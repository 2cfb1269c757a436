import Treeshake.Proofs.Graph.Built
/-!
Binding in stages: statement after statement, module after module. Main statement: what holds before any statement is
bound and comes one stage further with each that is, holds behind the last one when all are bound.
-/
set_option autoImplicit false

namespace Treeshake

def StatementRef.Before (k p : StatementRef) : Prop :=
  k.module < p.module ∨ k.module = p.module ∧ k.index < p.index

namespace StatementRef

variable {k : StatementRef} {module index : Nat}

theorem Before.succ (hk : k.Before ⟨module, index⟩) : k.Before ⟨module, index + 1⟩ := by
  rcases hk with hk | ⟨hk, hi⟩
  · exact .inl hk
  · exact .inr ⟨hk, Nat.lt_succ_of_lt hi⟩

theorem Before.next (hk : k.Before ⟨module, index⟩) : k.Before ⟨module + 1, 0⟩ :=
  .inl (Nat.lt_succ_of_le (hk.elim Nat.le_of_lt fun h => Nat.le_of_eq h.1))

theorem Before.of_succ (hk : k.Before ⟨module, index + 1⟩) : k.Before ⟨module, index⟩ ∨ k = ⟨module, index⟩ := by
  obtain ⟨i, j⟩ := k
  rcases hk with hk | ⟨rfl, hi⟩
  · exact .inl (.inl hk)
  · rcases Nat.lt_succ_iff_lt_or_eq.mp hi with hi | rfl
    · exact .inl (.inr ⟨rfl, hi⟩)
    · exact .inr rfl

theorem Before.of_next (hk : k.Before ⟨module + 1, 0⟩) :
    k.Before ⟨module, index⟩ ∨ k.module = module ∧ index ≤ k.index := by
  rcases hk with hk | ⟨-, hi⟩
  · rcases Nat.lt_succ_iff_lt_or_eq.mp hk with hk | hk
    · exact .inl (.inl hk)
    · exact (Nat.lt_or_ge k.index index).imp (fun hi => .inr ⟨hk, hi⟩) fun hi => ⟨hk, hi⟩
  · exact absurd hi (Nat.not_lt_zero _)

theorem not_before_self : ¬Before ⟨module, index⟩ ⟨module, index⟩ := by
  simp [Before]

end StatementRef

namespace Graph

variable {R : List Routes} {n : Nat} {g h : Graph}

theorem Keeps.strengthen {α : Type} {x : Build α} {Q Q' : Graph → α → Prop} (hx : Keeps R n g x Q)
    (hQ : ∀ a h, x.run g = .ok (a, h) → Q h a → Q' h a) : Keeps R n g x Q' := by
  intro a h hrun
  obtain ⟨hw, hl, hQh⟩ := hx a h hrun
  exact ⟨hw, hl, hQ a h hrun hQh⟩

theorem Keeps.range {β : Type} {f : β → Nat → Build β} {I : Nat → Graph → Prop}
    (hf : ∀ i b h, Wired R n h → I i h → Keeps R n h (f b i) fun k _ => I (i + 1) k) (count : Nat) (b : β)
    (hg : Wired R n g) (hI : I 0 g) : Keeps R n g ((List.range count).foldlM f b) fun h _ => I count h := by
  induction count with
  | zero => exact Keeps.pure hg hI
  | succ count ih =>
    rw [List.range_succ, List.foldlM_append]
    refine ih.bind fun b h hw _ hI => ?_
    rw [List.foldlM_cons]
    exact (hf count b h hw hI).bind fun b k hk _ hI => Keeps.pure hk hI

/-- A property of graphs at each stage of binding. Aliases and the default export of a module leave the stage, each
statement comes one further, and behind the last one of a module is the stage of the next module. -/
structure Staged (R : List Routes) (n : Nat) (I : StatementRef → Graph → Prop) : Prop where
  aliases : ∀ {g h : Graph} {module count count' : Nat}, Wired R n g → I ⟨0, 0⟩ g →
    (bindAliases module count).run g = .ok (count', h) → I ⟨0, 0⟩ h
  default : ∀ {g h : Graph} {module : Nat} {u : Unit}, Wired R n g → I ⟨module, 0⟩ g →
    (bindDefault module).run g = .ok (u, h) → I ⟨module, 0⟩ h
  statement : ∀ {g h : Graph} {module index : Nat} {stats stats' : LinkStats}, Wired R n g → I ⟨module, index⟩ g →
    (bindStatement module stats index).run g = .ok (stats', h) → I ⟨module, index + 1⟩ h
  next : ∀ {g : Graph} {module index : Nat}, I ⟨module, index⟩ g →
    (∀ i, index ≤ i → g.statement? ⟨module, i⟩ = none) → I ⟨module + 1, 0⟩ g

variable {I : StatementRef → Graph → Prop}

theorem Relinked.statement?_eq_none (hr : Relinked g h) {k : StatementRef} (hk : g.statement? k = none) :
    h.statement? k = none := by
  cases ht : h.statement? k with
  | none => rfl
  | some t =>
    obtain ⟨m, hm, hs⟩ := Option.bind_eq_some_iff.mp ht
    obtain ⟨l, hl, hlm⟩ := forall₂_getElem? hr.flip hm
    obtain ⟨s, hs, -⟩ := forall₂_getElem? hlm.statements.flip hs
    rw [Graph.statement?, hl, Option.bind_some, hs] at hk
    cases hk

theorem Staged.bindReferences (hI : Staged R n I) (hR : Ranged R n) (stats : LinkStats) (module : Nat)
    (hg : Wired R n g) (hs : I ⟨module, 0⟩ g) :
    Keeps R n g (bindReferences stats module) fun h _ => I ⟨module + 1, 0⟩ h := by
  rw [Graph.bindReferences]
  have hdefault : Keeps R n g (bindDefault module) fun h _ => I ⟨module, 0⟩ h :=
    (keeps_bindDefault hR module hg).strengthen fun _ h hrun _ => hI.default hg hs hrun
  refine hdefault.bind fun _ h hw _ hs => Keeps.get ?_
  -- The statements were counted before any was bound; binding them makes them no more.
  refine (Keeps.range (I := fun i k => I ⟨module, i⟩ k ∧ Relinked h k) (fun i b k hk hs => ?_) _ stats hw
    ⟨hs, .refl h⟩).strengthen fun _ k _ hs => hI.next hs.1 fun i hi => hs.2.statement?_eq_none ?_
  · exact (keeps_bindStatement hR module b i hk).strengthen fun _ l hrun _ => ⟨hI.statement hk hs.1 hrun,
      hs.2.trans (Changes.relinked (takes_bindStatement module b i _ l hrun))⟩
  · rw [Graph.statement?]
    cases hm : h.modules[module]? with
    | none => rfl
    | some m =>
      rw [hm] at hi
      exact List.getElem?_eq_none hi

/-- Binding all references brings a graph from the first stage to the last. -/
theorem Staged.bind (hI : Staged R n I) (hR : Ranged R n) {stats : LinkStats}
    (hg : Wired R n { g with modules := g.modules.map (·.bindStars) })
    (hs : I ⟨0, 0⟩ { g with modules := g.modules.map (·.bindStars) }) (hrun : bind.run g = .ok (stats, h)) :
    I ⟨g.modules.length, 0⟩ h := by
  have hkeeps : Keeps R n { g with modules := g.modules.map (·.bindStars) } (do
      let modules := List.range (← get).modules.length
      let aliases ← modules.foldlM (fun count module => bindAliases module count) 0
      modules.foldlM Graph.bindReferences { aliases }) fun h _ => I ⟨g.modules.length, 0⟩ h := by
    refine Keeps.get ?_
    dsimp only
    rw [List.length_map]
    refine (Keeps.foldlM (I := I ⟨0, 0⟩) (fun i _ count k hk hs => ?_) 0 hg hs).bind fun aliases k hw _ hs => ?_
    · exact (keeps_bindAliases hR i count hk).strengthen fun _ l hrun _ => hI.aliases hk hs hrun
    · exact Keeps.range (I := fun i k => I ⟨i, 0⟩ k) (fun i stats l hl hs => hI.bindReferences hR stats i hl hs) _ _
        hw hs
  exact (hkeeps stats h hrun).2.2

end Graph

end Treeshake
