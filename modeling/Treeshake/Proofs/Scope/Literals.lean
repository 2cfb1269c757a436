import Treeshake.Proofs.Scope.Found
import Treeshake.Proofs.Syntax.Quoted
/-!
The literals that the walk over a statement notes. Main statement: it notes the text of all of them, but of strings
without a line feed.
-/
set_option autoImplicit false

namespace Treeshake

namespace Node

variable {code : List Char} {n c : Node}

/-- The ranges of a literal's text that are noted: of a string only if it has a line feed. -/
def noted (code : List Char) (n : Node) : List (Nat × Nat) :=
  if n.kind == "string" && !(n.text code).contains '\n' then [] else n.chunks

theorem chunks_eq_nil (hstring : n.kind ≠ "string") (htemplate : n.kind ≠ "template_string") : n.chunks = [] := by
  unfold chunks
  split
  · next h => exact absurd h hstring
  · next h => exact absurd h htemplate
  · rfl

theorem isAtom_iff : n.isAtom code = true ↔
    n.kind = "comment" ∨ n.kind = "string" ∨ n.isName = true ∨ (n.chain? code).isSome = true := by
  simp only [isAtom, Bool.or_eq_true, beq_iff_eq, or_assoc]

theorem mem_chunks_of_noted {r : Nat × Nat} (h : r ∈ n.noted code) : r ∈ n.chunks := by
  rw [noted] at h
  split at h
  · cases h
  · exact h

theorem mem_noted {start : Nat} {first last : Char} {inner : List Char}
    (hr : (start + 1, start + 1 + Text.size inner) ∈ n.chunks)
    (hslice : Text.slice? start (start + 1 + Text.size inner + 1) code = some (first :: inner ++ [last]))
    (hstop : start + 1 + Text.size inner < n.stop)
    (hbreaks : n.kind = "string" → '\r' ∈ (n.text code).toList → '\n' ∈ (n.text code).toList)
    (hinner : ∃ c ∈ inner, Text.isBreak c = true) : (start + 1, start + 1 + Text.size inner) ∈ n.noted code := by
  rw [noted]
  split
  · next hplain =>
    rw [Bool.and_eq_true, beq_iff_eq, Bool.not_eq_true'] at hplain
    obtain ⟨hkind, hnone⟩ := hplain
    refine absurd ?_ (Bool.eq_false_iff.mp hnone)
    have hrange := hr
    rw [chunks, hkind] at hrange
    obtain ⟨hfirst, hlast⟩ := Prod.mk.inj (List.mem_singleton.mp hrange)
    have htext : (n.text code).toList = first :: inner ++ [last] := by
      have hstart : n.start = start := by omega
      have hend : n.stop = start + 1 + Text.size inner + 1 := by omega
      rw [text, Text.slice, hstart, hend, hslice]
      exact String.toList_ofList
    obtain ⟨c, hc, hbreak⟩ := hinner
    have hmem : c ∈ (n.text code).toList := by
      rw [htext]
      exact List.mem_append_left _ (List.mem_cons_of_mem _ hc)
    rw [String.contains_char_eq, decide_eq_true_eq]
    rw [Text.isBreak, Bool.or_eq_true, beq_iff_eq, beq_iff_eq] at hbreak
    rcases hbreak with rfl | rfl
    · exact hmem
    · exact hbreaks hkind hmem
  · exact hr

/-- Literals are under no node that a walk leaves out or takes as a whole. -/
def Walkable (code : List Char) (n : Node) : Prop :=
  ∀ m ∈ n.nodes, (m.named = false → ∀ c ∈ m.nodes, c.chunks = []) ∧
    (m.isAtom code = true → ∀ c ∈ nodesOf m.children, c.chunks = []) ∧ m.kind ≠ "export_specifier"

theorem Walkable.child (h : n.Walkable code) (hc : c ∈ n.children) : c.Walkable code :=
  fun m hm => h m (mem_nodes_of_child hc hm)

end Node

theorem SyntaxTree.Quoted.walkable {code : List Char} {t : SyntaxTree} {n w : Node} (h : t.Quoted code)
    (hn : n ∈ t.root.children) (hexport : n.kind = "export_statement" → n.exported?.isSome = true) (hw : w ∈ n.nodes) :
    w.Walkable code := by
  intro m hm
  have hmem := Node.nodes_trans hw hm
  have hroot := Node.mem_nodes_of_child hn hmem
  exact ⟨h.tokens m hroot, h.atoms m hroot, h.specifiers n hn hexport m hmem⟩

namespace Survey

variable {v : Survey}

theorem notes_visit {n : Node} {o : Outlook} {p : Findings × Outlook × Bool} (h : v.visit o n = .ok p) :
    (∀ r ∈ n.noted v.code, r ∈ p.1.literals) ∧
      (p.2.2 = false → n.isAtom v.code = true ∨ n.kind = "export_specifier") := by
  obtain ⟨found, below, deeper⟩ := p
  have hnone : n.kind ≠ "string" ∧ n.kind ≠ "template_string" → ∀ r ∈ n.noted v.code, r ∈ found.literals := by
    intro hplain r hr
    have hmem := Node.mem_chunks_of_noted hr
    rw [Node.chunks_eq_nil hplain.1 hplain.2] at hmem
    cases hmem
  cases (visited h : v.Visited n found deeper) with
  | comment hkind =>
    exact ⟨hnone (by rw [hkind]; decide), fun _ => .inl (Node.isAtom_iff.mpr (.inl hkind))⟩
  | string hkind =>
    refine ⟨fun r hr => ?_, fun _ => .inl (Node.isAtom_iff.mpr (.inr (.inl hkind)))⟩
    rw [Node.noted, Node.chunks, hkind] at hr
    split at hr
    · cases hr
    · next hbreak =>
      rw [beq_self_eq_true, Bool.true_and, Bool.not_eq_true', Bool.not_eq_false] at hbreak
      dsimp only
      rwa [if_pos hbreak]
  | template hkind =>
    refine ⟨fun r hr => ?_, Bool.noConfusion⟩
    have hr := Node.mem_chunks_of_noted hr
    rwa [Node.chunks, hkind] at hr
  | name o shorthand hname hshorthand =>
    have hplain : n.kind ≠ "string" ∧ n.kind ≠ "template_string" := by
      rw [Node.isName] at hname
      constructor
      · intro hkind
        rw [hkind] at hname
        cases hname
      · intro hkind
        rw [hkind] at hname
        cases hname
    exact ⟨hnone hplain, fun _ => .inl (Node.isAtom_iff.mpr (.inr (.inr (.inl hname))))⟩
  | chain o root accesses hkind hchain =>
    refine ⟨hnone (by rw [hkind]; decide), fun _ => .inl ?_⟩
    exact Node.isAtom_iff.mpr (.inr (.inr (.inr (Option.isSome_of_eq_some hchain))))
  | exported hkind => exact ⟨hnone (by rw [hkind]; decide), fun _ => .inr hkind⟩
  | exportedName o name hkind => exact ⟨hnone (by rw [hkind]; decide), fun _ => .inr hkind⟩
  | deeper effects hplain => exact ⟨hnone hplain, Bool.noConfusion⟩

mutual

theorem notes_collect : ∀ {n : Node} {o : Outlook} {f : Findings}, n.Walkable v.code → v.collect o n = .ok f →
    ∀ m ∈ n.nodes, ∀ r ∈ m.noted v.code, r ∈ f.literals
  | .mk head cs, o, f, hn, h => by
    rw [collect] at h
    obtain ⟨⟨found, below, deeper⟩, hvisit, h⟩ := bind_eq_ok.mp h
    obtain ⟨hself, hwhole⟩ := notes_visit hvisit
    dsimp only at h hself hwhole
    split at h
    · obtain ⟨rest, hrest, h⟩ := bind_eq_ok.mp h
      obtain rfl := Except.ok.inj h
      have hall := notes_collectAll (fun c hc => hn.child hc) hrest
      refine List.forall_mem_cons.mpr ⟨fun r hr => List.mem_append_left _ (hself r hr), fun m hm r hr => ?_⟩
      exact List.mem_append_right _ (hall m hm r hr)
    · next hstays =>
      obtain rfl := Except.ok.inj h
      obtain ⟨-, hatom, hspecifier⟩ := hn _ (Node.self_mem_nodes _)
      have hnone := hatom ((hwhole (Bool.eq_false_iff.mpr hstays)).resolve_right hspecifier)
      refine List.forall_mem_cons.mpr ⟨hself, fun m hm r hr => ?_⟩
      have hr := Node.mem_chunks_of_noted hr
      rw [hnone m hm] at hr
      cases hr

theorem notes_collectAll : ∀ {ns : List Node} {o : Outlook} {f : Findings}, (∀ n ∈ ns, n.Walkable v.code) →
    v.collectAll o ns = .ok f → ∀ m ∈ Node.nodesOf ns, ∀ r ∈ m.noted v.code, r ∈ f.literals
  | [], o, f, hns, h => List.forall_mem_nil _
  | n :: ns, o, f, hns, h => by
    obtain ⟨hn, hns⟩ := List.forall_mem_cons.mp hns
    obtain ⟨first, rest, hfirst, hrest, rfl⟩ := collectAll_cons h
    refine List.forall_mem_append.mpr ⟨fun m hm r hr => ?_, fun m hm r hr => ?_⟩
    · rcases hfirst with ⟨-, hfirst⟩ | ⟨hunnamed, -⟩
      · exact List.mem_append_left _ (notes_collect hn hfirst m hm r hr)
      · have hr := Node.mem_chunks_of_noted hr
        rw [(hn n (Node.self_mem_nodes n)).1 hunnamed m hm] at hr
        cases hr
    · exact List.mem_append_right _ (notes_collectAll hns hrest m hm r hr)

end

end Survey

end Treeshake
