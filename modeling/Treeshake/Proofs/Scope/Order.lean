import Treeshake.Proofs.Scope.Found
/-!
The order in which the walk over a statement finds references. Main statement: they are read off nodes that lie one
behind the other, so no two of them have text in common.
-/
set_option autoImplicit false

namespace Treeshake

/-- References that are read off nodes that lie one behind the other in a range, all of them among given nodes. -/
def ReadOff (code : List Char) (start stop : Nat) (within : List Node) (rs : List Reference) : Prop :=
  ∃ es, Node.NestedFrom code start stop es ∧ (∀ e ∈ es, e ∈ within) ∧ List.Forall₂ (Node.Yields code) es rs

namespace ReadOff

variable {code : List Char} {start mid stop : Nat} {within within' : List Node} {rs rs' : List Reference}

theorem nil (h : start ≤ stop) : ReadOff code start stop within [] := ⟨[], h, List.forall_mem_nil _, .nil⟩

theorem append (h : ReadOff code start mid within rs) (h' : ReadOff code mid stop within' rs') :
    ReadOff code start stop (within ++ within') (rs ++ rs') := by
  obtain ⟨es, hes, hmem, hyields⟩ := h
  obtain ⟨es', hes', hmem', hyields'⟩ := h'
  refine ⟨es ++ es', hes.append hes', List.forall_mem_append.mpr ⟨fun e he => ?_, fun e he => ?_⟩,
    List.rel_append hyields hyields'⟩
  · exact List.mem_append_left _ (hmem e he)
  · exact List.mem_append_right _ (hmem' e he)

theorem mono {start' : Nat} (hle : start' ≤ start) (hsub : ∀ e ∈ within, e ∈ within')
    (h : ReadOff code start stop within rs) : ReadOff code start' stop within' rs := by
  obtain ⟨es, hes, hmem, hyields⟩ := h
  exact ⟨es, hes.mono hle, fun e he => hsub e (hmem e he), hyields⟩

end ReadOff

namespace Survey

variable {v : Survey}

theorem readOff_visit {n : Node} {o : Outlook} {p : Findings × Outlook × Bool} (hn : n.Nested v.code)
    (h : v.visit o n = .ok p) : p.1.references = [] ∨
      p.2.2 = false ∧ ReadOff v.code n.start n.stop n.nodes p.1.references := by
  refine (yields_visit h).imp_right fun hread => ?_
  obtain ⟨hdeeper, e, r, he, hone, hyields⟩ := hread
  refine ⟨hdeeper, ?_⟩
  obtain ⟨hmem, hnested⟩ : e ∈ n.nodes ∧ Node.NestedFrom v.code n.start n.stop [e] := by
    rcases he with rfl | he
    · exact ⟨Node.self_mem_nodes e, Nat.le_refl _, hn, Nat.le_refl _⟩
    · exact ⟨Node.child_mem_nodes he, hn.children.sublist (List.singleton_sublist.mpr he)⟩
  exact hone ▸ ⟨[e], hnested, List.forall_mem_singleton.mpr hmem, .cons hyields .nil⟩

mutual

theorem readOff_collect : ∀ {n : Node} {o : Outlook} {f : Findings}, n.Nested v.code → v.collect o n = .ok f →
    ReadOff v.code n.start n.stop n.nodes f.references
  | .mk head cs, o, f, hn, h => by
    rw [collect] at h
    obtain ⟨⟨found, below, deeper⟩, hvisit, h⟩ := bind_eq_ok.mp h
    have hfound := readOff_visit hn hvisit
    dsimp only at h hfound
    split at h
    · next hdeeper =>
      obtain ⟨rest, hrest, h⟩ := bind_eq_ok.mp h
      obtain rfl := Except.ok.inj h
      have hnone : found.references = [] := hfound.resolve_right fun h => by
        rw [hdeeper] at h
        cases h.1
      have hall : (found ++ rest).references = rest.references := by
        change found.references ++ rest.references = _
        rw [hnone, List.nil_append]
      rw [hall]
      exact (readOff_collectAll hn.2 hrest).mono (Nat.le_refl _) fun e he => List.mem_cons_of_mem _ he
    · obtain rfl := Except.ok.inj h
      rcases hfound with hnone | ⟨-, hfound⟩
      · exact hnone ▸ .nil hn.le
      · exact hfound

theorem readOff_collectAll {start stop : Nat} : ∀ {ns : List Node} {o : Outlook} {f : Findings},
    Node.NestedFrom v.code start stop ns → v.collectAll o ns = .ok f →
    ReadOff v.code start stop (Node.nodesOf ns) f.references
  | [], o, f, hns, h => by
    obtain rfl := Except.ok.inj h
    exact .nil hns
  | n :: ns, o, f, ⟨hstart, hn, hns⟩, h => by
    obtain ⟨first, rest, hfirst, hrest, rfl⟩ := collectAll_cons h
    have hread : ReadOff v.code n.start n.stop n.nodes first.references := by
      rcases hfirst with ⟨-, hfirst⟩ | ⟨-, rfl⟩
      · exact readOff_collect hn hfirst
      · exact .nil hn.le
    exact (hread.mono hstart fun e he => he).append (readOff_collectAll hns hrest)

end

end Survey

end Treeshake
