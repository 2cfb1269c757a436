import Treeshake.Proofs.Module.Parsed
import Treeshake.Proofs.Syntax.Lexed
/-!
How statements divide a text. Main statement: they stand in the order of the text, each with its node and what separates
it from the next, and their ranges share no byte and leave none behind the start of the first.
-/
set_option autoImplicit false

namespace Treeshake

namespace Statement

/-- A statement does not end before its node starts, nor, if it is a declarator, behind what separates it from the
next. -/
structure Upright (s : Statement) : Prop where
  node : s.nodeStart ≤ s.stop
  separator : ∀ keyword name separatorEnd last, s.kind = .declarator keyword name separatorEnd last →
    s.stop ≤ separatorEnd

/-- Statements whose ranges, each up to the start of the next, divide a text among them. -/
structure Tiling (length : Nat) (ss : List Statement) : Prop where
  inner : ∀ s ∈ ss, s.start ≤ s.nodeStart ∧ s.nodeStart ≤ s.stop ∧ s.stop ≤ s.next
  separators : ∀ s ∈ ss, ∀ keyword name separatorEnd last, s.kind = .declarator keyword name separatorEnd last →
    s.stop ≤ separatorEnd ∧ separatorEnd ≤ s.next
  chained : ∀ i s, ss[i]? = some s → s.next = (ss[i + 1]?.map (·.start)).getD length
  ordered : ss.Pairwise fun s t => s.next ≤ t.start
  within : ∀ s ∈ ss, s.next ≤ length
  covered : ∀ s ∈ ss.head?, ∀ k, s.start ≤ k → k < length → ∃ t ∈ ss, t.start ≤ k ∧ k < t.next

variable {length start : Nat} {ss : List Statement}

theorem Tile.next (ht : Tile length start ss) (i : Nat) (s : Statement) (hs : ss[i]? = some s) :
    s.next = (ss[i + 1]?.map (·.start)).getD length := by
  induction ss generalizing start i with
  | nil => cases hs
  | cons t ss ih =>
    cases i with
    | succ i => exact ih ht.2 i hs
    | zero =>
      cases hs
      cases ss with
      | nil => exact ht.2
      | cons u ss => exact ht.2.1.symm

theorem Tile.exists_mem (ht : Tile length start ss) {k : Nat} (hstart : start ≤ k) (hk : k < length) :
    ∃ s ∈ ss, s.start ≤ k ∧ k < s.next := by
  induction ss generalizing start with
  | nil =>
    obtain rfl : start = length := ht
    omega
  | cons s ss ih =>
    obtain ⟨rfl, hrest⟩ := ht
    by_cases hnext : k < s.next
    · exact ⟨s, List.mem_cons_self, hstart, hnext⟩
    · obtain ⟨t, hmem, hin⟩ := ih hrest (Nat.le_of_not_lt hnext)
      exact ⟨t, List.mem_cons_of_mem s hmem, hin⟩

theorem Tile.tiling (ht : Tile length start ss) (hc : ∀ s ∈ ss, s.Contained) (hu : ∀ s ∈ ss, s.Upright) :
    Tiling length ss where
  inner s hs := ⟨(hc s hs).node, (hu s hs).node, (hc s hs).stop.2⟩
  separators s hs keyword name separatorEnd last hkind :=
    ⟨(hu s hs).separator keyword name separatorEnd last hkind,
      (hc s hs).offsets separatorEnd (by rw [hkind]; exact List.mem_singleton_self separatorEnd)⟩
  chained := ht.next
  ordered := ht.apart hc
  within s hs := ((ht.bounds hc).2 s hs).2
  covered s hs k hle hlt := by
    obtain ⟨rest, rfl⟩ := List.head?_eq_some_iff.mp hs
    exact ht.exists_mem (ht.1 ▸ hle) hlt

end Statement

namespace Reading

variable {r : Reading} {o o' : Outline} {n : Node} {code : List Char} {start stop : Nat}

theorem upright_declaratorPieces (keyword : String) (ancestors : List Node) {ds : List Node}
    (hds : Node.NestedFrom code start stop ds) :
    ∀ p ∈ declaratorPieces code keyword ancestors stop ds, p.statement.Upright := by
  induction ds generalizing start with
  | nil => exact List.forall_mem_nil _
  | cons d ds ih =>
    obtain ⟨-, hd, hrest⟩ := hds
    refine List.forall_mem_cons.mpr ⟨⟨hd.le, fun _ _ separatorEnd _ hkind => ?_⟩, ih hrest⟩
    cases hkind
    exact hrest.opening.1

theorem upright_step (hn : n.Nested r.code) (ho : ∀ p ∈ o.pieces, p.statement.Upright) (h : r.Step n start o o') :
    ∀ p ∈ o'.pieces, p.statement.Upright := by
  cases h with
  | nothing => exact ho
  | @one o₁ kind walked halike _ _ hframes =>
    rw [push, halike.pieces]
    refine List.forall_mem_append.mpr ⟨ho, List.forall_mem_singleton.mpr ⟨hn.le, fun _ _ _ _ hkind => ?_⟩⟩
    obtain rfl : kind = _ := hkind
    exact hframes.elim
  | split declaration keyword ancestors hdeclaration _ hpieces =>
    rw [hpieces]
    have hnested := (hn.node hdeclaration.mem_nodes).1
    exact List.forall_mem_append.mpr ⟨ho, upright_declaratorPieces keyword ancestors hnested.declarators⟩

theorem upright_outline {draft : Draft} (hroot : r.tree.root.Nested r.code) (h : r.outline draft = .ok o) :
    ∀ p ∈ o.pieces, p.statement.Upright :=
  forall_pieces_outlineFrom (fun _ hn _ _ _ ho hstep => upright_step (hroot.namedChildren.mem hn).1 ho hstep)
    (List.forall_mem_nil _) h

end Reading

structure Piece.Stays (p : Piece) (s : Statement) : Prop where
  kind : s.kind = p.statement.kind
  stop : s.stop = p.statement.stop
  nodeStart : s.nodeStart = p.statement.nodeStart

theorem Module.stays_analyse {id : String} {code : List Char} {imports : Table ImportSpecifier}
    {forest forest' : ScopeForest} {ps : List Piece} {ss : List Statement}
    (h : analyse id code imports forest ps = .ok (ss, forest')) : List.Forall₂ Piece.Stays ps ss := by
  induction ps generalizing forest forest' ss with
  | nil =>
    obtain ⟨rfl, -⟩ := Prod.mk.inj (Except.ok.inj h)
    exact .nil
  | cons p ps ih =>
    rw [analyse] at h
    split at h
    · obtain ⟨⟨rest, forest₁⟩, hanalyse, h⟩ := bind_eq_ok.mp h
      obtain ⟨rfl, -⟩ := Prod.mk.inj (Except.ok.inj h)
      exact .cons ⟨rfl, rfl, rfl⟩ (ih hanalyse)
    · obtain ⟨⟨a, forest₁⟩, -, h⟩ := bind_eq_ok.mp h
      obtain ⟨⟨rest, forest₂⟩, hanalyse, h⟩ := bind_eq_ok.mp h
      obtain ⟨rfl, -⟩ := Prod.mk.inj (Except.ok.inj h)
      exact .cons ⟨rfl, rfl, rfl⟩ (ih hanalyse)

theorem Piece.tiling_chain {code : List Char} {length : Nat} {ps : List Piece} {ss : List Statement}
    (hlaid : LaidBy code length ps) (hupright : ∀ p ∈ ps, p.statement.Upright)
    (hbecame : List.Forall₂ (Became code) ps ss) (hstays : List.Forall₂ Stays ps ss) :
    Statement.Tiling length (Statement.chain length ss) := by
  refine (Statement.tile_chain length ss).tiling (fun s hs => (Module.contained_chain hbecame hlaid s hs).1) ?_
  intro s hs
  obtain ⟨t, ht, next, rfl⟩ := Module.mem_chain hs
  obtain ⟨p, hp, hpt⟩ := forall₂_mem hstays ht
  obtain ⟨hnode, hseparator⟩ := hupright p hp
  rw [← hpt.nodeStart, ← hpt.stop] at hnode
  rw [← hpt.kind, ← hpt.stop] at hseparator
  exact ⟨hnode, hseparator⟩

/-- The statements that a text is split into divide it, as they are split off and when they have been analysed. -/
theorem Reading.statements_tile_text {r : Reading} {draft : Draft} {o : Outline} (hroot : r.tree.root.Nested r.code)
    (hstop : r.tree.root.stop ≤ Text.size r.code) (h : r.outline draft = .ok o) :
    Statement.Tiling (Text.size r.code) (Statement.chain (Text.size r.code) (o.pieces.map (·.statement))) ∧
      ∀ id imports forest ss forest', Module.analyse id r.code imports forest o.pieces = .ok (ss, forest') →
        Statement.Tiling (Text.size r.code) (Statement.chain (Text.size r.code) ss) := by
  have hlaid := (laid_outline hroot h).mono hstop
  have hupright := upright_outline hroot h
  refine ⟨Piece.tiling_chain hlaid hupright ?_ ?_, fun _ _ _ _ _ hanalyse =>
    Piece.tiling_chain hlaid hupright (Module.became_analyse hanalyse) (Module.stays_analyse hanalyse)⟩
  · exact List.forall₂_map_right_iff.mpr (List.forall₂_same.mpr fun p _ => ⟨rfl, fun _ hfits => hfits.contained⟩)
  · exact List.forall₂_map_right_iff.mpr (List.forall₂_same.mpr fun p _ => ⟨rfl, rfl, rfl⟩)

namespace Reading

def twoVariables : Reading where
  id := "m"
  code := "// n\nvar a = 1, b = 2; ;\nf();".toList
  tree := .of "// n\nvar a = 1, b = 2; ;\nf();" (.mk { kind := "program", start := 0, stop := 29 } [
    .mk { kind := "comment", start := 0, stop := 4 } [],
    .mk { kind := "variable_declaration", start := 5, stop := 22 } [
      .mk { kind := "var", start := 5, stop := 8, named := false } [],
      .mk { kind := "variable_declarator", start := 9, stop := 14 } [
        .mk { kind := "identifier", start := 9, stop := 10, field := "name" } [],
        .mk { kind := "number", start := 13, stop := 14, field := "value" } []],
      .mk { kind := "variable_declarator", start := 16, stop := 21 } [
        .mk { kind := "identifier", start := 16, stop := 17, field := "name" } [],
        .mk { kind := "number", start := 20, stop := 21, field := "value" } []]],
    .mk { kind := "empty_statement", start := 23, stop := 24 } [],
    .mk { kind := "expression_statement", start := 25, stop := 29 } [
      .mk { kind := "call_expression", start := 25, stop := 28 } [
        .mk { kind := "identifier", start := 25, stop := 26, field := "function" } [],
        .mk { kind := "arguments", start := 26, stop := 28 } []]]])

theorem statements_tile_text_variables : ∃ o, twoVariables.outline (.ofText "// n\nvar a = 1, b = 2; ;\nf();") = .ok o ∧
    ((Statement.chain 29 (o.pieces.map (·.statement))).map fun s => (s.start, s.nodeStart, s.stop, s.next)) =
      [(9, 9, 14, 16), (16, 16, 21, 25), (25, 25, 29, 29)] ∧
    Statement.Tiling 29 (Statement.chain 29 (o.pieces.map (·.statement))) := by
  have hrun : ((twoVariables.outline (.ofText "// n\nvar a = 1, b = 2; ;\nf();")).toOption.map fun o =>
      (Statement.chain 29 (o.pieces.map (·.statement))).map fun s => (s.start, s.nodeStart, s.stop, s.next)) =
      some [(9, 9, 14, 16), (16, 16, 21, 25), (25, 25, 29, 29)] := by
    decide +kernel
  cases houtline : twoVariables.outline (.ofText "// n\nvar a = 1, b = 2; ;\nf();") with
  | error e =>
    rw [houtline] at hrun
    cases hrun
  | ok o =>
    rw [houtline] at hrun
    exact ⟨o, rfl, Option.some.inj hrun,
      (statements_tile_text (r := twoVariables) (by decide +kernel) (by decide +kernel) houtline).1⟩

end Reading

end Treeshake
