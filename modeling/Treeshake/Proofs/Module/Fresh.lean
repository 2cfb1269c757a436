import Treeshake.Module.Basic
import Treeshake.Proofs.Draft.Edits
import Treeshake.Proofs.Module.Steps
import Treeshake.Proofs.Scope.Found
/-!
Modules as they are read. Main statements: no statement of a module that was parsed is included, every reference
is told by a node of its tree and bound to nothing, every binding has a statement that there is, and its draft is one
of its text.
-/
set_option autoImplicit false

namespace Treeshake

deriving instance DecidableEq for Module

structure Piece.Plain (root : Node) (p : Piece) : Prop where
  unmarked : p.statement.included = false
  bare : p.statement.references = []
  walked : ∀ w ∈ p.walked, w.1 ∈ root.nodes

structure Outline.Plain (text : String) (root : Node) (o : Outline) : Prop where
  pieces : ∀ p ∈ o.pieces, p.Plain root
  source : o.draft.source = text

namespace Reading

variable {text : String} {root : Node}

theorem plain_declaratorPieces (code : List Char) (keyword : String) (ancestors : List Node) (stop : Nat)
    {ds : List Node} (hds : ∀ d ∈ ds, d ∈ root.nodes) :
    ∀ p ∈ declaratorPieces code keyword ancestors stop ds, p.Plain root := by
  induction ds with
  | nil => exact List.forall_mem_nil _
  | cons d ds ih =>
    obtain ⟨hd, hds⟩ := List.forall_mem_cons.mp hds
    refine List.forall_mem_cons.mpr ⟨⟨rfl, rfl, fun w hw => ?_⟩, ih hds⟩
    cases hw
    exact hd

theorem plain_step {r : Reading} {o o' : Outline} {n : Node} {start : Nat} (ho : o.Plain text root)
    (hn : n ∈ root.nodes) (h : r.Step n start o o') : o'.Plain text root := by
  cases h with
  | nothing => exact ho
  | @one o₁ _ walked halike _ hwalked =>
    have hpiece : ∀ w ∈ walked, w.1 ∈ root.nodes := fun w hw => hwalked w hw ▸ hn
    refine ⟨List.forall_mem_append.mpr ⟨?_, List.forall_mem_singleton.mpr ⟨rfl, rfl, hpiece⟩⟩, ?_⟩
    · rw [halike.pieces]
      exact ho.pieces
    · exact (congrArg (·.source) halike.draft).trans ho.source
  | split declaration _ _ hdeclaration hdraft hpieces =>
    have hds : ∀ d ∈ declaration.declarators, d ∈ root.nodes := fun d hd =>
      Node.nodes_trans (Node.nodes_trans hn hdeclaration.mem_nodes)
        (Node.child_mem_nodes (Node.mem_children_of_declarators hd))
    refine ⟨?_, ?_⟩
    · rw [hpieces]
      exact List.forall_mem_append.mpr ⟨ho.pieces, plain_declaratorPieces _ _ _ _ hds⟩
    · obtain hkept | ⟨_, _, hremove⟩ := hdraft
      · exact (congrArg (·.source) hkept).trans ho.source
      · exact (Draft.source_remove hremove).trans ho.source

theorem plain_outlineFrom {r : Reading} {row comment : Option Nat} {o o' : Outline} {ns : List Node}
    (ho : o.Plain text root) (hns : ∀ n ∈ ns, n ∈ root.nodes) (h : r.outlineFrom row comment o ns = .ok o') :
    o'.Plain text root := by
  induction ns generalizing row comment o with
  | nil =>
    obtain rfl := Except.ok.inj h
    exact ho
  | cons n ns ih =>
    obtain ⟨hn, hns⟩ := List.forall_mem_cons.mp hns
    rw [outlineFrom] at h
    split at h
    · obtain ⟨draft, hdraft, h⟩ := bind_eq_ok.mp h
      refine ih ?_ hns h
      exact ⟨ho.pieces, (Draft.source_remove (mapError_eq_ok.mp hdraft)).trans ho.source⟩
    · exact ih ho hns h
    · exact ih ho hns h
    · obtain ⟨o₁, ho₁, h⟩ := bind_eq_ok.mp h
      exact ih (plain_step ho hn (step_statement ho₁)) hns h

theorem plain_outline {r : Reading} {draft : Draft} {o : Outline} (h : r.outline draft = .ok o) :
    o.Plain draft.source r.tree.root :=
  plain_outlineFrom ⟨List.forall_mem_nil _, rfl⟩
    (fun _ hn => Node.child_mem_nodes (List.mem_filter.mp hn).1) h

end Reading

/-- A module as it was read: no statement is included and no reference bound, and its bindings have
statements that there are. -/
structure Module.Fresh (m : Module) : Prop where
  unmarked : ∀ s ∈ m.statements, s.included = false
  unbound : ∀ s ∈ m.statements, ∀ r ∈ s.references, r.binding = .unbound
  placed : ∀ b ∈ m.bindings, ∀ i, b.statement = some i → i < m.statements.length

namespace Module

/-- A statement that nothing has been done to but reading: its references are told by nodes under `root`. -/
def Read (code : List Char) (root : Node) (s : Statement) : Prop :=
  s.included = false ∧ ∀ r ∈ s.references, root.Tells code r

theorem read_analyse {id : String} {code : List Char} {imports : Table ImportSpecifier}
    {forest forest' : ScopeForest} {ps : List Piece} {ss : List Statement} {root : Node}
    (hp : ∀ p ∈ ps, p.Plain root) (h : analyse id code imports forest ps = .ok (ss, forest')) :
    ∀ s ∈ ss, Read code root s := by
  induction ps generalizing forest forest' ss with
  | nil =>
    obtain ⟨rfl, -⟩ := Prod.mk.inj (Except.ok.inj h)
    exact List.forall_mem_nil _
  | cons p ps ih =>
    obtain ⟨hplain, hrest⟩ := List.forall_mem_cons.mp hp
    rw [analyse] at h
    split at h
    · obtain ⟨⟨rest, forest₁⟩, hanalyse, h⟩ := bind_eq_ok.mp h
      obtain ⟨rfl, -⟩ := Prod.mk.inj (Except.ok.inj h)
      have hread : Read code root p.statement := ⟨hplain.unmarked, hplain.bare ▸ List.forall_mem_nil _⟩
      exact List.forall_mem_cons.mpr ⟨hread, ih hrest hanalyse⟩
    · next n ancestors hwalked =>
      obtain ⟨⟨a, forest₁⟩, ha, h⟩ := bind_eq_ok.mp h
      obtain ⟨⟨rest, forest₂⟩, hanalyse, h⟩ := bind_eq_ok.mp h
      obtain ⟨rfl, -⟩ := Prod.mk.inj (Except.ok.inj h)
      obtain ⟨findings, hfindings, ha⟩ := bind_eq_ok.mp ha
      obtain ⟨rfl, -⟩ := Prod.mk.inj (Except.ok.inj ha)
      have hn : n ∈ root.nodes := hplain.walked (n, ancestors) hwalked
      exact List.forall_mem_cons.mpr ⟨⟨hplain.unmarked, fun r hr =>
        (Survey.tells_collect hfindings r hr).of_node hn⟩, ih hrest hanalyse⟩

theorem mem_chain {length : Nat} {s : Statement} {ss : List Statement} (hs : s ∈ Statement.chain length ss) :
    ∃ t ∈ ss, ∃ next, s = { t with next } := by
  induction ss using Statement.chain.induct with
  | case1 => cases hs
  | case2 t => exact ⟨t, List.mem_cons_self, length, List.mem_singleton.mp hs⟩
  | case3 t u rest ih =>
    rcases List.mem_cons.mp hs with rfl | hs
    · exact ⟨t, List.mem_cons_self, u.start, rfl⟩
    · obtain ⟨t', ht', heq⟩ := ih hs
      exact ⟨t', List.mem_cons_of_mem t ht', heq⟩

theorem length_chain (length : Nat) (ss : List Statement) :
    (Statement.chain length ss).length = ss.length := by
  induction ss using Statement.chain.induct with
  | case1 => rfl
  | case2 s => rfl
  | case3 s t rest ih => simpa [Statement.chain] using ih

def Placed (stop : Nat) (bs : List TopBinding) : Prop :=
  ∀ b ∈ bs, ∀ i, b.statement = some i → i < stop

theorem placed_names {index : Nat} (names : List String) {found : List TopBinding}
    (hf : Placed (index + 1) found) : Placed (index + 1) (names.foldl (fun found name =>
      if found.any (·.key == name) then found else found ++ [⟨name, name, some index⟩]) found) := by
  induction names generalizing found with
  | nil => exact hf
  | cons name names ih =>
    refine ih ?_
    dsimp only
    split
    · exact hf
    · intro b hb i hi
      rcases List.mem_append.mp hb with hb | hb
      · exact hf b hb i hi
      · obtain rfl := List.mem_singleton.mp hb
        obtain rfl := Option.some.inj hi
        exact Nat.lt_succ_self _

theorem placed_namesFrom {scopes : ScopeForest} {found : List TopBinding} (index : Nat)
    {ss : List Statement} (hf : Placed index found) :
    Placed (index + ss.length) (namesFrom scopes found index ss) := by
  induction ss generalizing found index with
  | nil => exact hf
  | cons s ss ih =>
    have hf' : Placed (index + 1) found := fun b hb i hi => Nat.lt_succ_of_lt (hf b hb i hi)
    have hrest := ih (index + 1) (placed_names ((s.scope.map scopes.names).getD []) hf')
    rw [List.length_cons, Nat.add_comm ss.length, ← Nat.add_assoc]
    exact hrest

theorem read_parse {grammar : Grammar} {id : String} {source : Source} {m : Module}
    (h : parse grammar id source = .ok m) : ∃ tree, treeOf grammar id source = .ok tree ∧
      ∀ s ∈ m.statements, Read source.code.toList tree.root s := by
  obtain ⟨tree, htree, h⟩ := bind_eq_ok.mp h
  obtain ⟨draft, -, h⟩ := bind_eq_ok.mp h
  obtain ⟨outline, houtline, h⟩ := bind_eq_ok.mp h
  obtain ⟨⟨ss, scopes⟩, hanalyse, h⟩ := bind_eq_ok.mp h
  obtain rfl := Except.ok.inj h
  refine ⟨tree, htree, fun s hs => ?_⟩
  obtain ⟨t, ht, next, rfl⟩ := mem_chain hs
  exact read_analyse (Reading.plain_outline houtline).pieces hanalyse t ht

theorem fresh_parse {grammar : Grammar} {id : String} {source : Source} {m : Module}
    (h : parse grammar id source = .ok m) : m.Fresh := by
  obtain ⟨_, -, hread⟩ := read_parse h
  refine ⟨fun s hs => (hread s hs).1, fun s hs r hr => ((hread s hs).2 r hr).unbound, fun b hb i hi => ?_⟩
  obtain ⟨tree, -, h⟩ := bind_eq_ok.mp h
  obtain ⟨draft, -, h⟩ := bind_eq_ok.mp h
  obtain ⟨outline, -, h⟩ := bind_eq_ok.mp h
  obtain ⟨⟨ss, scopes⟩, -, h⟩ := bind_eq_ok.mp h
  obtain rfl := Except.ok.inj h
  dsimp only at hb ⊢
  rw [length_chain]
  rcases List.mem_append.mp hb with hb | hb
  · have hlt := placed_namesFrom 0 (fun b hb => (by cases hb)) b hb i hi
    rwa [Nat.zero_add] at hlt
  · obtain ⟨e, -, rfl⟩ := Option.map_eq_some_iff.mp (Option.mem_toList.mp hb)
    exact (List.findIdx?_eq_some_iff_getElem.mp hi).1

theorem source_startDraft {code : String} {root : Node} {d : Draft} (h : startDraft code root = .ok d) :
    d.source = code := by
  obtain ⟨d₁, hd₁, h⟩ := bind_eq_ok.mp h
  obtain rfl := Except.ok.inj h
  have hstart : d₁.source = code := foldlM_keeps (P := (·.source = code))
    (fun _ _ _ hd hremove => (Draft.source_remove hremove).trans hd) rfl hd₁
  have hanchors : ∀ (nodes : List Node) (d : Draft),
      (nodes.foldl (fun d n => (d.anchor n.start).anchor n.stop) d).source = d.source := by
    intro nodes
    induction nodes with
    | nil => exact fun _ => rfl
    | cons n nodes ih => exact fun d => ih ((d.anchor n.start).anchor n.stop)
  exact (hanchors _ d₁).trans hstart

theorem source_parse {grammar : Grammar} {id : String} {source : Source} {m : Module}
    (h : parse grammar id source = .ok m) : m.draft.source = source.code := by
  obtain ⟨tree, -, h⟩ := bind_eq_ok.mp h
  obtain ⟨draft, hdraft, h⟩ := bind_eq_ok.mp h
  obtain ⟨outline, houtline, h⟩ := bind_eq_ok.mp h
  obtain ⟨analysed, -, h⟩ := bind_eq_ok.mp h
  obtain rfl := Except.ok.inj h
  exact (Reading.plain_outline houtline).source.trans (source_startDraft (mapError_eq_ok.mp hdraft))

end Module

end Treeshake
