import Treeshake.Proofs.Module.Exports
import Treeshake.Proofs.Module.Fresh
import Treeshake.Proofs.Scope.Declared
/-!
Where the bindings of a module are declared. Main statement: in a module that was parsed, each binding but the default
export has a statement with a reference where a declaration in the text binds its name, and that is no statement that
only names what is elsewhere, nor a default export that only stands for a name.
-/
set_option autoImplicit false

namespace Treeshake

def Node.ExportsNames (n : Node) : Prop :=
  n.kind = "export_statement" ∧ n.childAt? "declaration" = none ∧
    (n.children.any (·.kind == "default") = true → ∀ x ∈ n.childAt? "value", x.kind = "identifier")

instance (n : Node) : Decidable n.ExportsNames := inferInstanceAs (Decidable (_ ∧ _ ∧ _))

/-- A tree as a grammar gives it. Where declarations bind names the walk for references comes to a name, and this is
not the keyword for default exports; and exports that name what is declared elsewhere declare nothing. -/
structure SyntaxTree.Declaring (code : List Char) (t : SyntaxTree) : Prop where
  named : ∀ w ∈ t.root.nodes, w.Declaring code
  reserved : ∀ d ∈ t.root.nodes, ∀ b ∈ d.binders, b.text code ≠ "default"
  exports : ∀ n ∈ t.root.children, n.ExportsNames → ∀ d ∈ n.nodes, d.binders = []

instance (code : List Char) (t : SyntaxTree) : Decidable (t.Declaring code) :=
  decidable_of_iff ((∀ w ∈ t.root.nodes, w.Declaring code) ∧
    (∀ d ∈ t.root.nodes, ∀ b ∈ d.binders, b.text code ≠ "default") ∧
    ∀ n ∈ t.root.children, n.ExportsNames → ∀ d ∈ n.nodes, d.binders = [])
    ⟨fun h => ⟨h.1, h.2.1, h.2.2⟩, fun h => ⟨h.named, h.reserved, h.exports⟩⟩

theorem Reference.Binds.of_node {code : List Char} {n w : Node} {r : Reference} (h : r.Binds code w)
    (hw : w ∈ n.nodes) : r.Binds code n := by
  obtain ⟨d, hd, hbinder⟩ := h
  exact ⟨d, Node.nodes_trans hw hd, hbinder⟩

namespace Table

variable {α : Type} {t t' : Table α} {key : String} {a : α}

theorem get?_of_prefix (h : t <+: t') (hget : t.get? key = some a) : t'.get? key = some a := by
  obtain ⟨rest, rfl⟩ := h
  rw [get?, List.lookup_append, show t.lookup key = some a from hget, Option.some_or]

theorem get?_concat_of_not_has (h : t.has key = false) : Table.get? key (t ++ [(key, a)]) = some a := by
  have hnone : t.lookup key = none := by
    cases hget : t.lookup key with
    | none => rfl
    | some b =>
      have hkey := mem_keys_iff_has.mp (mem_keys_iff.mpr ⟨b, hget⟩)
      rw [h] at hkey
      cases hkey
  rw [get?, List.lookup_append, hnone, Option.none_or, List.lookup_cons_self]

end Table

structure Piece.Exports (n : Node) (exports : Table ExportSpecifier) (p : Piece) : Prop where
  bare : p.statement.scope = none
  walked : ∀ w ∈ p.walked, w.1 ∈ n.nodes
  link : p.statement.kind.IsLink → ∀ w ∈ p.walked, n.ExportsNames
  default : ∀ start form, p.statement.kind = .exportDefault start form → ∃ e, exports.get? "default" = some e ∧
    (e.identifier.isSome = true → form ≠ .declaration → n.ExportsNames)

theorem Piece.Exports.mono {n : Node} {exports exports' : Table ExportSpecifier} {p : Piece} (h : p.Exports n exports)
    (hbehind : exports <+: exports') : p.Exports n exports' := by
  refine ⟨h.bare, h.walked, h.link, fun start form hkind => ?_⟩
  obtain ⟨e, he, hnames⟩ := h.default start form hkind
  exact ⟨e, Table.get?_of_prefix hbehind he, hnames⟩

namespace Reading

variable {r : Reading} {o o' : Outline} {n : Node} {start : Nat}

structure Adds (n : Node) (o o' : Outline) : Prop where
  exports : o.exports <+: o'.exports
  pieces : ∀ p ∈ o'.pieces, p ∈ o.pieces ∨ p.Exports n o'.exports

theorem Adds.of_alike (halike : o.Alike o') (hexports : o.exports <+: o'.exports) : Adds n o o' :=
  ⟨hexports, fun _ hp => .inl (halike.pieces ▸ hp)⟩

theorem Adds.push (h : Adds n o o') (kind : StatementKind) (walked : Option (Node × List Node)) (w : Node)
    (hwalked : ∀ w ∈ walked, w.1 ∈ n.nodes) (hlink : kind.IsLink → ∀ w ∈ walked, n.ExportsNames)
    (hdefault : ∀ declarationStart form, kind = .exportDefault declarationStart form →
      ∃ e, o'.exports.get? "default" = some e ∧ (e.identifier.isSome = true → form ≠ .declaration → n.ExportsNames)) :
    Adds n o (push o' kind w start walked) := by
  refine ⟨h.exports, fun p hp => ?_⟩
  rcases List.mem_append.mp hp with hp | hp
  · exact h.pieces p hp
  · obtain rfl := List.mem_singleton.mp hp
    exact .inr ⟨rfl, hwalked, hlink, hdefault⟩

theorem Adds.walks (h : Adds n o o') {kind : StatementKind} {w : Node} (hw : w ∈ n.nodes) (ancestors : List Node)
    (hlink : ¬kind.IsLink) (hdefault : ∀ declarationStart form, kind ≠ .exportDefault declarationStart form) :
    Adds n o (Reading.push o' kind w start (some (w, ancestors))) := by
  refine h.push kind _ w (fun w' hw' => ?_) (absurd · hlink) fun declarationStart form heq =>
    absurd heq (hdefault declarationStart form)
  obtain rfl := Option.some.inj hw'
  exact hw

theorem exports_addExport {exported : String} {specifier : ExportSpecifier}
    (h : r.addExport o exported specifier = .ok o') :
    o.exports.has exported = false ∧ o'.exports = o.exports ++ [(exported, specifier)] := by
  obtain ⟨_, hcheck, h⟩ := bind_eq_ok.mp h
  obtain rfl := Except.ok.inj h
  have hnew := not_exported_of_checkExport hcheck
  refine ⟨Bool.eq_false_iff.mpr fun hhas => hnew ?_, rfl⟩
  exact List.mem_append_left _ (Table.mem_keys_iff_has.mpr hhas)

theorem prefix_addExport {exported : String} {specifier : ExportSpecifier}
    (h : r.addExport o exported specifier = .ok o') : o.exports <+: o'.exports :=
  (exports_addExport h).2 ▸ List.prefix_append _ _

theorem prefix_foldlM {α : Type} {f : Outline → α → Except Error Outline}
    (hf : ∀ o a o', f o a = .ok o' → o.exports <+: o'.exports) {l : List α} (h : l.foldlM f o = .ok o') :
    o.exports <+: o'.exports :=
  foldlM_keeps (P := fun o' : Outline => o.exports <+: o'.exports)
    (fun _ _ _ ho hstep => ho.trans (hf _ _ _ hstep)) (List.prefix_refl _) h

theorem prefix_addOwnExports {names : List String} (h : r.addOwnExports o names start = .ok o') :
    o.exports <+: o'.exports :=
  prefix_foldlM (fun _ _ _ hstep => prefix_addExport hstep) h

theorem prefix_importing (h : r.importing o n = .ok o') : o.exports <+: o'.exports := by
  unfold importing at h
  split at h
  · obtain rfl := Except.ok.inj h
    exact List.prefix_refl _
  · refine prefix_foldlM (o := addSource o _) (fun o₁ s o₂ hstep => ?_) h
    unfold addImport at hstep
    split at hstep
    split at hstep
    · cases hstep
    · obtain rfl := Except.ok.inj hstep
      exact List.prefix_refl _

theorem prefix_addReexport {exported : String} {reexport : Reexport} (h : r.addReexport o exported reexport = .ok o') :
    o.exports <+: o'.exports := by
  obtain ⟨_, -, h⟩ := bind_eq_ok.mp h
  obtain rfl := Except.ok.inj h
  exact List.prefix_refl _

theorem adds_splitDeclarators_go {declaration : Node} {ancestors : List Node} {removeFrom : Nat} {exported : Bool}
    {keyword : String} {ds : List Node} {o₀ : Outline} (ho : Adds n o₀ o) (hds : ∀ d ∈ ds, d ∈ n.nodes)
    (h : splitDeclarators.go r declaration ancestors removeFrom exported keyword o ds = .ok o') : Adds n o₀ o' := by
  induction ds generalizing o with
  | nil =>
    obtain rfl := Except.ok.inj h
    exact ho
  | cons d ds ih =>
    obtain ⟨hd, hds⟩ := List.forall_mem_cons.mp hds
    obtain ⟨o₁, ho₁, h⟩ : ∃ o₁, Adds n o₀ o₁ ∧ splitDeclarators.go r declaration ancestors removeFrom exported keyword
        (Reading.push o₁ (.declarator keyword (d.plainName? r.code) ((ds.head?.map (·.start)).getD declaration.stop)
          ds.isEmpty) d d.start (some (d, declaration :: ancestors))) ds = .ok o' := by
      rw [splitDeclarators.go] at h
      split at h
      · obtain ⟨o₁, hexports, h⟩ := bind_eq_ok.mp h
        have hbehind := prefix_addOwnExports hexports
        refine ⟨o₁, ⟨ho.exports.trans hbehind, fun p hp => ?_⟩, h⟩
        rw [(alike_addOwnExports hexports).pieces] at hp
        exact (ho.pieces p hp).imp_right (·.mono hbehind)
      · exact ⟨o, ho, h⟩
    refine ih (ho₁.walks hd (declaration :: ancestors) (by simp [StatementKind.IsLink]) fun _ _ hkind => ?_) hds h
    cases hkind

theorem adds_splitDeclarators {declaration : Node} {ancestors : List Node} {removeFrom : Nat} {exported : Bool}
    (hdeclaration : declaration ∈ n.nodes)
    (h : r.splitDeclarators o declaration ancestors removeFrom exported = .ok o') : Adds n o o' := by
  have hds : ∀ d ∈ declaration.declarators, d ∈ n.nodes := fun d hd =>
    Node.nodes_trans hdeclaration (Node.child_mem_nodes (Node.mem_children_of_declarators hd))
  have hstart : ∀ draft, Adds n o { o with draft } := fun draft => ⟨List.prefix_refl _, fun _ => .inl⟩
  unfold splitDeclarators at h
  dsimp only at h
  split at h
  · obtain ⟨draft, -, h⟩ := bind_eq_ok.mp h
    exact adds_splitDeclarators_go (hstart draft) hds h
  · obtain ⟨draft, -, h⟩ := bind_eq_ok.mp h
    exact adds_splitDeclarators_go (hstart draft) hds h

theorem adds_reexporting {source : String} (h : r.reexporting o n source start = .ok o') : Adds n o o' := by
  unfold reexporting at h
  extract_lets step at h
  obtain ⟨o₁, ho₁, h⟩ := bind_eq_ok.mp h
  obtain rfl := Except.ok.inj h
  have hstep : ∀ b a b', step b a = .ok b' → b.Alike b' ∧ b.exports <+: b'.exports := by
    intro b a b' h
    simp only [step] at h
    split at h
    · split at h
      · exact ⟨alike_addReexport h, prefix_addReexport h⟩
      · obtain rfl := Except.ok.inj h
        exact ⟨.refl b, List.prefix_refl _⟩
    · exact ⟨alike_foldlM (fun _ _ _ hadd => alike_addReexport hadd) h,
        prefix_foldlM (fun _ _ _ hadd => prefix_addReexport hadd) h⟩
    · obtain rfl := Except.ok.inj h
      exact ⟨.refl b, List.prefix_refl _⟩
  have halike : (addSource o source).Alike o₁ := alike_foldlM (fun b a b' hb => (hstep b a b' hb).1) ho₁
  have hbehind : o.exports <+: o₁.exports :=
    prefix_foldlM (o := addSource o source) (fun b a b' hb => (hstep b a b' hb).2) ho₁
  have hadds : ∀ starSources, Adds n o { o₁ with starSources } := fun _ => .of_alike ⟨halike.pieces, halike.draft⟩ hbehind
  exact (hadds _).push .reexport none n nofun (fun _ => nofun) nofun

theorem identifier_of_defaultForm {target : Node} (h : (r.defaultForm false target).2.isSome = true)
    (hform : (r.defaultForm false target).1 ≠ .declaration) : target.kind = "identifier" := by
  unfold defaultForm at h hform
  dsimp only at h hform
  split at h
  · next hdeclaration =>
    rw [if_pos hdeclaration] at hform
    exact absurd rfl hform
  · split at h
    · cases h
    · split at h
      · next hkind => exact eq_of_beq hkind
      · cases h

theorem adds_exportingDefault (hkind : n.kind = "export_statement") (h : r.exportingDefault o n start = .ok o') :
    Adds n o o' := by
  unfold exportingDefault at h
  dsimp only at h
  split at h
  · obtain rfl := Except.ok.inj h
    exact ⟨List.prefix_refl _, fun _ => .inl⟩
  · next target htarget =>
    obtain ⟨o₁, hexport, h⟩ := bind_eq_ok.mp h
    obtain rfl := Except.ok.inj h
    obtain ⟨hnew, hexports⟩ := exports_addExport hexport
    have hadds : Adds n o o₁ := .of_alike (alike_addExport hexport) (prefix_addExport hexport)
    refine hadds.push _ _ n (fun w hw => ?_) (fun hlink => ?_) fun declarationStart form heq => ?_
    · obtain rfl := Option.some.inj hw
      exact Node.self_mem_nodes n
    · simp [StatementKind.IsLink] at hlink
    · obtain ⟨-, rfl⟩ := StatementKind.exportDefault.inj heq
      refine ⟨_, hexports ▸ Table.get?_concat_of_not_has hnew, fun hidentifier hform => ⟨hkind, ?_⟩⟩
      cases hdeclaration : n.childAt? "declaration" with
      | some declaration =>
        rw [hdeclaration] at hform
        exact absurd rfl hform
      | none =>
        rw [hdeclaration] at htarget hform hidentifier
        refine ⟨rfl, fun _ x hx => ?_⟩
        obtain rfl := Option.some.inj (hx.symm.trans htarget)
        exact identifier_of_defaultForm hidentifier hform

theorem adds_exportingDeclaration {declaration : Node} (hdeclaration : declaration ∈ n.nodes)
    (h : r.exportingDeclaration o n declaration start = .ok o') : Adds n o o' := by
  have hpushed : ∀ o₁ names, r.addOwnExports o names n.start = .ok o₁ → ∀ (offset : Option Nat) (name : Option String),
      Adds n o (push o₁ (.exportDeclaration declaration.start offset name) n start (some (n, [r.tree.root]))) := by
    intro o₁ names hexports offset name
    have hadds : Adds n o o₁ := .of_alike (alike_addOwnExports hexports) (prefix_addOwnExports hexports)
    exact hadds.walks (Node.self_mem_nodes n) [r.tree.root] (by simp [StatementKind.IsLink]) nofun
  unfold exportingDeclaration at h
  dsimp only at h
  split at h
  · split at h
    · obtain rfl := Except.ok.inj h
      exact hpushed o [] rfl none none
    · next d _ =>
      obtain ⟨o₁, hexports, h⟩ := bind_eq_ok.mp h
      obtain rfl := Except.ok.inj h
      exact hpushed o₁ _ hexports (some d.start) (d.plainName? r.code)
    · exact adds_splitDeclarators hdeclaration h
  · obtain ⟨o₁, hexports, h⟩ := bind_eq_ok.mp h
    obtain rfl := Except.ok.inj h
    exact hpushed o₁ _ hexports none _

theorem adds_exporting (hkind : n.kind = "export_statement") (h : r.exporting o n start = .ok o') : Adds n o o' := by
  unfold exporting at h
  split at h
  · exact adds_reexporting h
  · split at h
    · exact adds_exportingDefault hkind h
    · next hdefault =>
      split at h
      · next declaration hdeclaration =>
        exact adds_exportingDeclaration (Node.child_mem_nodes (Node.mem_children_of_childAt? hdeclaration)) h
      · next hdeclaration =>
        obtain ⟨o₁, hexports, h⟩ := bind_eq_ok.mp h
        obtain rfl := Except.ok.inj h
        have hadds : Adds n o o₁ := .of_alike (alike_foldlM (fun _ _ _ hadd => alike_addExport hadd) hexports)
          (prefix_foldlM (fun _ _ _ hadd => prefix_addExport hadd) hexports)
        refine hadds.push .exportClause _ n (fun w hw => ?_)
          (fun _ _ _ => ⟨hkind, hdeclaration, fun h => absurd h hdefault⟩) nofun
        obtain rfl := Option.some.inj hw
        exact Node.self_mem_nodes n

theorem adds_statement (h : r.statement o n start = .ok o') : Adds n o o' := by
  have hadds : Adds n o o := ⟨List.prefix_refl _, fun _ => .inl⟩
  have hvariables : (if 1 < n.declarators.length then r.splitDeclarators o n [r.tree.root] n.start false
      else .ok (push o .variable n start (some (n, [r.tree.root])))) = .ok o' → Adds n o o' := by
    intro h
    split at h
    · exact adds_splitDeclarators (Node.self_mem_nodes n) h
    · obtain rfl := Except.ok.inj h
      exact hadds.walks (Node.self_mem_nodes n) [r.tree.root] (by simp [StatementKind.IsLink]) nofun
  unfold statement at h
  split at h
  · obtain ⟨o₁, himports, h⟩ := bind_eq_ok.mp h
    obtain rfl := Except.ok.inj h
    have hadds : Adds n o o₁ := .of_alike (alike_importing himports) (prefix_importing himports)
    exact hadds.push .importing none n nofun (fun _ => nofun) nofun
  · next hkind => exact adds_exporting hkind h
  · exact hvariables h
  · exact hvariables h
  · obtain rfl := Except.ok.inj h
    exact hadds.walks (Node.self_mem_nodes n) [r.tree.root] (by simp [StatementKind.IsLink]) nofun

theorem exports_outlineFrom {row comment : Option Nat} {ns : List Node} {root : Node}
    (hns : ∀ n ∈ ns, n ∈ root.children) (ho : ∀ p ∈ o.pieces, ∃ n ∈ root.children, p.Exports n o.exports)
    (h : r.outlineFrom row comment o ns = .ok o') : ∀ p ∈ o'.pieces, ∃ n ∈ root.children, p.Exports n o'.exports := by
  induction ns generalizing row comment o with
  | nil =>
    obtain rfl := Except.ok.inj h
    exact ho
  | cons n ns ih =>
    obtain ⟨hn, hns⟩ := List.forall_mem_cons.mp hns
    rw [outlineFrom] at h
    split at h
    · obtain ⟨draft, -, h⟩ := bind_eq_ok.mp h
      exact ih hns (o := { o with draft }) ho h
    · exact ih hns ho h
    · exact ih hns ho h
    · obtain ⟨o₁, hstatement, h⟩ := bind_eq_ok.mp h
      have hadds := adds_statement hstatement
      refine ih hns (fun p hp => ?_) h
      rcases hadds.pieces p hp with hold | hnew
      · obtain ⟨n', hn', hexports⟩ := ho p hold
        exact ⟨n', hn', hexports.mono hadds.exports⟩
      · exact ⟨n, hn, hnew⟩

end Reading

/-- A statement with a reference where a declaration under the node that it was read from binds a name, for each name
that it declares at its root. The reference finds the name. -/
def Piece.Declares (code : List Char) (scopes : ScopeForest) (p : Piece) (s : Statement) : Prop :=
  s.kind = p.statement.kind ∧ ∀ root ∈ s.scope, ∀ name ∈ scopes.names root, ∃ w ∈ p.walked, ∃ r ∈ s.references,
    r.Binds code w.1 ∧ r.name = name ∧ (scopes.find? r.scope name).isSome = true

namespace Module

variable {id : String} {code : List Char}

structure Follows (f f' : ScopeForest) : Prop where
  parents : f.parents <+: f'.parents
  declares : ∀ x < f.size, ∀ name, f'.declares x name = f.declares x name

theorem Follows.refl (f : ScopeForest) : Follows f f := ⟨List.prefix_refl _, fun _ _ _ => rfl⟩

theorem Follows.size_le {f f' : ScopeForest} (h : Follows f f') : f.size ≤ f'.size := by
  rw [← ScopeForest.length_parents, ← ScopeForest.length_parents]
  exact h.parents.length_le

theorem Follows.trans {f f' f'' : ScopeForest} (h : Follows f f') (h' : Follows f' f'') : Follows f f'' where
  parents := h.parents.trans h'.parents
  declares x hx name := (h'.declares x (Nat.lt_of_lt_of_le hx h.size_le) name).trans (h.declares x hx name)

theorem declares_analyse {imports : Table ImportSpecifier} {forest forest' : ScopeForest} {ps : List Piece}
    {ss : List Statement} (hbare : ∀ p ∈ ps, p.statement.scope = none)
    (hwalked : ∀ p ∈ ps, ∀ w ∈ p.walked, w.1.Declaring code)
    (h : analyse id code imports forest ps = .ok (ss, forest')) :
    Follows forest forest' ∧ List.Forall₂ (Piece.Declares code forest') ps ss := by
  induction ps generalizing forest forest' ss with
  | nil =>
    obtain ⟨rfl, rfl⟩ := Prod.mk.inj (Except.ok.inj h)
    exact ⟨.refl forest, .nil⟩
  | cons p ps ih =>
    obtain ⟨hbare, hbares⟩ := List.forall_mem_cons.mp hbare
    obtain ⟨hnode, hnodes⟩ := List.forall_mem_cons.mp hwalked
    rw [analyse] at h
    split at h
    · obtain ⟨⟨rest, forest₁⟩, hanalyse, h⟩ := bind_eq_ok.mp h
      obtain ⟨rfl, rfl⟩ := Prod.mk.inj (Except.ok.inj h)
      obtain ⟨hfollows, hrest⟩ := ih hbares hnodes hanalyse
      refine ⟨hfollows, .cons ⟨rfl, fun root hroot => ?_⟩ hrest⟩
      rw [hbare] at hroot
      cases hroot
    · next n ancestors hwalked =>
      obtain ⟨⟨a, forest₁⟩, ha, h⟩ := bind_eq_ok.mp h
      obtain ⟨⟨rest, forest₂⟩, hanalyse, h⟩ := bind_eq_ok.mp h
      obtain ⟨rfl, rfl⟩ := Prod.mk.inj (Except.ok.inj h)
      obtain ⟨hscope, hsize, hparents, hearlier, hbound⟩ :=
        Analysis.declared_names_bound (hnode (n, ancestors) hwalked) ha
      obtain ⟨hfollows, hrest⟩ := ih hbares hnodes hanalyse
      refine ⟨Follows.trans ⟨hparents, hearlier⟩ hfollows, .cons ⟨rfl, fun root hroot name hname => ?_⟩ hrest⟩
      obtain rfl := Option.some.inj hroot
      have hdeclares : forest₂.declares a.scope name = true := ScopeForest.declares_iff.mpr hname
      have hthen : forest₁.declares a.scope name = true :=
        (hfollows.declares a.scope (hscope ▸ hsize) name).symm.trans hdeclares
      obtain ⟨r, hr, hbinds, hrname, -, hfound⟩ := hbound name hthen
      exact ⟨(n, ancestors), hwalked, r, hr, hbinds, hrname, hfound forest₂ hfollows.parents hdeclares⟩

theorem chain_same (length : Nat) (ss : List Statement) :
    List.Forall₂ (fun s t => t = { s with next := t.next }) ss (Statement.chain length ss) := by
  induction ss using Statement.chain.induct with
  | case1 => exact .nil
  | case2 s => exact .cons rfl .nil
  | case3 s t rest ih => exact .cons rfl ih

/-- A binding that a statement declares at its root. -/
def Houses (scopes : ScopeForest) (index : Nat) (ss : List Statement) (b : TopBinding) : Prop :=
  b.name = b.key ∧ ∃ j s, b.statement = some (index + j) ∧ ss[j]? = some s ∧
    ∃ root ∈ s.scope, b.key ∈ scopes.names root

theorem mem_names (index : Nat) (names : List String) {found : List TopBinding}
    (hkeys : (found.map (·.key)).Nodup) :
    let bs := names.foldl (fun found name =>
      if found.any (·.key == name) then found else found ++ [⟨name, name, some index⟩]) found
    (bs.map (·.key)).Nodup ∧ ∀ b ∈ bs, b ∈ found ∨ b.key ∈ names ∧ b = ⟨b.key, b.key, some index⟩ := by
  induction names generalizing found with
  | nil => exact ⟨hkeys, fun _ => .inl⟩
  | cons name names ih =>
    rw [List.foldl_cons]
    split
    · obtain ⟨hnodup, hmem⟩ := ih hkeys
      exact ⟨hnodup, fun b hb => (hmem b hb).imp_right fun h => ⟨List.mem_cons_of_mem _ h.1, h.2⟩⟩
    · next hnew =>
      have hkeys' : ((found ++ [⟨name, name, some index⟩] : List TopBinding).map (·.key)).Nodup := by
        rw [List.map_append, List.map_singleton]
        refine List.nodup_append.mpr ⟨hkeys, List.nodup_singleton name, fun a ha b hb heq => hnew ?_⟩
        obtain rfl := List.mem_singleton.mp hb
        obtain ⟨b, hb, hkey⟩ := List.mem_map.mp ha
        exact List.any_eq_true.mpr ⟨b, hb, beq_iff_eq.mpr (hkey.trans heq)⟩
      obtain ⟨hnodup, hmem⟩ := ih hkeys'
      refine ⟨hnodup, fun b hb => ?_⟩
      rcases hmem b hb with hb | hb
      · rcases List.mem_append.mp hb with hb | hb
        · exact .inl hb
        · obtain rfl := List.mem_singleton.mp hb
          exact .inr ⟨List.mem_cons_self, rfl⟩
      · exact .inr ⟨List.mem_cons_of_mem _ hb.1, hb.2⟩

theorem houses_namesFrom (scopes : ScopeForest) (index : Nat) (ss : List Statement) (found : List TopBinding)
    (hkeys : (found.map (·.key)).Nodup) : ((namesFrom scopes found index ss).map (·.key)).Nodup ∧
      ∀ b ∈ namesFrom scopes found index ss, b ∈ found ∨ Houses scopes index ss b := by
  induction ss generalizing found index with
  | nil => exact ⟨hkeys, fun _ => .inl⟩
  | cons s ss ih =>
    obtain ⟨hkeys', hnames⟩ := mem_names index ((s.scope.map scopes.names).getD []) hkeys
    obtain ⟨hnodup, hmem⟩ := ih (index + 1) _ hkeys'
    refine ⟨hnodup, fun b hb => ?_⟩
    rcases hmem b hb with hb | ⟨hname, j, t, hstatement, ht, hroot⟩
    · refine (hnames b hb).imp_right fun ⟨hkey, heq⟩ => ?_
      rw [heq]
      cases hscope : s.scope with
      | none =>
        rw [hscope] at hkey
        cases hkey
      | some root =>
        rw [hscope] at hkey
        exact ⟨rfl, 0, s, rfl, rfl, root, hscope, hkey⟩
    · refine .inr ⟨hname, j + 1, t, hstatement.trans ?_, ht, hroot⟩
      rw [Nat.add_assoc, Nat.add_comm 1 j]

/-- Where a binding is declared: at a reference of its statement, which finds the name, where a declaration binds it. The
statement is none that only names what is elsewhere, nor a default export that only stands for a name. -/
structure DeclaredAt (root : Node) (m : Module) (b : TopBinding) (index : Nat) (s : Statement) (r : Reference) : Prop where
  place : b.statement = some index
  statement : m.statements[index]? = some s
  visible : ¬s.kind.IsLink
  shown : ∀ start form, s.kind = .exportDefault start form → form ≠ .declaration →
    (m.exports.get? "default").bind (·.identifier) = none
  reference : r ∈ s.references
  binds : r.Binds m.code root
  name : r.name = b.key
  found : (m.scopes.find? r.scope r.name).isSome = true

/-- A module whose bindings have keys of their own. Each is declared in the text of the module, but for the default
export, which has the statement of a default export if there is one. -/
structure Declared (root : Node) (m : Module) : Prop where
  keys : (m.bindings.map (·.key)).Nodup
  bound : ∀ b ∈ m.bindings, b.key ≠ "default" → ∃ index s r, DeclaredAt root m b index s r
  default : ∀ b ∈ m.bindings, b.key = "default" →
    (∀ j, b.statement = some j → ∃ s, m.statements[j]? = some s ∧ s.isDefault = true) ∧
    ∀ s ∈ m.statements, s.isDefault = true → b.statement.isSome = true

theorem declaredAt_of_houses {root : Node} {m : Module} {ps : List Piece} {ss : List Statement} {b : TopBinding}
    (hquiet : ∀ n ∈ root.children, n.ExportsNames → ∀ d ∈ n.nodes, d.binders = [])
    (hps : ∀ p ∈ ps, ∃ n ∈ root.children, p.Exports n m.exports)
    (hdeclares : List.Forall₂ (Piece.Declares m.code m.scopes) ps ss)
    (hstatements : List.Forall₂ (fun s t => t = { s with next := t.next }) ss m.statements)
    (hb : Houses m.scopes 0 ss b) : ∃ index s r, DeclaredAt root m b index s r := by
  obtain ⟨-, j, s, hplace, hs, scope, hscope, hkey⟩ := hb
  obtain ⟨p, hp, hps'⟩ := forall₂_getElem? hdeclares.flip hs
  obtain ⟨t, ht, heq⟩ := forall₂_getElem? hstatements hs
  have hkind : t.kind = p.statement.kind := (congrArg (·.kind) heq).trans hps'.1
  have hreferences : t.references = s.references := congrArg (·.references) heq
  obtain ⟨w, hw, r, hr, hbinds, hname, hfound⟩ := hps'.2 scope hscope b.key hkey
  obtain ⟨n, hn, hexports⟩ := hps p (List.mem_of_getElem? hp)
  -- a node that only exports names binds none, but this one does
  have hnot : ¬n.ExportsNames := by
    intro hnames
    obtain ⟨d, hd, x, hx, -⟩ := hbinds
    rw [hquiet n hn hnames d (Node.nodes_trans (hexports.walked w hw) hd)] at hx
    cases hx
  refine ⟨j, t, r, hplace.trans (by rw [Nat.zero_add]), ht, fun hlink => ?_, fun start form hdefault hform => ?_,
    hreferences ▸ hr, hbinds.of_node (Node.mem_nodes_of_child hn (hexports.walked w hw)), hname, hname ▸ hfound⟩
  · exact hnot (hexports.link (hkind ▸ hlink) w hw)
  · obtain ⟨e, he, hidentifier⟩ := hexports.default start form (hkind ▸ hdefault)
    rw [he, Option.bind_some]
    cases hid : e.identifier with
    | none => rfl
    | some identifier => exact absurd (hidentifier (by rw [hid]; rfl) hform) hnot

theorem declared_parse {grammar : Grammar} {source : Source} {m : Module} {tree : SyntaxTree}
    (htree : treeOf grammar id source = .ok tree) (ht : tree.Declaring source.code.toList)
    (h : parse grammar id source = .ok m) : m.Declared tree.root := by
  obtain ⟨tree', hparsed, h⟩ := bind_eq_ok.mp h
  obtain rfl := Except.ok.inj (hparsed.symm.trans htree)
  obtain ⟨draft, -, h⟩ := bind_eq_ok.mp h
  obtain ⟨outline, houtline, h⟩ := bind_eq_ok.mp h
  obtain ⟨⟨ss, scopes⟩, hanalyse, h⟩ := bind_eq_ok.mp h
  obtain hm := Except.ok.inj h
  have hpieces : ∀ p ∈ outline.pieces, ∃ n ∈ tree'.root.children, p.Exports n outline.exports :=
    Reading.exports_outlineFrom (o := { draft }) (fun n hn => (List.mem_filter.mp hn).1) (List.forall_mem_nil _) houtline
  have hbare : ∀ p ∈ outline.pieces, p.statement.scope = none := by
    intro p hp
    obtain ⟨n, -, hexports⟩ := hpieces p hp
    exact hexports.bare
  have hwalked : ∀ p ∈ outline.pieces, ∀ w ∈ p.walked, w.1.Declaring source.code.toList := by
    intro p hp w hw
    obtain ⟨n, hn, hexports⟩ := hpieces p hp
    exact ht.named w.1 (Node.mem_nodes_of_child hn (hexports.walked w hw))
  obtain ⟨-, hdeclares⟩ := declares_analyse hbare hwalked hanalyse
  obtain ⟨hkeys, hhouses⟩ := houses_namesFrom scopes 0 ss [] List.nodup_nil
  have hchain := chain_same (Text.size source.code.toList) ss
  have hbound : ∀ b ∈ namesFrom scopes [] 0 ss, ∃ index s r, DeclaredAt tree'.root m b index s r := by
    intro b hb
    have hhouse := (hhouses b hb).resolve_left List.not_mem_nil
    subst hm
    exact declaredAt_of_houses ht.exports hpieces hdeclares hchain hhouse
  have hreserved : ∀ b ∈ namesFrom scopes [] 0 ss, b.key ≠ "default" := by
    intro b hb
    obtain ⟨index, s, r, hat⟩ := hbound b hb
    obtain ⟨d, hd, x, hx, -, -, hname⟩ := hat.binds
    have hcode : m.code = source.code.toList := hm ▸ rfl
    exact fun hkey => ht.reserved d hd x hx (hcode ▸ hname.symm.trans (hat.name.trans hkey))
  have hdefault : ∀ b ∈ defaultBinding id ss outline.exports, b.key = "default" ∧
      b.statement = ss.findIdx? (·.isDefault) := by
    intro b hb
    obtain ⟨e, -, rfl⟩ := Option.map_eq_some_iff.mp (Option.mem_toList.mp hb)
    exact ⟨rfl, rfl⟩
  subst hm
  refine ⟨?_, fun b hb hkey => ?_, fun b hb hkey => ?_⟩
  · rw [List.map_append]
    refine List.nodup_append.mpr ⟨hkeys, ?_, fun a ha c hc heq => ?_⟩
    · rw [defaultBinding]
      cases outline.exports.get? "default" with
      | none => exact List.nodup_nil
      | some e => exact List.nodup_singleton _
    · obtain ⟨b, hb, rfl⟩ := List.mem_map.mp ha
      obtain ⟨b', hb', rfl⟩ := List.mem_map.mp hc
      exact hreserved b hb (heq.trans (hdefault b' hb').1)
  · rcases List.mem_append.mp hb with hb | hb
    · exact hbound b hb
    · exact absurd (hdefault b hb).1 hkey
  · rcases List.mem_append.mp hb with hb | hb
    · exact absurd hkey (hreserved b hb)
    · rw [(hdefault b hb).2]
      refine ⟨fun j hj => ?_, fun s hs hs' => ?_⟩
      · obtain ⟨hlt, hj', -⟩ := List.findIdx?_eq_some_iff_getElem.mp hj
        obtain ⟨t, ht, heq⟩ := forall₂_getElem? hchain (List.getElem?_eq_getElem hlt)
        have hkind : t.isDefault = ss[j].isDefault := by rw [heq]; rfl
        exact ⟨t, ht, hkind.trans hj'⟩
      · obtain ⟨t, ht', heq⟩ := forall₂_mem hchain hs
        rw [List.findIdx?_isSome, List.any_eq_true]
        exact ⟨t, ht', by rw [heq] at hs'; exact hs'⟩

end Module

end Treeshake
