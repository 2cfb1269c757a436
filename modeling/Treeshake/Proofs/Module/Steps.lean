import Treeshake.Proofs.Fallible
import Treeshake.Proofs.Module.Layout
import Treeshake.Proofs.Syntax.Nested
/-!
What reading a statement does to an outline. Main statement: it adds no statement, one, or one for each
declarator of a declaration, and all that it tells of are places of the nodes that it read.
-/
set_option autoImplicit false

namespace Treeshake

namespace Node

variable {n : Node}

theorem mem_children_of_declarators {d : Node} (h : d ∈ n.declarators) : d ∈ n.children :=
  (List.mem_filter.mp (List.mem_filter.mp h).1).1

theorem marks_headEnd (n : Node) : n.Marks n.headEnd := by
  rw [headEnd]
  cases hmax : ((n.children.filter fun c => c.kind == "function" || c.kind == "*").map (·.stop)).max? with
  | none => exact marks_start (self_mem_nodes n)
  | some stop =>
    obtain ⟨c, hc, rfl⟩ := List.mem_map.mp (List.max?_mem hmax)
    exact marks_stop (child_mem_nodes (List.mem_filter.mp hc).1)

def exported? (n : Node) : Option Node := (n.childAt? "declaration").or (n.childAt? "value")

theorem mem_children_of_exported? {x : Node} (h : n.exported? = some x) : x ∈ n.children := by
  rcases Option.or_eq_some_iff.mp h with h | ⟨-, h⟩ <;> exact mem_children_of_childAt? h

def Declares (n declaration : Node) : Prop :=
  (declaration.kind = "lexical_declaration" ∨ declaration.kind = "variable_declaration") ∧
    (declaration = n ∨ n.kind = "export_statement" ∧ n.exported? = some declaration)

theorem Declares.mem_nodes {declaration : Node} (h : n.Declares declaration) : declaration ∈ n.nodes := by
  rcases h.2 with rfl | ⟨-, hexported⟩
  · exact self_mem_nodes declaration
  · exact child_mem_nodes (mem_children_of_exported? hexported)

end Node

/-- A kind of statement that a node makes by itself: if it is an export of something, one of what the node exports. -/
def StatementKind.Frames (n : Node) : StatementKind → Prop
  | .declarator .. => False
  | .exportDeclaration declarationStart declaratorStart _ => n.kind = "export_statement" ∧ ∃ x ∈ n.exported?,
    declarationStart = x.start ∧ ∀ k ∈ declaratorStart, ∃ d ∈ x.declarators.head?, k = d.start
  | .exportDefault declarationStart form => n.kind = "export_statement" ∧ ∃ x ∈ n.exported?,
    declarationStart = x.start ∧ ∀ k, form = .anonymousFunction k → x.isFunctionExpression = true ∧ k = x.headEnd
  | .variable | .other => n.kind ≠ "export_statement"
  | _ => True

def StatementKind.IsLink (kind : StatementKind) : Prop :=
  kind = .importing ∨ kind = .exportClause ∨ kind = .reexport

structure Outline.Alike (o o' : Outline) : Prop where
  pieces : o'.pieces = o.pieces
  draft : o'.draft = o.draft

theorem Outline.Alike.refl (o : Outline) : o.Alike o := ⟨rfl, rfl⟩

theorem Outline.Alike.trans {a b c : Outline} (hab : a.Alike b) (hbc : b.Alike c) : a.Alike c :=
  ⟨hbc.pieces.trans hab.pieces, hbc.draft.trans hab.draft⟩

namespace Reading

variable {r : Reading} {o o' : Outline} {n : Node} {start : Nat}

theorem alike_foldlM {α : Type} {f : Outline → α → Except Error Outline}
    (hf : ∀ o a o', f o a = .ok o' → o.Alike o') {l : List α} (h : l.foldlM f o = .ok o') : o.Alike o' :=
  foldlM_keeps (P := o.Alike) (fun _ _ _ ho hstep => ho.trans (hf _ _ _ hstep)) (.refl o) h

theorem alike_addImport {source : String} {s : String × String × Nat} (h : r.addImport source o s = .ok o') :
    o.Alike o' := by
  unfold addImport at h
  split at h
  · split at h
    · cases h
    · obtain rfl := Except.ok.inj h
      exact ⟨rfl, rfl⟩

theorem alike_addExport {exported : String} {specifier : ExportSpecifier}
    (h : r.addExport o exported specifier = .ok o') : o.Alike o' := by
  obtain ⟨_, -, h⟩ := bind_eq_ok.mp h
  obtain rfl := Except.ok.inj h
  exact ⟨rfl, rfl⟩

theorem alike_addReexport {exported : String} {reexport : Reexport}
    (h : r.addReexport o exported reexport = .ok o') : o.Alike o' := by
  obtain ⟨_, -, h⟩ := bind_eq_ok.mp h
  obtain rfl := Except.ok.inj h
  exact ⟨rfl, rfl⟩

theorem alike_addOwnExports {names : List String} (h : r.addOwnExports o names start = .ok o') : o.Alike o' :=
  alike_foldlM (fun _ _ _ hstep => alike_addExport hstep) h

theorem alike_importing (h : r.importing o n = .ok o') : o.Alike o' := by
  unfold importing at h
  split at h
  · obtain rfl := Except.ok.inj h
    exact .refl o
  · rename_i source hsource
    have hadded : o.Alike (addSource o source) := ⟨rfl, rfl⟩
    exact hadded.trans (alike_foldlM (fun _ _ _ hstep => alike_addImport hstep) h)

def declaratorPieces (code : List Char) (keyword : String) (ancestors : List Node) (stop : Nat) :
    List Node → List Piece
  | [] => []
  | d :: ds =>
    piece (.declarator keyword (d.plainName? code) ((ds.head?.map (·.start)).getD stop) ds.isEmpty) d d.start
      (some (d, ancestors)) :: declaratorPieces code keyword ancestors stop ds

/-- What reading the node of a statement makes of an outline. -/
inductive Step (r : Reading) (n : Node) (start : Nat) (o : Outline) : Outline → Prop where
  | nothing : Step r n start o o
  | one {o' : Outline} (kind : StatementKind) (walked : Option (Node × List Node)) (halike : o.Alike o')
      (hoffsets : ∀ offset ∈ kind.offsets, n.Marks offset) (hwalked : ∀ w ∈ walked, w.1 = n) (hframes : kind.Frames n)
      (hread : walked.isSome = true ∨ kind.IsLink) : Step r n start o (push o' kind n start walked)
  | split {o' : Outline} (declaration : Node) (keyword : String) (ancestors : List Node)
      (hdeclaration : n.Declares declaration)
      (hdraft : o'.draft = o.draft ∨ ∃ d ∈ declaration.declarators.head?, o.draft.remove n.start d.start = .ok o'.draft)
      (hpieces : o'.pieces =
        o.pieces ++ declaratorPieces r.code keyword ancestors declaration.stop declaration.declarators) :
      Step r n start o o'

theorem splitDeclarators_go_eq_ok {declaration : Node} {ancestors : List Node} {removeFrom : Nat} {exported : Bool}
    {keyword : String} {ds : List Node}
    (h : splitDeclarators.go r declaration ancestors removeFrom exported keyword o ds = .ok o') :
    o'.draft = o.draft ∧
      o'.pieces = o.pieces ++ declaratorPieces r.code keyword (declaration :: ancestors) declaration.stop ds := by
  induction ds generalizing o with
  | nil =>
    obtain rfl := Except.ok.inj h
    exact ⟨rfl, (List.append_nil _).symm⟩
  | cons d ds ih =>
    obtain ⟨o₁, halike, h⟩ : ∃ o₁, o.Alike o₁ ∧ splitDeclarators.go r declaration ancestors removeFrom exported keyword
        (push o₁ (.declarator keyword (d.plainName? r.code) ((ds.head?.map (·.start)).getD declaration.stop) ds.isEmpty)
          d d.start (some (d, declaration :: ancestors))) ds = .ok o' := by
      rw [splitDeclarators.go] at h
      split at h
      · obtain ⟨o₁, hexports, h⟩ := bind_eq_ok.mp h
        exact ⟨o₁, alike_addOwnExports hexports, h⟩
      · exact ⟨o, .refl o, h⟩
    obtain ⟨hdraft, hpieces⟩ := ih h
    refine ⟨hdraft.trans halike.draft, hpieces.trans ?_⟩
    rw [push, halike.pieces, List.append_assoc]
    rfl

theorem step_splitDeclarators {declaration : Node} {ancestors : List Node} {exported : Bool}
    (hdeclaration : n.Declares declaration)
    (h : r.splitDeclarators o declaration ancestors n.start exported = .ok o') : r.Step n start o o' := by
  unfold splitDeclarators at h
  dsimp only at h
  split at h
  · rename_i d _ hdeclarators
    obtain ⟨draft, hremove, h⟩ := bind_eq_ok.mp h
    obtain ⟨hdraft, hpieces⟩ := splitDeclarators_go_eq_ok h
    refine .split declaration _ _ hdeclaration (.inr ⟨d, ?_, ?_⟩) hpieces
    · rw [hdeclarators]
      rfl
    rw [hdraft]
    exact mapError_eq_ok.mp hremove
  · obtain ⟨draft, hkept, h⟩ := bind_eq_ok.mp h
    obtain rfl := Except.ok.inj hkept
    obtain ⟨hdraft, hpieces⟩ := splitDeclarators_go_eq_ok h
    exact .split declaration _ _ hdeclaration (.inl hdraft) hpieces

theorem step_reexporting {source : String} (h : r.reexporting o n source start = .ok o') : r.Step n start o o' := by
  unfold reexporting at h
  extract_lets step at h
  obtain ⟨o₁, ho₁, h⟩ := bind_eq_ok.mp h
  obtain rfl := Except.ok.inj h
  have hstep : ∀ b a b', step b a = .ok b' → b.Alike b' := by
    intro b a b' h
    simp only [step] at h
    split at h
    · split at h
      · exact alike_addReexport h
      · obtain rfl := Except.ok.inj h
        exact .refl b
    · exact alike_foldlM (fun _ _ _ hadd => alike_addReexport hadd) h
    · obtain rfl := Except.ok.inj h
      exact .refl b
  have hadded := alike_foldlM hstep ho₁
  have halike : ∀ starSources, o.Alike { o₁ with starSources } := fun _ => ⟨hadded.pieces, hadded.draft⟩
  exact .one .reexport none (halike _) (List.forall_mem_nil _) nofun trivial (.inr (.inr (.inr rfl)))

theorem marks_defaultForm (isDeclaration : Bool) {target : Node} (htarget : target ∈ n.children) :
    ∀ offset ∈ (StatementKind.exportDefault target.start (r.defaultForm isDeclaration target).1).offsets,
      n.Marks offset := by
  have hstart : n.Marks target.start := Node.marks_start (Node.child_mem_nodes htarget)
  unfold defaultForm
  dsimp only
  split
  · exact List.forall_mem_singleton.mpr hstart
  · split
    · exact List.forall_mem_cons.mpr
        ⟨hstart, List.forall_mem_singleton.mpr (.of_node (Node.child_mem_nodes htarget) (Node.marks_headEnd target))⟩
    · split <;> exact List.forall_mem_singleton.mpr hstart

theorem frames_defaultForm (isDeclaration : Bool) {target : Node} (hkind : n.kind = "export_statement")
    (htarget : n.exported? = some target) :
    (StatementKind.exportDefault target.start (r.defaultForm isDeclaration target).1).Frames n := by
  refine ⟨hkind, target, htarget, rfl, fun k hform => ?_⟩
  unfold defaultForm at hform
  dsimp only at hform
  split at hform
  · cases hform
  · split at hform
    · next hfunction =>
      cases hform
      exact ⟨hfunction, rfl⟩
    · split at hform <;> cases hform

theorem step_exportingDefault (hkind : n.kind = "export_statement") (h : r.exportingDefault o n start = .ok o') :
    r.Step n start o o' := by
  unfold exportingDefault at h
  dsimp only at h
  split at h
  · obtain rfl := Except.ok.inj h
    exact .nothing
  · rename_i target htarget
    obtain ⟨o₁, hexport, h⟩ := bind_eq_ok.mp h
    obtain rfl := Except.ok.inj h
    exact .one _ _ (alike_addExport hexport) (marks_defaultForm _ (Node.mem_children_of_exported? htarget))
      (fun w hw => by cases hw; rfl) (frames_defaultForm _ hkind htarget) (.inl rfl)

theorem step_exportingDeclaration {declaration : Node} (hkind : n.kind = "export_statement")
    (hdeclaration : n.exported? = some declaration) (h : r.exportingDeclaration o n declaration start = .ok o') :
    r.Step n start o o' := by
  have hchild : declaration ∈ n.nodes := Node.child_mem_nodes (Node.mem_children_of_exported? hdeclaration)
  have hpushed : ∀ o₁, o.Alike o₁ → ∀ (offset : Option Nat) (name : Option String),
      (∀ k ∈ offset, ∃ d ∈ declaration.declarators.head?, k = d.start) → r.Step n start o
        (push o₁ (.exportDeclaration declaration.start offset name) n start (some (n, [r.tree.root]))) := by
    intro o₁ halike offset name hoffset
    refine .one _ _ halike (List.forall_mem_cons.mpr ⟨Node.marks_start hchild, fun k hk => ?_⟩) ?_
      ⟨hkind, declaration, hdeclaration, rfl, hoffset⟩ (.inl rfl)
    · obtain ⟨d, hd, rfl⟩ := hoffset k (Option.mem_toList.mp hk)
      have hd' := Node.mem_children_of_declarators (List.mem_of_mem_head? hd)
      exact .of_node hchild (Node.marks_start (Node.child_mem_nodes hd'))
    · intro w hw
      cases hw
      rfl
  unfold exportingDeclaration at h
  dsimp only at h
  split at h
  · next hvariables =>
    rw [Bool.or_eq_true, beq_iff_eq, beq_iff_eq] at hvariables
    split at h
    · obtain rfl := Except.ok.inj h
      exact hpushed o (.refl o) none none nofun
    · next d hd =>
      obtain ⟨o₁, hexports, h⟩ := bind_eq_ok.mp h
      obtain rfl := Except.ok.inj h
      refine hpushed o₁ (alike_addOwnExports hexports) (some d.start) _ fun k hk => ⟨d, ?_, (Option.some.inj hk).symm⟩
      rw [hd]
      rfl
    · exact step_splitDeclarators ⟨hvariables, .inr ⟨hkind, hdeclaration⟩⟩ h
  · obtain ⟨o₁, hexports, h⟩ := bind_eq_ok.mp h
    obtain rfl := Except.ok.inj h
    exact hpushed o₁ (alike_addOwnExports hexports) none _ nofun

theorem step_exporting (hkind : n.kind = "export_statement") (h : r.exporting o n start = .ok o') :
    r.Step n start o o' := by
  unfold exporting at h
  split at h
  · exact step_reexporting h
  · split at h
    · exact step_exportingDefault hkind h
    · split at h
      · next declaration hdeclaration =>
        refine step_exportingDeclaration hkind ?_ h
        rw [Node.exported?, hdeclaration, Option.some_or]
      · obtain ⟨o₁, hexports, h⟩ := bind_eq_ok.mp h
        obtain rfl := Except.ok.inj h
        refine .one _ _ (alike_foldlM (fun _ _ _ hadd => alike_addExport hadd) hexports) (List.forall_mem_nil _) ?_
          trivial (.inl rfl)
        intro w hw
        cases hw
        rfl

theorem step_statement (h : r.statement o n start = .ok o') : r.Step n start o o' := by
  have hpushed : ∀ kind : StatementKind, kind.offsets = [] → kind.Frames n →
      r.Step n start o (push o kind n start (some (n, [r.tree.root]))) := by
    intro kind hkind hframes
    refine .one _ _ (.refl o) (hkind ▸ List.forall_mem_nil _) ?_ hframes (.inl rfl)
    intro w hw
    cases hw
    rfl
  have hvariable : ∀ {kind : String}, n.kind = kind → kind ≠ "export_statement" →
      StatementKind.Frames n .variable := fun hkind hne hexport => hne (hkind.symm.trans hexport)
  unfold statement at h
  split at h
  · obtain ⟨o₁, himports, h⟩ := bind_eq_ok.mp h
    obtain rfl := Except.ok.inj h
    exact .one _ _ (alike_importing himports) (List.forall_mem_nil _) nofun trivial (.inr (.inl rfl))
  · next hkind => exact step_exporting hkind h
  · next hkind =>
    split at h
    · exact step_splitDeclarators ⟨.inl hkind, .inl rfl⟩ h
    · obtain rfl := Except.ok.inj h
      exact hpushed .variable rfl (hvariable hkind (by decide))
  · next hkind =>
    split at h
    · exact step_splitDeclarators ⟨.inr hkind, .inl rfl⟩ h
    · obtain rfl := Except.ok.inj h
      exact hpushed .variable rfl (hvariable hkind (by decide))
  · next hexport _ _ =>
    obtain rfl := Except.ok.inj h
    exact hpushed .other rfl hexport

theorem forall_pieces_outlineFrom {P : Piece → Prop} {row comment : Option Nat} {ns : List Node}
    (hstep : ∀ n ∈ ns, ∀ (o o' : Outline) (start : Nat), (∀ p ∈ o.pieces, P p) → r.Step n start o o' →
      ∀ p ∈ o'.pieces, P p)
    (ho : ∀ p ∈ o.pieces, P p) (h : r.outlineFrom row comment o ns = .ok o') : ∀ p ∈ o'.pieces, P p := by
  induction ns generalizing row comment o with
  | nil =>
    obtain rfl := Except.ok.inj h
    exact ho
  | cons n ns ih =>
    obtain ⟨hn, hstep⟩ := List.forall_mem_cons.mp hstep
    rw [outlineFrom] at h
    split at h
    · obtain ⟨draft, -, h⟩ := bind_eq_ok.mp h
      exact ih hstep (o := { o with draft }) ho h
    · exact ih hstep ho h
    · exact ih hstep ho h
    · obtain ⟨o₁, hstatement, h⟩ := bind_eq_ok.mp h
      exact ih hstep (hn o o₁ _ ho (step_statement hstatement)) h

end Reading

end Treeshake
