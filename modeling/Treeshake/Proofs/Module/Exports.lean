import Treeshake.Module.Basic
import Treeshake.Proofs.Fallible
import Treeshake.Proofs.Table
/-!
The names that a module exports itself. Main statement: in a module that was parsed no name is exported twice, neither
as the name of a binding nor as that of what another module exports.
-/
set_option autoImplicit false

namespace Treeshake

def Outline.exported (o : Outline) : List String := o.exports.keys ++ o.reexports.keys

namespace Reading

variable {r : Reading} {o o' : Outline} {n : Node} {start : Nat} {exported : String}

theorem not_exported_of_checkExport (h : r.checkExport o exported start = .ok ()) : exported ∉ o.exported := by
  unfold checkExport at h
  split at h
  · cases h
  · next hnew =>
    rw [Bool.or_eq_true, ← Table.mem_keys_iff_has, ← Table.mem_keys_iff_has, ← List.mem_append] at hnew
    exact hnew

theorem nodup_addExport {specifier : ExportSpecifier} (ho : o.exported.Nodup)
    (h : r.addExport o exported specifier = .ok o') : o'.exported.Nodup := by
  obtain ⟨_, hcheck, h⟩ := bind_eq_ok.mp h
  obtain rfl := Except.ok.inj h
  have hnew := not_exported_of_checkExport hcheck
  have hkeys : o.exports.keys ++ [exported] ++ o.reexports.keys |>.Nodup := by
    rw [List.append_assoc, List.singleton_append, List.nodup_middle]
    exact List.nodup_cons.mpr ⟨hnew, ho⟩
  simpa [Outline.exported, Table.keys] using hkeys

theorem nodup_addReexport {reexport : Reexport} (ho : o.exported.Nodup)
    (h : r.addReexport o exported reexport = .ok o') : o'.exported.Nodup := by
  obtain ⟨_, hcheck, h⟩ := bind_eq_ok.mp h
  obtain rfl := Except.ok.inj h
  have hnew := not_exported_of_checkExport hcheck
  have hkeys : (o.exported ++ [exported]).Nodup :=
    List.nodup_append_comm.mp (List.nodup_cons.mpr ⟨hnew, ho⟩)
  simpa [Outline.exported, Table.keys] using hkeys

theorem nodup_addOwnExports {names : List String} (ho : o.exported.Nodup)
    (h : r.addOwnExports o names start = .ok o') : o'.exported.Nodup :=
  foldlM_keeps (P := fun o : Outline => o.exported.Nodup) (fun _ _ _ ho hstep => nodup_addExport ho hstep) ho h

theorem exported_importing (h : r.importing o n = .ok o') : o'.exported = o.exported := by
  unfold importing at h
  split at h
  · obtain rfl := Except.ok.inj h
    rfl
  · rename_i source _
    refine foldlM_keeps (P := fun o₁ : Outline => o₁.exported = o.exported) (fun o₁ s o₂ ho₁ hstep => ?_)
      (b := addSource o source) rfl h
    unfold addImport at hstep
    split at hstep
    split at hstep
    · cases hstep
    · obtain rfl := Except.ok.inj hstep
      exact ho₁

theorem nodup_splitDeclarators_go {declaration : Node} {ancestors : List Node} {removeFrom : Nat} {isExported : Bool}
    {keyword : String} {ds : List Node} (ho : o.exported.Nodup)
    (h : splitDeclarators.go r declaration ancestors removeFrom isExported keyword o ds = .ok o') :
    o'.exported.Nodup := by
  induction ds generalizing o with
  | nil =>
    obtain rfl := Except.ok.inj h
    exact ho
  | cons d ds ih =>
    obtain ⟨o₁, ho₁, h⟩ : ∃ o₁ : Outline, o₁.exported.Nodup ∧
        splitDeclarators.go r declaration ancestors removeFrom isExported keyword
          (push o₁ (.declarator keyword (d.plainName? r.code) ((ds.head?.map (·.start)).getD declaration.stop)
            ds.isEmpty) d d.start (some (d, declaration :: ancestors))) ds = .ok o' := by
      rw [splitDeclarators.go] at h
      split at h
      · obtain ⟨o₁, hexports, h⟩ := bind_eq_ok.mp h
        exact ⟨o₁, nodup_addOwnExports ho hexports, h⟩
      · exact ⟨o, ho, h⟩
    exact ih (o := push o₁ _ d d.start _) ho₁ h

theorem nodup_splitDeclarators {declaration : Node} {ancestors : List Node} {removeFrom : Nat} {isExported : Bool}
    (ho : o.exported.Nodup) (h : r.splitDeclarators o declaration ancestors removeFrom isExported = .ok o') :
    o'.exported.Nodup := by
  unfold splitDeclarators at h
  dsimp only at h
  split at h
  · obtain ⟨draft, -, h⟩ := bind_eq_ok.mp h
    exact nodup_splitDeclarators_go (o := { o with draft }) ho h
  · obtain ⟨draft, -, h⟩ := bind_eq_ok.mp h
    exact nodup_splitDeclarators_go (o := { o with draft }) ho h

theorem nodup_reexporting {source : String} (ho : o.exported.Nodup)
    (h : r.reexporting o n source start = .ok o') : o'.exported.Nodup := by
  unfold reexporting at h
  extract_lets step at h
  obtain ⟨o₁, hsteps, h⟩ := bind_eq_ok.mp h
  obtain rfl := Except.ok.inj h
  suffices hkept : o₁.exported.Nodup from hkept
  refine foldlM_keeps (P := fun o : Outline => o.exported.Nodup) (fun b child b' hb hstep => ?_)
    (b := addSource o source) ho hsteps
  simp only [step] at hstep
  split at hstep
  · split at hstep
    · exact nodup_addReexport hb hstep
    · obtain rfl := Except.ok.inj hstep
      exact hb
  · exact foldlM_keeps (P := fun o : Outline => o.exported.Nodup)
      (fun _ _ _ ho hadd => nodup_addReexport ho hadd) hb hstep
  · obtain rfl := Except.ok.inj hstep
    exact hb

theorem nodup_exportingDefault (ho : o.exported.Nodup) (h : r.exportingDefault o n start = .ok o') :
    o'.exported.Nodup := by
  unfold exportingDefault at h
  dsimp only at h
  split at h
  · obtain rfl := Except.ok.inj h
    exact ho
  · obtain ⟨o₁, hexport, h⟩ := bind_eq_ok.mp h
    obtain rfl := Except.ok.inj h
    have hkept : o₁.exported.Nodup := nodup_addExport ho hexport
    exact hkept

theorem nodup_exportingDeclaration {declaration : Node} (ho : o.exported.Nodup)
    (h : r.exportingDeclaration o n declaration start = .ok o') : o'.exported.Nodup := by
  unfold exportingDeclaration at h
  dsimp only at h
  split at h
  · split at h
    · obtain rfl := Except.ok.inj h
      exact ho
    · obtain ⟨o₁, hexports, h⟩ := bind_eq_ok.mp h
      obtain rfl := Except.ok.inj h
      have hkept : o₁.exported.Nodup := nodup_addOwnExports ho hexports
      exact hkept
    · exact nodup_splitDeclarators ho h
  · obtain ⟨o₁, hexports, h⟩ := bind_eq_ok.mp h
    obtain rfl := Except.ok.inj h
    have hkept : o₁.exported.Nodup := nodup_addOwnExports ho hexports
    exact hkept

theorem nodup_exporting (ho : o.exported.Nodup) (h : r.exporting o n start = .ok o') : o'.exported.Nodup := by
  unfold exporting at h
  split at h
  · exact nodup_reexporting ho h
  · split at h
    · exact nodup_exportingDefault ho h
    · split at h
      · exact nodup_exportingDeclaration ho h
      · obtain ⟨o₁, hexports, h⟩ := bind_eq_ok.mp h
        obtain rfl := Except.ok.inj h
        have hkept : o₁.exported.Nodup := foldlM_keeps (P := fun o : Outline => o.exported.Nodup)
          (fun _ _ _ ho hadd => nodup_addExport ho hadd) ho hexports
        exact hkept

theorem nodup_statement (ho : o.exported.Nodup) (h : r.statement o n start = .ok o') : o'.exported.Nodup := by
  have hsplit : ∀ kind : StatementKind, (if 1 < n.declarators.length then
      r.splitDeclarators o n [r.tree.root] n.start false
      else .ok (push o kind n start (some (n, [r.tree.root])))) = .ok o' → o'.exported.Nodup := by
    intro kind h
    split at h
    · exact nodup_splitDeclarators ho h
    · obtain rfl := Except.ok.inj h
      exact ho
  unfold statement at h
  split at h
  · obtain ⟨o₁, himports, h⟩ := bind_eq_ok.mp h
    obtain rfl := Except.ok.inj h
    rw [← exported_importing himports] at ho
    exact ho
  · exact nodup_exporting ho h
  · exact hsplit _ h
  · exact hsplit _ h
  · obtain rfl := Except.ok.inj h
    exact ho

theorem nodup_outlineFrom {row comment : Option Nat} {ns : List Node} (ho : o.exported.Nodup)
    (h : r.outlineFrom row comment o ns = .ok o') : o'.exported.Nodup := by
  induction ns generalizing row comment o with
  | nil =>
    obtain rfl := Except.ok.inj h
    exact ho
  | cons n ns ih =>
    rw [outlineFrom] at h
    split at h
    · obtain ⟨draft, -, h⟩ := bind_eq_ok.mp h
      exact ih (o := { o with draft }) ho h
    · exact ih ho h
    · exact ih ho h
    · obtain ⟨o₁, hstatement, h⟩ := bind_eq_ok.mp h
      exact ih (nodup_statement ho hstatement) h

end Reading

def Module.exported (m : Module) : List String := m.exports.keys ++ m.reexports.keys

/-- No name is exported twice by a module that was parsed. -/
theorem Module.nodup_exported {grammar : Grammar} {id : String} {source : Source} {m : Module}
    (h : parse grammar id source = .ok m) : m.exported.Nodup := by
  obtain ⟨tree, -, h⟩ := bind_eq_ok.mp h
  obtain ⟨draft, -, h⟩ := bind_eq_ok.mp h
  obtain ⟨outline, houtline, h⟩ := bind_eq_ok.mp h
  obtain ⟨⟨statements, scopes⟩, -, h⟩ := bind_eq_ok.mp h
  obtain rfl := Except.ok.inj h
  have hkept : outline.exported.Nodup := Reading.nodup_outlineFrom (o := { draft }) List.nodup_nil houtline
  exact hkept

end Treeshake
