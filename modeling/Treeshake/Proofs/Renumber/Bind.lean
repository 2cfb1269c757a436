import Treeshake.Graph.Bind
import Treeshake.Proofs.Graph.Trace
import Treeshake.Proofs.Renumber.Graph
/-!
Tracing and binding do not depend on the numbers of declarations. Main statement: binding graphs that
differ in numbers only fails for both alike, or counts the same and leads to such graphs again.
-/
set_option autoImplicit false

namespace Treeshake.Graph

variable {π : Equiv.Perm Nat} {g h : Graph}

theorem Renumbers.nameExport (R : Renumbers π g h) (external : Nat) (name : String) :
    Renumbers π (g.nameExport external name) (h.nameExport external name) := by
  unfold Graph.nameExport
  split
  · exact R.modifyExternal external fun _ => rfl
  · exact R

theorem Renumbers.externalId? (R : Renumbers π g h) (external : Nat) (name : String) :
    h.externalId? external name = (g.externalId? external name).map π := by
  rw [Graph.externalId?, Graph.externalId?, R.external?]
  cases g.externals[external]? with
  | none => rfl
  | some e => exact Table.get?_renumber name e.declarations

theorem Renumbers.declareExternal (R : Renumbers π g h) (external : Nat) (name : String) :
    Renumbers π (g.declareExternal external name) (h.declareExternal external name) := by
  refine (R.push { name, kind := .external external name }).modifyExternal external fun e => ?_
  simp [External.renumber, R.length, R.beyond _ (Nat.le_refl _)]

theorem respects_externalDeclaration (external : Nat) (name : String) :
    Respects π π (externalDeclaration external name) (externalDeclaration external name) := by
  intro g h R
  have R' := R.nameExport external name
  rw [externalDeclaration_eq, externalDeclaration_eq, R'.externalId?]
  cases (g.nameExport external name).externalId? external name with
  | some id => exact ⟨rfl, R'⟩
  | none => exact ⟨R.length.trans (R.beyond _ (Nat.le_refl _)).symm, R'.declareExternal external name⟩

theorem Renumbers.collectExports (R : Renumbers π g h) (fuel module : Nat) (withDefault : Bool)
    (found : List Nat × List String) :
    h.collectExports fuel module withDefault found = g.collectExports fuel module withDefault found := by
  induction fuel generalizing module withDefault found with
  | zero => rfl
  | succ fuel ih =>
    obtain ⟨visited, names⟩ := found
    simp only [Graph.collectExports, R.module?, ih]
    cases g.modules[module]? <;> rfl

theorem Renumbers.exportNames (R : Renumbers π g h) (module : Nat) :
    h.exportNames module = g.exportNames module := by
  rw [Graph.exportNames, Graph.exportNames, R.collectExports, R.modules, List.length_map]

theorem Renumbers.traceBound (R : Renumbers π g h) : h.traceBound = g.traceBound := by
  rw [Graph.traceBound, Graph.traceBound, R.modules, List.flatMap_map, List.length_map]
  rfl

def renumberFound (π : Equiv.Perm Nat) (found : Option Nat × List Nat) : Option Nat × List Nat :=
  (found.1.map π, found.2)

theorem respects_seek {search search' : Nat → List Nat → Build (Option Nat × List Nat)}
    (hs : ∀ module visited, Respects π (renumberFound π) (search module visited) (search' module visited))
    (targets : List Target) (visited : List Nat) :
    Respects π (renumberFound π) (seek search targets visited) (seek search' targets visited) := by
  induction targets generalizing visited with
  | nil => exact .pure rfl
  | cons target targets ih =>
    cases target with
    | outside external => exact ih visited
    | inside module =>
      refine (hs module visited).bind fun ⟨found, visited⟩ => ?_
      cases found with
      | none => exact ih visited
      | some id => exact .pure rfl

structure RespectsWithin (π : Equiv.Perm Nat) (fuel : Nat) : Prop where
  trace : ∀ module name,
    Respects π (Option.map π) (traceWithin fuel module name) (traceWithin fuel module name)
  follow : ∀ target name importer,
    Respects π π (followWithin fuel target name importer) (followWithin fuel target name importer)
  «export» : ∀ module name importer,
    Respects π π (exportWithin fuel module name importer) (exportWithin fuel module name importer)
  find : ∀ module name visited, Respects π (renumberFound π)
    (findExportWithin fuel module name visited) (findExportWithin fuel module name visited)
  object : ∀ module, Respects π π (objectWithin fuel module) (objectWithin fuel module)

theorem respects_endless {α α' : Type} {φ : α → α'} (name : String) (module : Nat) :
    Respects π φ (do throw (.endlessExport name ((← get).moduleId module)))
      (do throw (.endlessExport name ((← get).moduleId module))) :=
  .get_bind fun g h R => by
    rw [R.moduleId]
    exact .throw _

theorem respectsWithin_zero : RespectsWithin π 0 where
  trace module name := by
    rw [traceWithin]
    exact respects_endless name module
  follow target name importer := by
    rw [followWithin]
    exact respects_endless name importer
  «export» module name importer := by
    rw [exportWithin]
    exact respects_endless name module
  find module name visited := by
    rw [findExportWithin]
    exact respects_endless name module
  object module := by
    rw [objectWithin]
    exact respects_endless "*" module

section
variable {fuel : Nat} (ih : RespectsWithin π fuel)
include ih

theorem respects_traceWithin (module : Nat) (name : String) :
    Respects π (Option.map π) (traceWithin (fuel + 1) module name) (traceWithin (fuel + 1) module name) := by
  rw [traceWithin]
  refine .get_bind fun g h R => ?_
  rw [R.module?]
  cases g.modules[module]? with
  | none => exact .pure rfl
  | some m =>
    simp only [Option.map_some, LinkedModule.renumber, Table.get?_renumber]
    cases m.declarations.get? name with
    | some id => exact .pure rfl
    | none =>
      cases m.imports.get? name with
      | none => exact .pure rfl
      | some i =>
        dsimp only [Option.map_none]
        cases m.targets.get? i.source with
        | none => exact .pure rfl
        | some target => exact (ih.follow target i.name module).bind fun id => .pure rfl

theorem respects_followWithin (target : Target) (name : String) (importer : Nat) :
    Respects π π (followWithin (fuel + 1) target name importer) (followWithin (fuel + 1) target name importer) := by
  cases target with
  | outside external =>
    rw [followWithin]
    exact respects_externalDeclaration external name
  | inside module =>
    rw [followWithin]
    split
    · exact ih.object module
    · exact ih.export module name importer

theorem respects_exportWithin (module : Nat) (name : String) (importer : Nat) :
    Respects π π (exportWithin (fuel + 1) module name importer) (exportWithin (fuel + 1) module name importer) := by
  rw [exportWithin]
  refine (ih.find module name []).bind fun result => ?_
  obtain ⟨found, visited⟩ := result
  cases found with
  | some id => exact .pure rfl
  | none =>
    refine .get_bind fun g h R => ?_
    rw [R.moduleId, R.moduleId]
    exact .throw _

theorem respects_findExportWithin (module : Nat) (name : String) (visited : List Nat) :
    Respects π (renumberFound π) (findExportWithin (fuel + 1) module name visited)
      (findExportWithin (fuel + 1) module name visited) := by
  rw [findExportWithin]
  split
  · exact .pure rfl
  · refine .get_bind fun g h R => ?_
    rw [R.module?]
    cases g.modules[module]? with
    | none => exact .pure rfl
    | some m =>
      dsimp only [Option.map_some, LinkedModule.renumber]
      cases m.reexports.get? name with
      | some r =>
        dsimp only
        cases m.targets.get? r.source with
        | none => exact .pure rfl
        | some target => exact (ih.follow target r.localName module).bind fun id => .pure rfl
      | none =>
        cases m.exports.get? name with
        | some e => exact (ih.trace module e.localName).bind fun id => .pure rfl
        | none =>
          dsimp only
          split
          · exact .pure rfl
          · refine (respects_seek (fun other visited => ih.find other name visited) _ _).bind
              fun result => ?_
            obtain ⟨found, visited⟩ := result
            cases found with
            | some id => exact .pure rfl
            | none =>
              dsimp only [renumberFound, Option.map_none]
              cases firstOutside? m.stars with
              | none => exact .pure rfl
              | some external =>
                exact (respects_externalDeclaration external name).bind fun id => .pure rfl

theorem respects_objectWithin (module : Nat) :
    Respects π π (objectWithin (fuel + 1) module) (objectWithin (fuel + 1) module) := by
  rw [objectWithin]
  refine .get_bind fun g h R => ?_
  rw [R.module?]
  cases g.modules[module]? with
  | none =>
    dsimp only [Option.map_none]
    rw [R.moduleId]
    exact .throw _
  | some m =>
    dsimp only [Option.map_some, LinkedModule.renumber]
    cases m.object with
    | some id => exact .pure rfl
    | none =>
      have hid := R.beyond _ (Nat.le_refl _)
      dsimp only [Option.map_none]
      rw [R.exportNames, R.length]
      refine .bind (.set ((R.push _).modifyModule module fun m => ?_)) fun _ => ?_
      · simp [LinkedModule.renumber, hid]
      · refine .bind (.mapM (ψ := fun e => (e.1, π e.2)) (fun name => ?_) _) fun members => ?_
        · exact (ih.export module name module).bind fun id => .pure rfl
        · refine .bind (.modify fun g' h' R' => ?_) fun _ => .pure hid.symm
          have hstep := R'.modifyDeclaration g.declarations.length
            (F := fun d => { d with kind := .object module members false })
            (E := fun d => { d with kind := .object module (Table.renumber π members) false })
            fun _ => rfl
          rwa [hid] at hstep

end

theorem respectsWithin (fuel : Nat) : RespectsWithin π fuel := by
  induction fuel with
  | zero => exact respectsWithin_zero
  | succ fuel ih =>
    exact {
      trace := respects_traceWithin ih
      follow := respects_followWithin ih
      «export» := respects_exportWithin ih
      find := respects_findExportWithin ih
      object := respects_objectWithin ih }

theorem respects_trace (module : Nat) (name : String) :
    Respects π (Option.map π) (trace module name) (trace module name) :=
  .get_bind fun g h R => by
    rw [R.traceBound]
    exact (respectsWithin _).trace module name

theorem respects_traceExport (target : Target) (name : String) (importer : Nat) :
    Respects π π (traceExport target name importer) (traceExport target name importer) := by
  cases target with
  | outside external => exact respects_externalDeclaration external name
  | inside module =>
    exact .get_bind fun g h R => by
      rw [R.traceBound]
      exact (respectsWithin _).export module name importer

theorem kind_renumber_beq_binding (d : Declaration) :
    ((d.renumber π).kind == .binding) = (d.kind == .binding) := by
  unfold Declaration.renumber
  cases d.kind <;> rfl

theorem single_renumber {p : Reference → Bool} (hp : ∀ r, p (r.renumber π) = p r) (rs : List Reference) :
    (match (rs.map (·.renumber π)).filter p with
      | [single] => some single.name
      | _ => none) = match rs.filter p with
      | [single] => some single.name
      | _ => none := by
  rw [List.filter_map, show p ∘ (·.renumber π) = p from funext hp]
  rcases rs.filter p with _ | ⟨single, _ | ⟨_, _⟩⟩ <;> rfl

theorem copiedName?_renumber (m : LinkedModule) (d : Declaration) :
    (m.renumber π).copiedName? (d.renumber π) = m.copiedName? d := by
  unfold LinkedModule.copiedName?
  simp only [bne, kind_renumber_beq_binding]
  split
  · rfl
  · simp only [Declaration.renumber, LinkedModule.renumber, List.getElem?_map, Option.bind_eq_bind,
      Option.bind_map]
    refine congrArg _ (funext fun r => ?_)
    refine congrArg _ (funext fun s => ?_)
    simp only [Function.comp_apply]
    rw [show (s.renumber π).isVariable = s.isVariable from rfl]
    split
    · rfl
    · exact congrArg _ (funext fun root => single_renumber (fun _ => rfl) s.references)

theorem Renumbers.copies (R : Renumbers π g h) (m : LinkedModule) :
    h.copies (m.renumber π) = (g.copies m).map fun c => (c.1, c.2.1, π c.2.2) := by
  unfold Graph.copies
  rw [List.map_filterMap, show (m.renumber π).declarations = m.declarations.map fun e => (e.1, π e.2) from rfl,
    List.filterMap_map]
  refine congrArg (List.filterMap · _) (funext fun e => ?_)
  simp only [Function.comp_apply, Option.bind_eq_bind, R.declaration?, Option.bind_map,
    copiedName?_renumber, Option.map_bind]
  refine congrArg _ (funext fun d => ?_)
  cases m.copiedName? d <;> rfl

theorem respects_bindAlias (module count : Nat) (copy : String × String × Nat) :
    Respects π (fun n => n) (bindAlias module count copy)
      (bindAlias module count (copy.1, copy.2.1, π copy.2.2)) := by
  obtain ⟨name, copied, twin⟩ := copy
  unfold bindAlias
  dsimp only
  split
  · exact .pure rfl
  · refine (respects_trace module copied).bind fun found => ?_
    cases found with
    | none => exact .pure rfl
    | some other =>
      refine .get_bind fun g h R => ?_
      have hknown : ((h.declaration? (π other)).any fun d => d.aliases.contains (π twin)) =
          (g.declaration? other).any fun d => d.aliases.contains twin := by
        rw [R.declaration?, Option.any_map]
        exact congrArg (Option.any · _) (funext fun d => by simp [Declaration.renumber])
      rw [hknown, show (π other == π twin) = (other == twin) by simp [beq_eq_decide]]
      split
      · exact .pure rfl
      · refine .bind (.modify fun g h R => R.modifyDeclaration other fun d => ?_) fun _ => .pure rfl
        simp [Declaration.renumber]

theorem respects_bindAliases (module count : Nat) :
    Respects π (fun n => n) (bindAliases module count) (bindAliases module count) := by
  refine .get_bind fun g h R => ?_
  rw [R.module?]
  cases g.modules[module]? with
  | none => exact .pure rfl
  | some m =>
    dsimp only [Option.map_some]
    rw [R.copies]
    exact .foldlM (respects_bindAlias module) _ count

theorem Renumbers.useAsValue (R : Renumbers π g h) (id : Nat) :
    Renumbers π (g.useAsValue id) (h.useAsValue (π id)) := by
  unfold Graph.useAsValue
  rw [R.declaration?]
  cases g.declaration? id with
  | none => exact R
  | some d =>
    obtain ⟨name, kind, statement, reassigned, exported, used, aliases⟩ := d
    cases kind with
    | object module members asValue =>
      cases asValue with
      | true => exact R
      | false =>
        have R' := R.modifyDeclaration id
          (F := fun d => { d with kind := .object module members true })
          (E := fun d => { d with kind := .object module (Table.renumber π members) true }) fun _ => rfl
        have hobjects : h.objects ++ [π id] = (g.objects ++ [id]).map π := by simp [R.objects]
        exact { R' with objects := hobjects }
    | binding => exact R
    | defaultValue standsFor => exact R
    | external external name => exact R

theorem suggest_renumber (e : External) (name : String) :
    (e.renumber π).suggest name = (e.suggest name).renumber π := by
  simp only [External.suggest, External.renumber]
  split
  · next hlt => exact if_pos hlt
  · next hlt => exact if_neg hlt

theorem Renumbers.code (R : Renumbers π g h) (module : Nat) :
    ((h.modules[module]?.map fun m => m.code).getD []) = (g.modules[module]?.map fun m => m.code).getD [] := by
  rw [R.module?, Option.map_map]
  rfl

/-- One access at a time: what is left of the accesses is bound alike. -/
theorem respects_bindTo_of_rest {module : Nat} {accesses : List Access}
    (hrest : ∀ a rest, accesses = a :: rest → ∀ id r, Respects π (Reference.renumber π)
      (bindTo module rest id r) (bindTo module rest (π id) (r.renumber π))) (id : Nat) (r : Reference) :
    Respects π (Reference.renumber π) (bindTo module accesses id r)
      (bindTo module accesses (π id) (r.renumber π)) := by
  unfold bindTo
  refine .get_bind fun g h R => ?_
  dsimp only
  rw [R.declaration?]
  cases g.declaration? id with
  | none => exact .pure rfl
  | some d =>
    obtain ⟨name, kind, statement, reassigned, exported, used, aliases⟩ := d
    cases kind with
    | binding => exact .bind (.set (R.modifyDeclaration id fun _ => rfl)) fun _ => .pure rfl
    | defaultValue standsFor => exact .bind (.set (R.modifyDeclaration id fun _ => rfl)) fun _ => .pure rfl
    | external outside name =>
      dsimp only [Option.map_some, Declaration.renumber, DeclarationKind.renumber]
      split
      · exact .bind (.set (R.modifyExternal outside fun e => suggest_renumber e _)) fun _ => .pure rfl
      · exact .pure rfl
    | object exporter members asValue =>
      cases accesses with
      | nil => exact .bind (.set ((R.useAsValue id).modifyDeclaration id fun _ => rfl)) fun _ => .pure rfl
      | cons a rest =>
        dsimp only [Option.map_some, Declaration.renumber, DeclarationKind.renumber]
        rw [Table.get?_renumber]
        cases members.get? a.name with
        | some member => exact hrest a rest rfl member _
        | none =>
          dsimp only [Option.map_none]
          rw [R.moduleId, R.moduleId, R.code]
          exact .throw _

theorem respects_bindTo (module : Nat) (accesses : List Access) (id : Nat) (r : Reference) :
    Respects π (Reference.renumber π) (bindTo module accesses id r)
      (bindTo module accesses (π id) (r.renumber π)) := by
  induction accesses generalizing id r with
  | nil => exact respects_bindTo_of_rest (fun _ _ h => by cases h) id r
  | cons a accesses ih =>
    refine respects_bindTo_of_rest (fun _ rest h => ?_) id r
    obtain ⟨rfl, rfl⟩ := List.cons.inj h
    exact ih

theorem respects_bound (module : Nat) (stats : LinkStats) (r : Reference) (target : Option Nat) :
    Respects π (fun b => (b.1.renumber π, b.2))
      (match target with
        | some id => do return (← bindTo module r.accesses id r, { stats with bound := stats.bound + 1 })
        | none => do
          modify fun g => { g with globals := addNew r.name g.globals }
          return ({ r with binding := .global }, { stats with globals := stats.globals + 1 }))
      (match target.map π with
        | some id => do
          return (← bindTo module r.accesses id (r.renumber π), { stats with bound := stats.bound + 1 })
        | none => do
          modify fun g => { g with globals := addNew r.name g.globals }
          return ({ r.renumber π with binding := .global }, { stats with globals := stats.globals + 1 })) := by
  cases target with
  | some id => exact (respects_bindTo module r.accesses id r).bind fun b => .pure rfl
  | none =>
    exact .bind (.modify fun g h R => { R with globals := congrArg (addNew r.name) R.globals })
      fun _ => .pure rfl

theorem respects_bindReference (module : Nat) (stats : LinkStats) (r : Reference) :
    Respects π (fun b => (b.1.renumber π, b.2)) (bindReference module stats r)
      (bindReference module stats (r.renumber π)) := by
  unfold bindReference
  refine .get_bind fun g h R => ?_
  dsimp only
  rw [R.module?]
  cases g.modules[module]? with
  | none => exact .pure rfl
  | some m =>
    refine .ite Iff.rfl (fun _ => .pure rfl) fun _ => .ite Iff.rfl (fun _ => ?_) fun _ => ?_
    · exact .bind (φ := Option.map π) (.pure (Table.get?_renumber r.name m.declarations))
        (respects_bound module { stats with references := stats.references + 1 } r)
    · exact .bind (respects_trace module r.name)
        (respects_bound module { stats with references := stats.references + 1 } r)

theorem respects_bindReferenceList (module : Nat) (stats : LinkStats) (rs : List Reference) :
    Respects π (fun b => (b.1.map (·.renumber π), b.2)) (bindReferenceList module stats rs)
      (bindReferenceList module stats (rs.map (·.renumber π))) := by
  induction rs generalizing stats with
  | nil => exact .pure rfl
  | cons r rs ih =>
    exact (respects_bindReference module stats r).bind fun b => (ih b.2).bind fun bs => .pure rfl

theorem respects_bindStatement (module : Nat) (stats : LinkStats) (index : Nat) :
    Respects π (fun s => s) (bindStatement module stats index) (bindStatement module stats index) := by
  refine .get_bind fun g h R => ?_
  rw [R.statement?]
  cases g.statement? ⟨module, index⟩ with
  | none => exact .pure rfl
  | some s =>
    dsimp only [Option.map_some, Statement.renumber]
    split
    · exact .pure rfl
    · refine (respects_bindReferenceList module stats s.references).bind fun b => ?_
      exact .bind (.modify fun g h R => R.modifyModule module fun m =>
        renumber_modifyStatement (fun s => { s with references := b.1 })
          (fun s => { s with references := b.1.map (·.renumber π) }) (fun _ => rfl) m index) fun _ => .pure rfl

theorem respects_bindDefault (module : Nat) :
    Respects π (fun _ => ()) (bindDefault module) (bindDefault module) := by
  refine .get_bind fun g h R => ?_
  rw [R.module?]
  cases g.modules[module]? with
  | none => exact .pure rfl
  | some m =>
    dsimp only [Option.map_some, LinkedModule.renumber]
    rw [Table.get?_renumber]
    cases m.declarations.get? "default" with
    | none => exact .pure rfl
    | some id =>
      cases (m.exports.get? "default").bind (·.identifier) with
      | none => exact .pure rfl
      | some identifier =>
        refine (respects_trace module identifier).bind fun found => ?_
        cases found with
        | none => exact .pure rfl
        | some other =>
          dsimp only [Option.map_some]
          rw [show (π other != π id) = (other != id) by simp [bne, beq_eq_decide]]
          split
          · exact .modify fun g h R => R.modifyDeclaration id fun _ => rfl
          · exact .pure rfl

theorem respects_bindReferences (stats : LinkStats) (module : Nat) :
    Respects π (fun s => s) (bindReferences stats module) (bindReferences stats module) := by
  refine (respects_bindDefault module).bind fun _ => .get_bind fun g h R => ?_
  have hcount : ((h.modules[module]?.map fun m => m.statements.length).getD 0) =
      (g.modules[module]?.map fun m => m.statements.length).getD 0 := by
    rw [R.module?, Option.map_map]
    exact congrArg (Option.getD · 0) (congrArg (Option.map · _) (funext fun m => List.length_map _))
  dsimp only
  rw [hcount]
  exact .foldlM_same (respects_bindStatement module) _ stats

theorem respects_bind : Respects π (fun s => s) bind bind := by
  refine .bind (.modify fun g h R => ?_) fun _ => .get_bind fun g h R => ?_
  · refine { R with modules := ?_ }
    rw [R.modules, List.map_map, List.map_map]
    rfl
  · rw [R.modules, List.length_map]
    refine .bind (.foldlM_same (φ := fun n => n) (fun count module => respects_bindAliases module count) _ 0)
      fun aliases => ?_
    exact .foldlM_same respects_bindReferences _ _

end Treeshake.Graph
