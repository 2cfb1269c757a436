import Treeshake.Graph.Liveness
import Treeshake.Proofs.Renumber.Bind
/-!
Liveness does not depend on the numbers of declarations. Main statement: marking graphs that differ in
numbers only fails for both alike, or takes as many passes and includes the same statements.
-/
set_option autoImplicit false

namespace Treeshake.Graph

variable {π : Equiv.Perm Nat} {g h : Graph}

theorem Renumbers.isIncluded (R : Renumbers π g h) (r : StatementRef) : h.isIncluded r = g.isIncluded r := by
  rw [Graph.isIncluded, Graph.isIncluded, R.statement?, Option.any_map]
  rfl

theorem Renumbers.flagUsed (R : Renumbers π g h) (id : Nat) :
    Renumbers π (g.flagUsed id) (h.flagUsed (π id)) :=
  R.modifyDeclaration id fun _ => rfl

theorem Renumbers.keep (R : Renumbers π g h) (r : StatementRef) :
    Renumbers π (g.keep r).1 (h.keep r).1 ∧ (h.keep r).2 = (g.keep r).2.map π := by
  unfold Graph.keep
  rw [R.statement?]
  cases g.statement? r with
  | none => exact ⟨R, rfl⟩
  | some s =>
    dsimp only [Option.map_some, Statement.renumber]
    split
    · exact ⟨R, rfl⟩
    · refine ⟨R.modifyModule r.module fun m => renumber_modifyStatement
        (fun s => { s with included := true }) (fun s => { s with included := true }) (fun _ => rfl) m r.index, ?_⟩
      rw [List.filterMap_map, List.map_filterMap]
      exact congrArg (List.filterMap · _) (funext fun r => r.declaration?_renumber)

theorem Renumbers.keepOf (R : Renumbers π g h) (r : Option StatementRef) :
    Renumbers π (g.keepOf r).1 (h.keepOf r).1 ∧ (h.keepOf r).2 = (g.keepOf r).2.map π := by
  cases r with
  | none => exact ⟨R, rfl⟩
  | some r => exact R.keep r

theorem needs_renumber (d : Declaration) : needs (d.renumber π) = (needs d).map π := by
  obtain ⟨name, kind, statement, reassigned, exported, used, aliases⟩ := d
  cases kind with
  | defaultValue standsFor =>
    cases standsFor <;> simp [needs, Declaration.renumber, DeclarationKind.renumber]
  | _ => simp [needs, Declaration.renumber, DeclarationKind.renumber]

theorem isExternal_renumber (d : Declaration) : (d.renumber π).isExternal = d.isExternal := by
  obtain ⟨name, kind, statement, reassigned, exported, used, aliases⟩ := d
  cases kind <;> rfl

section Use

variable {id : Nat} {rest : List Nat} {d : Declaration}

theorem use_unknown (hd : g.declaration? id = none) : g.use (id :: rest) = g.use rest := by
  rw [Graph.use, hd]

theorem use_again (hd : g.declaration? id = some d) (hskip : (d.used || d.isExternal) = true) :
    g.use (id :: rest) = g.use rest := by
  rw [Graph.use, hd]
  simp only [hskip, dite_true]

theorem use_first (hd : g.declaration? id = some d) (hskip : ¬(d.used || d.isExternal) = true) :
    g.use (id :: rest) = ((g.flagUsed id).keepOf d.statement).1.use
      (needs d ++ ((g.flagUsed id).keepOf d.statement).2 ++ rest) := by
  rw [Graph.use, hd]
  exact dif_neg hskip

end Use

theorem renumbers_use (g : Graph) (ids : List Nat) :
    ∀ h, Renumbers π g h → Renumbers π (g.use ids) (h.use (ids.map π)) := by
  induction g, ids using Graph.use.induct with
  | case1 g =>
    intro h R
    rw [List.map_nil, Graph.use, Graph.use]
    exact R
  | case2 g id rest hnone ih =>
    intro h R
    have hnone' : h.declaration? (π id) = none := by rw [R.declaration?, hnone, Option.map_none]
    rw [List.map_cons, use_unknown hnone, use_unknown hnone']
    exact ih h R
  | case3 g id rest d hd hskip ih =>
    intro h R
    have hd' : h.declaration? (π id) = some (d.renumber π) := by rw [R.declaration?, hd, Option.map_some]
    rw [List.map_cons, use_again hd hskip, use_again hd' (by rwa [isExternal_renumber])]
    exact ih h R
  | case4 g id rest d hd hskip next ih =>
    intro h R
    have hd' : h.declaration? (π id) = some (d.renumber π) := by rw [R.declaration?, hd, Option.map_some]
    obtain ⟨R', hnext⟩ := (R.flagUsed id).keepOf d.statement
    rw [List.map_cons, use_first hd hskip, use_first hd' (by rwa [isExternal_renumber]), needs_renumber]
    have hids : (needs d).map π ++ ((h.flagUsed (π id)).keepOf d.statement).2 ++ rest.map π =
        (needs d ++ next.2 ++ rest).map π := by
      rw [hnext, List.map_append, List.map_append]
    exact hids ▸ ih _ R'

theorem Renumbers.use (R : Renumbers π g h) (ids : List Nat) :
    Renumbers π (g.use ids) (h.use (ids.map π)) := renumbers_use g ids h R

theorem Renumbers.markStatement (R : Renumbers π g h) (r : StatementRef) :
    Renumbers π (g.markStatement r) (h.markStatement r) := by
  obtain ⟨R', hnext⟩ := R.keep r
  rw [Graph.markStatement, Graph.markStatement]
  exact hnext ▸ R'.use _

theorem Renumbers.isObservable (R : Renumbers π g h) (id : Nat) :
    h.isObservable (π id) = g.isObservable id := by
  rw [Graph.isObservable, Graph.isObservable, R.declaration?]
  cases g.declaration? id with
  | none => rfl
  | some d =>
    have hobject : (d.renumber π).isObject = d.isObject := by
      obtain ⟨name, kind, statement, reassigned, exported, used, aliases⟩ := d
      cases kind <;> rfl
    dsimp only [Option.map_some]
    rw [isExternal_renumber, hobject, funext R.isIncluded]
    rfl

theorem respects_anyTarget (module : Nat) (targets : List (Option String)) :
    Respects π (fun b => b) (anyTarget module targets) (anyTarget module targets) := by
  induction targets with
  | nil => exact .pure rfl
  | cons target targets ih =>
    cases target with
    | none => exact .pure rfl
    | some name =>
      refine (respects_trace module name).bind fun found => ?_
      cases found with
      | none => exact .pure rfl
      | some id =>
        refine .get_bind fun g h R => ?_
        rw [R.isObservable]
        exact .ite Iff.rfl (fun _ => .pure rfl) fun _ => ih

theorem respects_hasSideEffects (r : StatementRef) :
    Respects π (fun b => b) (hasSideEffects r) (hasSideEffects r) := by
  refine .get_bind fun g h R => ?_
  rw [R.statement?]
  cases g.statement? r with
  | none => exact .pure rfl
  | some s => exact .ite Iff.rfl (fun _ => .pure rfl) fun _ => respects_anyTarget _ _

theorem respects_markIfEffective (r : StatementRef) :
    Respects π (fun b => b) (markIfEffective r) (markIfEffective r) := by
  refine .get_bind fun g h R => ?_
  rw [R.isIncluded]
  refine .ite Iff.rfl (fun _ => .pure rfl) fun _ => (respects_hasSideEffects r).bind fun effective => ?_
  exact .ite Iff.rfl (fun _ => .bind (.modify fun g h R => R.markStatement r) fun _ => .pure rfl)
    fun _ => .pure rfl

theorem Renumbers.allStatements (R : Renumbers π g h) : h.allStatements = g.allStatements := by
  rw [Graph.allStatements, Graph.allStatements, R.modules, List.zipIdx_map, List.map_map]
  refine congrArg List.flatten (List.map_congr_left fun e _ => ?_)
  exact congrArg (fun n => (List.range n).map fun j => (⟨e.2, j⟩ : StatementRef)) (List.length_map _)

theorem respects_markPass : Respects π (fun b => b) markPass markPass := by
  refine .get_bind fun g h R => ?_
  rw [R.allStatements]
  exact .foldlM_same (φ := fun b => b)
    (fun marked r => (respects_markIfEffective r).bind fun _ => .pure rfl) _ false

theorem respects_markPasses (fuel passes : Nat) :
    Respects π (fun n => n) (markPasses fuel passes) (markPasses fuel passes) := by
  induction fuel generalizing passes with
  | zero => exact .pure rfl
  | succ fuel ih =>
    exact respects_markPass.bind fun marked => .ite Iff.rfl (fun _ => ih _) fun _ => .pure rfl

theorem respects_markExport (name : String) :
    Respects π (fun _ => ()) (markExport name) (markExport name) := by
  refine (respects_traceExport _ name entry).bind fun id => .modify fun g h R => ?_
  have R' : Renumbers π { g with entryExports := g.entryExports.insert name id }
      { h with entryExports := h.entryExports.insert name (π id) } :=
    { R with entryExports := by rw [R.entryExports, ← Table.renumber_insert] }
  have hflag := R'.modifyDeclaration id (F := fun d => { d with exported := true })
    (E := fun d => { d with exported := true }) fun _ => rfl
  exact (hflag.useAsValue id).use [id]

theorem respects_mark : Respects π (fun n => n) mark mark := by
  refine .get_bind fun g h R => ?_
  rw [R.exportNames]
  refine .bind (.forM respects_markExport _) fun _ => .get_bind fun g h R => ?_
  dsimp only
  rw [R.allStatements]
  exact respects_markPasses _ 0

end Treeshake.Graph
