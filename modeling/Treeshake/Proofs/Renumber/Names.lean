import Treeshake.Graph.Names
import Treeshake.Proofs.Graph.Order
import Treeshake.Proofs.Renumber.Mark
/-!
The order of modules and the names of declarations do not depend on the numbers of declarations. Main
statement: naming graphs that differ in numbers only gives the same names to what goes together.
-/
set_option autoImplicit false

namespace Treeshake.Graph

variable {π : Equiv.Perm Nat} {g h : Graph}

theorem Renumbers.readModule? (R : Renumbers π g h) (r : Reference) :
    h.readModule? (r.renumber π) = g.readModule? r := by
  unfold Graph.readModule?
  rw [Reference.declaration?_renumber]
  cases r.declaration? with
  | none => rfl
  | some id =>
    simp only [Option.map_some, Option.bind_eq_bind, Option.bind_some, R.declaration?]
    cases g.declaration? id <;> rfl

theorem Renumbers.dependencies (R : Renumbers π g h) (i : Nat) : h.dependencies i = g.dependencies i := by
  unfold Graph.dependencies
  rw [R.module?]
  cases g.modules[i]? with
  | none => rfl
  | some m =>
    have hread : h.readModules i (m.renumber π) = g.readModules i m := by
      have hrefs : (m.renumber π).statements.flatMap (·.references) =
          (m.statements.flatMap (·.references)).map (·.renumber π) := by
        rw [List.map_flatMap]
        exact List.flatMap_map ..
      rw [Graph.readModules, Graph.readModules, hrefs, List.filterMap_map]
      exact congrArg (fun f => ((List.filterMap f _).filter (· != i)).foldl (fun is i => addNewIndex i is) [])
        (funext R.readModule?)
    exact congrArg (Dependencies.mk · (imported m)) hread

theorem Renumbers.order (R : Renumbers π g h) : h.order = g.order :=
  order_congr (by rw [R.modules, List.length_map]) R.dependencies

theorem Renumbers.isReassigned (R : Renumbers π g h) (id : Nat) :
    h.isReassigned (π id) = g.isReassigned id := by
  rw [Graph.isReassigned, Graph.isReassigned, R.declarations, Option.any_map]
  rfl

theorem Renumbers.nameWithin (R : Renumbers π g h) (es6 : Bool) (fuel : Nat) (seen : List Nat) (id : Nat) :
    h.nameWithin es6 fuel (seen.map π) (π id) = g.nameWithin es6 fuel seen id := by
  induction fuel generalizing seen id with
  | zero =>
    rw [Graph.nameWithin, Graph.nameWithin, R.declaration?, Option.map_map]
    rfl
  | succ fuel ih =>
    rw [Graph.nameWithin, Graph.nameWithin, R.declaration?]
    cases g.declaration? id with
    | none => rfl
    | some d =>
      obtain ⟨name, kind, statement, reassigned, exported, used, aliases⟩ := d
      cases kind with
      | binding => rfl
      | object module members asValue => rfl
      | defaultValue standsFor =>
        cases standsFor with
        | none => rfl
        | some underlying =>
          have hseen : (seen.map π).contains (π underlying) = seen.contains underlying := by simp
          have hnext := ih (id :: seen) underlying
          rw [List.map_cons] at hnext
          simp only [Option.map_some, Declaration.renumber, DeclarationKind.renumber, R.isReassigned,
            hseen, hnext]
      | external outside name =>
        simp only [Option.map_some, Declaration.renumber, DeclarationKind.renumber, R.external?]
        cases g.externals[outside]? <;> rfl

theorem Renumbers.renderName (R : Renumbers π g h) (id : Nat) (es6 : Bool) :
    h.renderName (π id) es6 = g.renderName id es6 := by
  rw [Graph.renderName, Graph.renderName, R.length]
  exact R.nameWithin es6 _ [] id

theorem Renumbers.isReplaced (R : Renumbers π g h) (d : Declaration) :
    h.isReplaced (d.renumber π) = g.isReplaced d := by
  have hstands : (d.renumber π).standsFor = d.standsFor.map π := by
    obtain ⟨name, kind, statement, reassigned, exported, used, aliases⟩ := d
    cases kind <;> rfl
  rw [Graph.isReplaced, Graph.isReplaced, hstands, Option.any_map]
  exact congrArg (Option.any · _) (funext fun id => congrArg (!·) (R.isReassigned id))

theorem needsObject_renumber (d : Declaration) : needsObject (d.renumber π) = needsObject d := by
  obtain ⟨name, kind, statement, reassigned, exported, used, aliases⟩ := d
  cases kind <;> rfl

theorem Renumbers.renderedDeclarations (R : Renumbers π g h) (m : LinkedModule) :
    h.renderedDeclarations (m.renumber π) = (g.renderedDeclarations m).map π := by
  have hkeys : ∀ e : String × Nat, ((h.declaration? (π e.2)).any fun d =>
      d.statement.any h.isIncluded && !(e.1 == "default" && h.isReplaced d)) =
        (g.declaration? e.2).any fun d =>
          d.statement.any g.isIncluded && !(e.1 == "default" && g.isReplaced d) := by
    intro e
    rw [R.declaration?, Option.any_map, funext R.isIncluded]
    exact congrArg (Option.any · _) (funext fun d => by
      rw [R.isReplaced]
      rfl)
  have hobject : ((m.renumber π).object.filter fun id => (h.declaration? id).any needsObject) =
      (m.object.filter fun id => (g.declaration? id).any needsObject).map π := by
    change (m.object.map π).filter _ = _
    cases m.object with
    | none => rfl
    | some id =>
      have hneeds : (h.declaration? (π id)).any needsObject = (g.declaration? id).any needsObject := by
        rw [R.declaration?, Option.any_map]
        exact congrArg (Option.any · _) (funext needsObject_renumber)
      rw [Option.map_some, Option.filter_some, Option.filter_some, hneeds]
      split <;> rfl
  have hown : ((m.renumber π).declarations.filter fun e => (h.declaration? e.2).any fun d =>
        d.statement.any h.isIncluded && !(e.1 == "default" && h.isReplaced d)).map (·.2) =
      ((m.declarations.filter fun e => (g.declaration? e.2).any fun d =>
        d.statement.any g.isIncluded && !(e.1 == "default" && g.isReplaced d)).map (·.2)).map π := by
    change (((m.declarations.map fun e => (e.1, π e.2)).filter _).map _) = _
    rw [List.filter_map, List.map_map, List.map_map]
    exact congrArg (List.map _) (List.filter_congr fun e _ => hkeys e)
  rw [Graph.renderedDeclarations, Graph.renderedDeclarations, List.map_append]
  refine congrArg₂ (· ++ ·) hown ?_
  rw [hobject]
  cases m.object.filter fun id => (g.declaration? id).any needsObject <;> rfl

namespace Naming

structure Renumbers (π : Equiv.Perm Nat) (n k : Naming) : Prop where
  graph : Graph.Renumbers π n.graph k.graph
  taken : k.taken = n.taken
  renamed : k.renamed = n.renamed

variable {n k : Naming}

theorem Renumbers.nameExternal (R : Renumbers π n k) (external : Nat) :
    Renumbers π (n.nameExternal external) (k.nameExternal external) := by
  unfold Naming.nameExternal
  rw [R.graph.external?]
  cases n.graph.externals[external]? with
  | none => exact R
  | some e =>
    dsimp only [Option.map_some, External.renumber]
    rw [R.taken, R.renamed]
    exact ⟨R.graph.modifyExternal external fun _ => rfl, rfl, rfl⟩

theorem Renumbers.nameDeclaration (R : Renumbers π n k) (id : Nat) :
    Renumbers π (n.nameDeclaration id) (k.nameDeclaration (π id)) := by
  unfold Naming.nameDeclaration
  rw [R.graph.declaration?]
  cases n.graph.declaration? id with
  | none => exact R
  | some d =>
    dsimp only [Option.map_some, Declaration.renumber]
    rw [R.taken, R.renamed]
    exact ⟨R.graph.modifyDeclaration id fun _ => rfl, rfl, rfl⟩

theorem Renumbers.nameDeclarations (R : Renumbers π n k) (ids : List Nat) :
    Renumbers π (ids.foldl Naming.nameDeclaration n) ((ids.map π).foldl Naming.nameDeclaration k) := by
  induction ids generalizing n k with
  | nil => exact R
  | cons id ids ih => exact ih (R.nameDeclaration id)

theorem Renumbers.nameModule (R : Renumbers π n k) (module : Nat) :
    Renumbers π (n.nameModule module) (k.nameModule module) := by
  unfold Naming.nameModule
  rw [R.graph.module?]
  cases n.graph.modules[module]? with
  | none => exact R
  | some m =>
    dsimp only [Option.map_some]
    rw [R.graph.renderedDeclarations]
    exact R.nameDeclarations _

theorem Renumbers.foldl {step : Naming → Nat → Naming}
    (hstep : ∀ n k i, Renumbers π n k → Renumbers π (step n i) (step k i)) (R : Renumbers π n k)
    (is : List Nat) : Renumbers π (is.foldl step n) (is.foldl step k) := by
  induction is generalizing n k with
  | nil => exact R
  | cons i is ih => exact ih (hstep n k i R)

end Naming

theorem Renumbers.deconflict (R : Renumbers π g h) (order : List Nat) :
    Renumbers π (g.deconflict order).1 (h.deconflict order).1 ∧
      (h.deconflict order).2 = (g.deconflict order).2 := by
  have hstart : Naming.Renumbers π { graph := g, taken := g.globals.map fun name => (name, 1) }
      { graph := h, taken := h.globals.map fun name => (name, 1) } := ⟨R, by rw [R.globals], rfl⟩
  have himported : h.externals.flatMap importedNames = (g.externals.flatMap importedNames).map π := by
    rw [R.externals, List.flatMap_map, List.map_flatMap]
    refine congrArg (List.flatMap · _) (funext fun e => ?_)
    change ((e.declarations.map fun e => (e.1, π e.2)).filter _).map _ = _
    rw [importedNames, List.filter_map, List.map_map, List.map_map]
    rfl
  have hn := ((hstart.foldl (fun _ _ i R => R.nameExternal i) (List.range g.externals.length)).foldl
    (fun _ _ i R => R.nameModule i) order).nameDeclarations (g.externals.flatMap importedNames)
  unfold Graph.deconflict
  dsimp only
  rw [himported, R.externals, List.length_map]
  exact ⟨hn.graph, hn.renamed⟩

end Treeshake.Graph
