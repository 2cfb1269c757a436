import Treeshake.Graph.Declaration
/-!
The graph of a build: its modules in canonical order, the entry first, the external modules, and all
declarations.
-/
set_option autoImplicit false

namespace Treeshake

/-- A module in a graph: where its sources lead, what its star exports pass on, its declarations by
their keys, and the declaration of the module as a whole once something asks for it. -/
structure LinkedModule extends Module where
  targets : Table Target := []
  stars : List Target := []
  declarations : Table Nat := []
  object : Option Nat := none

/-- The `globals` are names that nothing in the build declares, the `objects` modules used as values in
the order of their first use, and `entryExports` what the entry exports once it is marked. -/
structure Graph where
  modules : List LinkedModule
  externals : List External
  declarations : List Declaration
  globals : List String
  objects : List Nat := []
  entryExports : Table Nat := []

abbrev Build := StateT Graph (Except Error)

namespace Graph

def entry : Nat := 0

def wrapperNames : List String := ["module", "exports", "require", "define"]

def declareBindings (next module : Nat) (m : Module) : Table Nat × List Declaration :=
  (m.bindings.mapIdx fun i b => (b.key, next + i),
    m.bindings.map fun b => {
      name := b.name
      kind := if b.key == "default" then .defaultValue none else .binding
      statement := b.statement.map fun index => ⟨module, index⟩ })

def linkAll (next module : Nat) : List (Module × Table Target) → List LinkedModule × List Declaration
  | [] => ([], [])
  | (m, targets) :: ms =>
    let (keys, declared) := declareBindings next module m
    let (linked, rest) := linkAll (next + declared.length) (module + 1) ms
    ({ m with targets, declarations := keys } :: linked, declared ++ rest)

def ofModules (modules : List (Module × Table Target)) (externals : List External) : Graph :=
  let (linked, declarations) := linkAll 0 0 modules
  { modules := linked, externals, declarations, globals := wrapperNames }

def moduleId (g : Graph) (module : Nat) : String := (g.modules[module]?.map fun m => m.id).getD ""

def declaration? (g : Graph) (id : Nat) : Option Declaration := g.declarations[id]?

def modifyModule (g : Graph) (i : Nat) (f : LinkedModule → LinkedModule) : Graph :=
  { g with modules := g.modules.modify i f }

def modifyDeclaration (g : Graph) (i : Nat) (f : Declaration → Declaration) : Graph :=
  { g with declarations := g.declarations.modify i f }

def modifyExternal (g : Graph) (i : Nat) (f : External → External) : Graph :=
  { g with externals := g.externals.modify i f }

def push (g : Graph) (d : Declaration) : Graph := { g with declarations := g.declarations ++ [d] }

def statement? (g : Graph) (r : StatementRef) : Option Statement :=
  g.modules[r.module]?.bind fun m => m.statements[r.index]?

def isIncluded (g : Graph) (r : StatementRef) : Bool := (g.statement? r).any (·.included)

def isReassigned (g : Graph) (id : Nat) : Bool := (g.declarations[id]?).any (·.reassigned)

def included (g : Graph) : List (List Bool) :=
  g.modules.map fun m => m.statements.map (·.included)

/-- Every name that a module exports: its own, those of other modules it names, and those it passes on,
never a default among these. -/
def collectExports (g : Graph) : Nat → Nat → Bool → List Nat × List String → List Nat × List String
  | 0, _, _, found => found
  | fuel + 1, module, withDefault, (visited, names) =>
    if visited.contains module then (visited, names)
    else
      match g.modules[module]? with
      | none => (visited, names)
      | some m =>
        let own := (m.exports.keys ++ m.reexports.keys).filter fun n => withDefault || n != "default"
        m.stars.foldl
          (fun found star =>
            match star with
            | .inside other => g.collectExports fuel other false found
            | .outside _ => found)
          (module :: visited, own.foldl (fun names n => addNew n names) names)

def exportNames (g : Graph) (module : Nat) : List String :=
  (g.collectExports (g.modules.length + 1) module true ([], [])).2

end Graph

end Treeshake
