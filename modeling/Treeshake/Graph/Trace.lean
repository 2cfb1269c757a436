import Treeshake.Graph.Basic
/-!
From a name to the declaration that holds its value, through imports and exports of other modules.
-/
set_option autoImplicit false

namespace Treeshake.Graph

def externalDeclaration (external : Nat) (name : String) : Build Nat := do
  if name != "default" && name != "*" then
    modify fun g => g.modifyExternal external fun e => { e with exportsNames := true }
  let g ← get
  match g.externals[external]?.bind fun e => e.declarations.get? name with
  | some id => return id
  | none =>
    let id := g.declarations.length
    set ((g.push { name, kind := .external external name }).modifyExternal external fun e =>
      { e with declarations := e.declarations.insert name id })
    return id

/-- The first of a list for which a search succeeds; the search hands on what it visited. -/
def seek {α : Type} (search : Nat → List Nat → Build (Option α × List Nat)) :
    List Target → List Nat → Build (Option α × List Nat)
  | [], visited => return (none, visited)
  | .outside _ :: rest, visited => seek search rest visited
  | .inside module :: rest, visited => do
    match ← search module visited with
    | (some a, visited) => return (some a, visited)
    | (none, visited) => seek search rest visited

def firstOutside? : List Target → Option Nat
  | [] => none
  | .outside external :: _ => some external
  | .inside _ :: rest => firstOutside? rest

mutual

def traceWithin : Nat → Nat → String → Build (Option Nat)
  | 0, module, name => do throw (.endlessExport name ((← get).moduleId module))
  | fuel + 1, module, name => do
    match (← get).modules[module]? with
    | none => return none
    | some m =>
      match m.declarations.get? name, m.imports.get? name with
      | some id, _ => return some id
      | none, none => return none
      | none, some i =>
        match m.targets.get? i.source with
        | none => return none
        | some target => return some (← followWithin fuel target i.name module)

def followWithin : Nat → Target → String → Nat → Build Nat
  | 0, _, name, importer => do throw (.endlessExport name ((← get).moduleId importer))
  | _ + 1, .outside external, name, _ => externalDeclaration external name
  | fuel + 1, .inside module, name, importer =>
    if name == "*" then objectWithin fuel module else exportWithin fuel module name importer

def exportWithin : Nat → Nat → String → Nat → Build Nat
  | 0, module, name, _ => do throw (.endlessExport name ((← get).moduleId module))
  | fuel + 1, module, name, importer => do
    match ← findExportWithin fuel module name [] with
    | (some id, _) => return id
    | (none, _) =>
      let g ← get
      throw (.missingExport name (g.moduleId module) (g.moduleId importer))

/-- The declaration behind an export, if there is one: of a name the module exports itself, or else of
the first module that a star export passes on, or else of the first such external module. -/
def findExportWithin : Nat → Nat → String → List Nat → Build (Option Nat × List Nat)
  | 0, module, name, _ => do throw (.endlessExport name ((← get).moduleId module))
  | fuel + 1, module, name, visited => do
    if visited.contains module then return (none, visited)
    let visited := module :: visited
    match (← get).modules[module]? with
    | none => return (none, visited)
    | some m =>
      match m.reexports.get? name, m.exports.get? name with
      | some r, _ =>
        match m.targets.get? r.source with
        | none => return (none, visited)
        | some target => return (some (← followWithin fuel target r.localName module), visited)
      | none, some e => return (← traceWithin fuel module e.localName, visited)
      | none, none =>
        if name == "default" then return (none, visited)
        match ← seek (fun other visited => findExportWithin fuel other name visited) m.stars visited with
        | (some id, visited) => return (some id, visited)
        | (none, visited) =>
          match firstOutside? m.stars with
          | some external => return (some (← externalDeclaration external name), visited)
          | none => return (none, visited)

/-- The declaration of a module as a whole. It exists before its members are traced, as they may lead
back to it. -/
def objectWithin : Nat → Nat → Build Nat
  | 0, module => do throw (.endlessExport "*" ((← get).moduleId module))
  | fuel + 1, module => do
    let g ← get
    match g.modules[module]? with
    | none => throw (.missingExport "*" (g.moduleId module) (g.moduleId module))
    | some m =>
      match m.object with
      | some id => return id
      | none =>
        let id := g.declarations.length
        set ((g.push { name := m.baseName, kind := .object module [] false }).modifyModule module
          fun m => { m with object := some id })
        let members ← (g.exportNames module).mapM fun name =>
          return (name, ← exportWithin fuel module name module)
        modify fun g => g.modifyDeclaration id fun d => { d with kind := .object module members false }
        return id

end

/-- More steps than a trace can take that does not run in a circle: between two modules traced as a
whole, it meets each entry of a table once, and between two entries it passes each module once. -/
def traceBound (g : Graph) : Nat :=
  let entries := g.modules.flatMap fun m => m.imports.keys ++ m.exports.keys ++ m.reexports.keys
  4 * (g.modules.length + 1) * (g.modules.length + 2) * (entries.length + 2)

def trace (module : Nat) (name : String) : Build (Option Nat) := do
  traceWithin (← get).traceBound module name

def traceExport (target : Target) (name : String) (importer : Nat) : Build Nat := do
  match target with
  | .outside external => externalDeclaration external name
  | .inside module => exportWithin (← get).traceBound module name importer

def object (module : Nat) : Build Nat := do objectWithin (← get).traceBound module

end Treeshake.Graph
