import Treeshake.Graph.Basic
/-!
The names of declarations in the output, where all modules share one scope.
-/
set_option autoImplicit false

namespace Treeshake.Graph

/-- What an external declaration is called: by its own name where the output imports names, and as a
member of its module elsewhere. -/
def externalName (e : External) (d : Declaration) (name : String) (es6 : Bool) : String :=
  if name == "*" then e.name
  else if name == "default" then
    if !es6 && e.exportsNames then e.name ++ "__default" else e.name
  else if es6 then d.name
  else e.name ++ "." ++ name

/-- The name of a declaration, through the default exports that stand for another; `seen` are those
passed already. -/
def nameWithin (g : Graph) (es6 : Bool) : Nat → List Nat → Nat → String
  | 0, _, id => ((g.declaration? id).map (·.name)).getD ""
  | fuel + 1, seen, id =>
    match g.declaration? id with
    | none => ""
    | some d =>
      match d.kind with
      | .binding => if !es6 && d.exported && d.reassigned then "exports." ++ d.name else d.name
      | .defaultValue (some underlying) =>
        if !g.isReassigned underlying && !seen.contains underlying then
          g.nameWithin es6 fuel (id :: seen) underlying
        else d.name
      | .defaultValue none | .object .. => d.name
      | .external module name =>
        match g.externals[module]? with
        | some e => externalName e d name es6
        | none => d.name

def renderName (g : Graph) (id : Nat) (es6 : Bool) : String :=
  g.nameWithin es6 (g.declarations.length + 1) [] id

def isReplaced (g : Graph) (d : Declaration) : Bool := d.standsFor.any (!g.isReassigned ·)

def needsObject (d : Declaration) : Bool :=
  match d.kind with
  | .object _ _ asValue => asValue && d.used
  | _ => false

def renderedDeclarations (g : Graph) (m : LinkedModule) : List Nat :=
  (m.declarations.filter fun (key, id) =>
    (g.declaration? id).any fun d =>
      d.statement.any g.isIncluded && !(key == "default" && g.isReplaced d)).map (·.2)
    ++ (m.object.filter fun id => (g.declaration? id).any needsObject).toList

/-- A name like another that is not taken, and the taken names with it. Each number counts the names
made from a taken one. -/
def freshWithin : Nat → Table Nat → String → String × Table Nat
  | 0, taken, name => (name, taken)
  | fuel + 1, taken, name =>
    match taken.get? name with
    | none => (name, taken.insert name 1)
    | some n => freshWithin fuel (taken.insert name (n + 1)) (name ++ "$" ++ toString n)

/-- Every name tried is longer than the one before, so at most all taken names are tried. -/
def fresh (taken : Table Nat) (name : String) : String × Table Nat :=
  freshWithin (taken.length + 1) taken name

structure Naming where
  graph : Graph
  taken : Table Nat
  renamed : Nat := 0

namespace Naming

def nameExternal (n : Naming) (external : Nat) : Naming :=
  match n.graph.externals[external]? with
  | none => n
  | some e =>
    let (name, taken) := fresh n.taken e.name
    { graph := n.graph.modifyExternal external fun e => { e with name }
      taken, renamed := n.renamed + if name == e.name then 0 else 1 }

def nameDeclaration (n : Naming) (id : Nat) : Naming :=
  match n.graph.declaration? id with
  | none => n
  | some d =>
    let (name, taken) := fresh n.taken d.name
    { graph := n.graph.modifyDeclaration id fun d => { d with name }
      taken, renamed := n.renamed + if name == d.name then 0 else 1 }

def nameModule (n : Naming) (module : Nat) : Naming :=
  match n.graph.modules[module]? with
  | none => n
  | some m => (n.graph.renderedDeclarations m).foldl nameDeclaration n

end Naming

def importedNames (e : External) : List Nat :=
  (e.declarations.filter fun (name, _) => name != "default" && name != "*").map (·.2)

/-- Gives every external module and every declaration that the output shows a name of its own, with the
number of names changed. External modules come first, then the modules in a given order, then names
imported from external modules, which are only shown where the output imports them. -/
def deconflict (g : Graph) (order : List Nat) : Graph × Nat :=
  let start : Naming := { graph := g, taken := g.globals.map fun name => (name, 1) }
  let n := (List.range g.externals.length).foldl Naming.nameExternal start
  let n := order.foldl Naming.nameModule n
  let n := (g.externals.flatMap importedNames).foldl Naming.nameDeclaration n
  (n.graph, n.renamed)

end Treeshake.Graph
