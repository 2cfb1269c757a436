import Treeshake.Scope.Forest
import Treeshake.Syntax.Node
/-!
The scopes and the uses of names of one statement. A first walk builds the scopes and declares every
name that the statement binds; a second collects its references, the ranges of its text that must not
be indented, and what its evaluation does when the module loads.
-/
set_option autoImplicit false

namespace Treeshake

structure Access where
  name : String
  stop : Nat
  deriving DecidableEq, Repr

/-- What a reference means: nothing known yet, a name of the statement itself, a declaration of the
build, or a name that nothing in the build declares. -/
inductive Binding where
  | unbound
  | inner
  | declared (id : Nat)
  | global
  deriving DecidableEq, Repr

/-- One use of a name. `immediate` uses happen when the module loads; a `shorthand` one names an object
property at the same time. -/
structure Reference where
  name : String
  start : Nat
  stop : Nat
  scope : Nat
  accesses : List Access := []
  binding : Binding := .unbound
  immediate : Bool := true
  reassigns : Bool := false
  shorthand : Bool := false
  deriving DecidableEq, Repr

def Reference.declaration? (r : Reference) : Option Nat :=
  match r.binding with
  | .declared id => some id
  | _ => none

/-- What a statement does when the module loads: whether it calls, and the name at the root of each
target it assigns to, if there is one. -/
structure Effects where
  calls : Bool := false
  targets : List (Option String) := []
  deriving DecidableEq, Repr

/-- An import under a local name: the source and the name there, a star for the whole module. -/
structure ImportSpecifier where
  source : String
  name : String
  start : Nat
  deriving DecidableEq, Repr

namespace Node

def isFunction (n : Node) : Bool :=
  ["function_declaration", "generator_function_declaration", "function_expression", "function",
    "generator_function", "arrow_function", "method_definition"].contains n.kind

def isFunctionExpression (n : Node) : Bool :=
  ["function_expression", "function", "generator_function"].contains n.kind

/-- A named value of a default export: its name belongs to the module. -/
def isExportedDeclaration (n : Node) : List Node → Bool
  | p :: _ => (n.childAt? "name").isSome && p.kind == "export_statement" && p.isChildAt "value" n
  | [] => false

/-- A function whose name is bound around the function's own scope. -/
def namesOutside (n : Node) (ancestors : List Node) : Bool :=
  n.kind == "function_declaration" || n.kind == "generator_function_declaration"
    || (n.isFunctionExpression && n.isExportedDeclaration ancestors)

def isCalled (n : Node) : List Node → Bool
  | [] => false
  | p :: ps =>
    if p.kind == "parenthesized_expression" then p.isCalled ps
    else p.kind == "call_expression" && p.isChildAt "function" n

def defers (n : Node) (ancestors : List Node) : Bool :=
  if n.isFunction then !n.isCalled ancestors
  else n.kind == "field_definition" && !n.children.any (·.kind == "static")

mutual

/-- The root of an assignment's target under its parentheses and accesses, with their number. -/
def target : Node → Node × Nat
  | .mk h cs =>
    if h.kind == "parenthesized_expression" then (targetFirst cs).getD (.mk h cs, 0)
    else if h.kind == "member_expression" || h.kind == "subscript_expression" then
      ((targetObject cs).map fun r => (r.1, r.2 + 1)).getD (.mk h cs, 0)
    else (.mk h cs, 0)

def targetFirst : List Node → Option (Node × Nat)
  | [] => none
  | n :: ns => if n.named then some (target n) else targetFirst ns

def targetObject : List Node → Option (Node × Nat)
  | [] => none
  | n :: ns => if n.head.field == "object" then some (target n) else targetObject ns

end

mutual

def chain? (code : List Char) : Node → Option (Node × List Access)
  | .mk h cs =>
    if h.kind == "member_expression" then do
      let p ← (Node.mk h cs).childAt? "property"
      if p.kind == "property_identifier" then
        let (root, accesses) ← chainObject? code cs
        return (root, accesses ++ [⟨p.text code, p.stop⟩])
      else none
    else if h.kind == "identifier" then some (.mk h cs, [])
    else none

def chainObject? (code : List Char) : List Node → Option (Node × List Access)
  | [] => none
  | n :: ns => if n.head.field == "object" then chain? code n else chainObject? code ns

end

end Node

structure Scoping where
  forest : ScopeForest
  owners : List (Nat × Nat) := []

namespace Scoping

def declareAll (s : Scoping) (scope : Nat) (names : List String) (blockScoped : Bool) : Scoping :=
  { s with forest := names.foldl (fun f name => f.declare scope name blockScoped) s.forest }

def enter (s : Scoping) (n : Node) (parent : Nat) (kind : ScopeKind) (names : List String)
    (blockScoped : Bool) : Scoping :=
  declareAll ⟨s.forest.add (some parent) kind, (n.identity, s.forest.size) :: s.owners⟩ s.forest.size
    names blockScoped

end Scoping

namespace Node

def boundNames (code : List Char) (n : Option Node) : List String :=
  ((n.map bound).getD []).map (text code)

def parameterNames (code : List Char) (n : Node) : List String :=
  boundNames code (n.childAt? "parameters") ++ boundNames code (n.childAt? "parameter")

def ownName (code : List Char) (n : Node) : List String :=
  (n.childAt? "name").toList.map (text code)

def introduce (code : List Char) (ancestors : List Node) (scope : Nat) (s : Scoping) (n : Node) :
    Scoping × Nat :=
  let inner := fun (s : Scoping) => s.enter n scope .function (n.parameterNames code) false
  match n.kind with
  | "function_declaration" | "generator_function_declaration" =>
    let s := s.declareAll scope (n.ownName code) false
    (inner s, s.forest.size)
  | "function_expression" | "function" | "generator_function" =>
    if n.isExportedDeclaration ancestors then
      let s := s.declareAll scope (n.ownName code) false
      (inner s, s.forest.size)
    else ((inner s).declareAll s.forest.size (n.ownName code) false, s.forest.size)
  | "arrow_function" | "method_definition" => (inner s, s.forest.size)
  | "class_declaration" => (s.declareAll scope (n.ownName code) true, scope)
  | "class" =>
    if (n.childAt? "name").isNone then (s, scope)
    else if n.isExportedDeclaration ancestors then (s.declareAll scope (n.ownName code) true, scope)
    else (s.enter n scope .block (n.ownName code) true, s.forest.size)
  | "statement_block" =>
    if ancestors.head?.any isFunction then (s, scope)
    else (s.enter n scope .block [] true, s.forest.size)
  | "catch_clause" =>
    (s.enter n scope .block (boundNames code (n.childAt? "parameter")) true, s.forest.size)
  | "for_statement" | "for_in_statement" => (s.enter n scope .block [] true, s.forest.size)
  | "variable_declarator" =>
    (s.declareAll scope (boundNames code (n.childAt? "name"))
      (ancestors.head?.any (·.kind == "lexical_declaration")), scope)
  | _ => (s, scope)

mutual

def declare (code : List Char) (ancestors : List Node) (scope : Nat) (s : Scoping) : Node → Scoping
  | .mk h cs =>
    let r := introduce code ancestors scope s (.mk h cs)
    declareAll code (.mk h cs :: ancestors) r.2 r.1 cs

def declareAll (code : List Char) (ancestors : List Node) (scope : Nat) (s : Scoping) :
    List Node → Scoping
  | [] => s
  | n :: ns =>
    declareAll code ancestors scope (if n.named then declare code ancestors scope s n else s) ns

end

end Node

structure Findings where
  references : List Reference := []
  literals : List (Nat × Nat) := []
  effects : Effects := {}
  deriving DecidableEq

def Findings.append (a b : Findings) : Findings where
  references := a.references ++ b.references
  literals := a.literals ++ b.literals
  effects := ⟨a.effects.calls || b.effects.calls, a.effects.targets ++ b.effects.targets⟩

instance : Append Findings := ⟨Findings.append⟩

structure Survey where
  id : String
  code : List Char
  imports : Table ImportSpecifier
  scoping : Scoping

/-- Where the walk is: above, the enclosing scope, whether the code runs later, and the identities of
the identifiers that an enclosing assignment assigns to. -/
structure Outlook where
  ancestors : List Node
  scope : Nat
  deferred : Bool := false
  assigned : List Nat := []

namespace Survey

/-- Imports cannot be assigned to, and neither can members of an imported module; what lies deeper
belongs to the value. -/
def checkTarget (v : Survey) (name : String) (depth scope offset : Nat) : Except Error Unit :=
  if v.scoping.forest.contains scope name then .ok ()
  else
    match v.imports.get? name with
    | none => .ok ()
    | some i =>
      if depth < (if i.name == "*" then 2 else 1) then
        .error (.illegalReassignment v.id name (Location.ofOffset v.code offset))
      else .ok ()

/-- The name that an assignment changes, if it has one, and the identifiers it assigns to. -/
def assignment (v : Survey) (scope : Nat) (left : Node) :
    Except Error (Option String × List Nat) := do
  let (root, depth) := left.target
  match root.kind with
  | "identifier" =>
    let name := root.text v.code
    v.checkTarget name depth scope root.start
    return (some name, if depth = 0 then [root.identity] else [])
  | "object_pattern" | "array_pattern" =>
    root.bound.forM fun n => v.checkTarget (n.text v.code) 0 scope n.start
    return (none, root.bound.map (·.identity))
  | _ => return (none, [])

def reference (v : Survey) (o : Outlook) (n : Node) (accesses : List Access) (shorthand : Bool) :
    Findings where
  references := [{
    name := n.text v.code, start := n.start, stop := n.stop, scope := o.scope, accesses,
    immediate := !o.deferred, reassigns := o.assigned.contains n.identity, shorthand }]

def templateRanges (start stop : Nat) : List Node → List (Nat × Nat)
  | [] => if start < stop then [(start, stop)] else []
  | n :: ns =>
    if n.named && n.kind == "template_substitution" then
      (if start < n.start then [(start, n.start)] else []) ++ templateRanges n.stop stop ns
    else templateRanges start stop ns

def visit (v : Survey) (o : Outlook) (n : Node) : Except Error (Findings × Outlook × Bool) := do
  let scope := (v.scoping.owners.lookup n.identity).getD o.scope
  let deferred := o.deferred || n.defers o.ancestors
  let here : Outlook := { o with scope, deferred }
  let below : Outlook := { here with ancestors := n :: o.ancestors }
  let assigns (field : String) : Except Error (Findings × Outlook × Bool) :=
    match n.childAt? field with
    | none => return ({}, below, true)
    | some left => do
      let (name, assigned) ← v.assignment scope left
      let effects : Effects := if deferred then {} else { targets := [name] }
      return ({ effects }, { below with assigned := assigned ++ o.assigned }, true)
  match n.kind with
  | "comment" => return ({}, below, false)
  | "string" =>
    let literals := if (n.text v.code).contains '\n' then [(n.start + 1, n.stop - 1)] else []
    return ({ literals }, below, false)
  | "template_string" =>
    return ({ literals := templateRanges (n.start + 1) (n.stop - 1) n.children }, below, true)
  | "identifier" =>
    let outside := match o.ancestors with
      | p :: ps => p.namesOutside ps && p.isChildAt "name" n
      | [] => false
    let scope := if outside then (v.scoping.forest.parent? scope).getD scope else scope
    return (v.reference { here with scope } n [] false, below, false)
  | "shorthand_property_identifier" | "shorthand_property_identifier_pattern" =>
    return (v.reference here n [] true, below, false)
  | "member_expression" =>
    match n.chain? v.code with
    | some (root, accesses) => return (v.reference here root accesses false, below, false)
    | none => return ({}, below, true)
  | "export_specifier" =>
    match n.childAt? "name" with
    | some name =>
      return (if name.kind == "identifier" then v.reference here name [] false else {}, below, false)
    | none => return ({}, below, false)
  | "assignment_expression" | "augmented_assignment_expression" => assigns "left"
  | "update_expression" => assigns "argument"
  | "call_expression" | "new_expression" => return ({ effects := { calls := !deferred } }, below, true)
  | _ => return ({}, below, true)

mutual

def collect (v : Survey) (o : Outlook) : Node → Except Error Findings
  | .mk h cs => do
    let (found, below, deeper) ← v.visit o (.mk h cs)
    if deeper then return found ++ (← collectAll v below cs) else return found

def collectAll (v : Survey) (o : Outlook) : List Node → Except Error Findings
  | [] => .ok {}
  | n :: ns => do
    let first ← if n.named then collect v o n else .ok {}
    return first ++ (← collectAll v o ns)

end

end Survey

structure Analysis where
  scope : Nat
  findings : Findings

def Analysis.of (id : String) (code : List Char) (imports : Table ImportSpecifier)
    (forest : ScopeForest) (ancestors : List Node) (n : Node) :
    Except Error (Analysis × ScopeForest) := do
  let root := forest.size
  let scoping := n.declare code ancestors root ⟨forest.add none .statement, []⟩
  let findings ← Survey.collect ⟨id, code, imports, scoping⟩ ⟨ancestors, root, false, []⟩ n
  return (⟨root, findings⟩, scoping.forest)

end Treeshake
