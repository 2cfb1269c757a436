import Treeshake.Draft.Indent
import Treeshake.Graph.Names
/-!
The text of a module in the output: without what is not included and without module syntax, and with
every reference under the name of its declaration.
-/
set_option autoImplicit false

namespace Treeshake.Graph

/-- Outside the module format, an export that is assigned to has no binding but its export. -/
def exportsBinding (g : Graph) (m : LinkedModule) (name : Option String) (es6 : Bool) : Bool :=
  !es6 && ((name.bind m.declarations.get?).bind g.declaration?).any fun d => d.exported && d.reassigned

def isRedundant (g : Graph) (m : LinkedModule) (s : Statement) : Bool :=
  match s.kind with
  | .exportDefault _ form =>
    form != .declaration
      && ((m.declarations.get? "default").bind g.declaration?).any g.isReplaced
  | _ => false

def substitute (d : Draft) (r : Reference) (name : String) : Except EditFault Draft :=
  if r.shorthand then d.insert r.stop (": " ++ name) else d.overwrite r.start r.stop name true

def newName? (g : Graph) (es6 : Bool) (r : Reference) : Option String :=
  r.declaration?.bind fun id =>
    let name := g.renderName id es6
    if r.name == name && name.utf8ByteSize == r.stop - r.start then none else some name

def leadingIdentifier (name : String) : String := String.ofList (name.toList.takeWhile (· != '.'))

def captured (g : Graph) (m : LinkedModule) (es6 : Bool) (references : List Reference) : List String :=
  references.filterMap fun r =>
    (g.newName? es6 r).bind fun name =>
      let identifier := leadingIdentifier name
      if m.scopes.containsLocal r.scope identifier then some identifier else none

/-- New names for the references of a statement, and then for the local names that would capture one. -/
def replaceReferences (g : Graph) (m : LinkedModule) (es6 : Bool) (s : Statement) (d : Draft) :
    Except EditFault Draft := do
  let d ← s.references.foldlM
    (fun d r =>
      match g.newName? es6 r with
      | some name => substitute d r name
      | none => .ok d) d
  let capturing := g.captured m es6 s.references
  s.references.foldlM
    (fun d r =>
      if (g.newName? es6 r).isNone && capturing.contains r.name then substitute d r (r.name ++ "$$")
      else .ok d) d

/-- The start of a default export's text: nothing for a declaration, a name for a function without one,
and a variable for an expression whose value is used. -/
def renderDefault (g : Graph) (m : LinkedModule) (es6 : Bool) (s : Statement) (declarationStart : Nat)
    (form : DefaultForm) (d : Draft) : Except EditFault Draft :=
  if form == .declaration then d.remove s.nodeStart declarationStart
  else
    match m.declarations.get? "default" with
    | none => .ok d
    | some id =>
      if !(g.declaration? id).any fun x => x.exported || x.used then d.remove s.start declarationStart
      else
        let name := g.renderName id es6
        match form with
        | .anonymousFunction headEnd =>
          let head := Text.slice declarationStart headEnd m.code
          d.overwrite s.nodeStart headEnd (head ++ " " ++ name) false
        | _ => d.overwrite s.nodeStart declarationStart ("var " ++ name ++ " = ") false

def renderDeclarator (d : Draft) (s : Statement) (keyword : Option String) (separatorEnd : Nat)
    (last : Bool) : Except EditFault Draft := do
  let d ← match keyword with
    | some keyword => d.insert s.start (keyword ++ " ")
    | none => .ok d
  let terminator := if last then ";" else ";\n"
  if s.stop = separatorEnd then d.insert s.stop terminator
  else d.overwrite s.stop separatorEnd terminator false

def renderStatement (g : Graph) (m : LinkedModule) (es6 : Bool) (d : Draft) (s : Statement) :
    Except EditFault Draft := do
  let d := s.literals.foldl (fun d r => d.protect r.1 r.2) d
  match s.kind with
  | .importing | .exportClause | .reexport => d.remove s.start s.next
  | .declarator keyword name separatorEnd last =>
    let keyword := if g.exportsBinding m name es6 then none else some keyword
    g.replaceReferences m es6 s (← renderDeclarator d s keyword separatorEnd last)
  | .exportDeclaration declarationStart declaratorStart name =>
    let d ← g.replaceReferences m es6 s d
    let bare := declaratorStart.filter fun _ => g.exportsBinding m name es6
    d.remove s.nodeStart (bare.getD declarationStart)
  | .exportDefault declarationStart form =>
    g.renderDefault m es6 s declarationStart form (← g.replaceReferences m es6 s d)
  | .variable | .other => g.replaceReferences m es6 s d

/-- A member of a module's object: read anew at each access if its binding is assigned to. -/
def renderMember (g : Graph) (es6 : Bool) (indent : String) (member : String × Nat) : String :=
  let (name, id) := member
  let value := g.renderName id es6
  if g.isReassigned id then indent ++ "get " ++ name ++ r" () { return " ++ value ++ r"; }"
  else indent ++ name ++ ": " ++ value

def renderObject? (g : Graph) (m : LinkedModule) (es6 : Bool) : Option String :=
  match m.object.bind g.declaration? with
  | some { name, kind := .object _ members true, used := true, .. } =>
    let lines := members.map (g.renderMember es6 m.draft.indentUnit)
    some ("\n\nvar " ++ name ++ r" = {" ++ "\n" ++ ",\n".intercalate lines ++ "\n" ++ r"};" ++ "\n\n")
  | _ => none

def renderModule (g : Graph) (module : Nat) (es6 : Bool) : Except EditFault Draft := do
  match g.modules[module]? with
  | none => return Draft.ofText ""
  | some m =>
    let d ← m.statements.foldlM
      (fun d s =>
        if !s.included || g.isRedundant m s then d.remove s.start s.next
        else g.renderStatement m es6 d s) m.draft
    let d := match g.renderObject? m es6 with
      | some text => d.append text
      | none => d
    return d.trim

end Treeshake.Graph
