import Treeshake.Draft.Basic
import Treeshake.Module.Statement
/-!
The top level of a module: its statements, its imports and its exports.
-/
set_option autoImplicit false

namespace Treeshake

structure ExportSpecifier where
  localName : String
  identifier : Option String
  start : Nat
  deriving DecidableEq, Repr

/-- An export of what another module exports, a star for that module as a whole. -/
structure Reexport where
  source : String
  localName : String
  start : Nat
  deriving DecidableEq, Repr

/-- A statement with the node that its analysis walks, and what stands above the node. -/
structure Piece where
  statement : Statement
  walked : Option (Node × List Node)

/-- What the statements read so far give. Text that no statement keeps is removed from the draft. -/
structure Outline where
  draft : Draft
  pieces : List Piece := []
  imports : Table ImportSpecifier := []
  exports : Table ExportSpecifier := []
  reexports : Table Reexport := []
  starSources : List String := []
  sources : List String := []

def unquote (text : String) : String :=
  let isQuote (c : Char) : Bool := c == '\'' || c == '"'
  match text.toList with
  | c :: cs =>
    if isQuote c && cs.getLast?.any isQuote then String.ofList cs.dropLast else text
  | [] => text

namespace Node

def declarators (n : Node) : List Node := n.namedChildren.filter (·.kind == "variable_declarator")

def sourceText? (code : List Char) (n : Node) : Option String :=
  (n.childAt? "source").map fun s => unquote (s.text code)

def plainName? (code : List Char) (n : Node) : Option String :=
  ((n.childAt? "name").filter (·.kind == "identifier")).map (text code)

def importSpecifiers (code : List Char) (part : Node) : List (String × String × Nat) :=
  match part.kind with
  | "identifier" => [(part.text code, "default", part.start)]
  | "namespace_import" =>
    (part.namedChildren.head?.map fun n => (n.text code, "*", part.start)).toList
  | "named_imports" =>
    (part.namedChildren.filter (·.kind == "import_specifier")).filterMap fun s => do
      let imported := unquote ((← s.childAt? "name").text code)
      return (((s.childAt? "alias").map (text code)).getD imported, imported, s.start)
  | _ => []

def exportSpecifiers (code : List Char) (clause : Node) : List (String × String × Nat) :=
  (clause.namedChildren.filter (·.kind == "export_specifier")).filterMap fun s => do
    let localName := unquote ((← s.childAt? "name").text code)
    return (localName, ((s.childAt? "alias").map fun a => unquote (a.text code)).getD localName,
      s.start)

def headEnd (n : Node) : Nat :=
  (((n.children.filter fun c => c.kind == "function" || c.kind == "*").map (·.stop)).max?).getD n.start

end Node

structure Reading where
  id : String
  code : List Char
  tree : SyntaxTree

namespace Reading

def place (r : Reading) (offset : Nat) : Location := Location.ofOffset r.code offset

def piece (kind : StatementKind) (n : Node) (start : Nat) (walked : Option (Node × List Node)) :
    Piece :=
  ⟨{ kind, start, stop := n.stop, next := n.stop, nodeStart := n.start }, walked⟩

def push (o : Outline) (kind : StatementKind) (n : Node) (start : Nat)
    (walked : Option (Node × List Node)) : Outline :=
  { o with pieces := o.pieces ++ [piece kind n start walked] }

def addSource (o : Outline) (source : String) : Outline :=
  { o with sources := addNew source o.sources }

def addImport (r : Reading) (source : String) (o : Outline) (s : String × String × Nat) :
    Except Error Outline :=
  let (localName, name, start) := s
  if o.imports.has localName then .error (.duplicateImport r.id localName (r.place start))
  else .ok { o with imports := o.imports ++ [(localName, ⟨source, name, start⟩)] }

def checkExport (r : Reading) (o : Outline) (exported : String) (start : Nat) : Except Error Unit :=
  if o.exports.has exported || o.reexports.has exported then
    .error (.duplicateExport r.id exported (r.place start))
  else .ok ()

def addExport (r : Reading) (o : Outline) (exported : String) (specifier : ExportSpecifier) :
    Except Error Outline := do
  r.checkExport o exported specifier.start
  return { o with exports := o.exports ++ [(exported, specifier)] }

def addReexport (r : Reading) (o : Outline) (exported : String) (reexport : Reexport) :
    Except Error Outline := do
  r.checkExport o exported reexport.start
  return { o with reexports := o.reexports ++ [(exported, reexport)] }

def addOwnExports (r : Reading) (o : Outline) (names : List String) (start : Nat) :
    Except Error Outline :=
  names.foldlM (fun o name => r.addExport o name ⟨name, none, start⟩) o

def importing (r : Reading) (o : Outline) (n : Node) : Except Error Outline :=
  match n.sourceText? r.code with
  | none => .ok o
  | some source =>
    let parts := (n.namedChildren.filter (·.kind == "import_clause")).flatMap (·.namedChildren)
    (parts.flatMap (Node.importSpecifiers r.code)).foldlM (r.addImport source) (addSource o source)

/-- One statement for each declarator. What stands in front of the first is removed at once. -/
def splitDeclarators (r : Reading) (o : Outline) (declaration : Node) (ancestors : List Node)
    (removeFrom : Nat) (exported : Bool) : Except Error Outline := do
  let keyword := match declaration.children with
    | k :: _ => k.text r.code
    | [] => "var"
  let draft ← match declaration.declarators with
    | d :: _ => Error.ofEdit (o.draft.remove removeFrom d.start)
    | [] => .ok o.draft
  let rec go (o : Outline) : List Node → Except Error Outline
    | [] => .ok o
    | d :: ds => do
      let separatorEnd := (ds.head?.map (·.start)).getD declaration.stop
      let o ← if exported then
          r.addOwnExports o (Node.boundNames r.code (d.childAt? "name")) removeFrom
        else .ok o
      let kind := StatementKind.declarator keyword (d.plainName? r.code) separatorEnd ds.isEmpty
      go (push o kind d d.start (some (d, declaration :: ancestors))) ds
  go { o with draft } declaration.declarators

def reexporting (r : Reading) (o : Outline) (n : Node) (source : String) (start : Nat) :
    Except Error Outline := do
  let step (o : Outline) (child : Node) : Except Error Outline :=
    match child.kind with
    | "namespace_export" =>
      match child.namedChildren with
      | name :: _ => r.addReexport o (unquote (name.text r.code)) ⟨source, "*", child.start⟩
      | [] => .ok o
    | "export_clause" =>
      (child.exportSpecifiers r.code).foldlM
        (fun o (localName, exported, start) => r.addReexport o exported ⟨source, localName, start⟩) o
    | _ => .ok o
  let o ← n.namedChildren.foldlM step (addSource o source)
  let isStar := !n.namedChildren.any fun c => c.kind == "namespace_export" || c.kind == "export_clause"
  return push { o with starSources := if isStar then o.starSources ++ [source] else o.starSources }
    .reexport n start none

def defaultForm (r : Reading) (isDeclaration : Bool) (n : Node) : DefaultForm × Option String :=
  let name := (n.childAt? "name").map (Node.text r.code)
  if isDeclaration || ((n.isFunctionExpression || n.kind == "class") && name.isSome) then
    (.declaration, name)
  else if n.isFunctionExpression then (.anonymousFunction n.headEnd, none)
  else if n.kind == "identifier" then (.expression, some (n.text r.code))
  else (.expression, none)

def exportingDefault (r : Reading) (o : Outline) (n : Node) (start : Nat) : Except Error Outline := do
  let declaration := n.childAt? "declaration"
  match declaration.or (n.childAt? "value") with
  | none => return o
  | some target =>
    let (form, identifier) := r.defaultForm declaration.isSome target
    let o ← r.addExport o "default" ⟨"default", identifier, n.start⟩
    return push o (.exportDefault target.start form) n start (some (n, [r.tree.root]))

def exportingDeclaration (r : Reading) (o : Outline) (n declaration : Node) (start : Nat) :
    Except Error Outline := do
  let pushed (o : Outline) (declaratorStart : Option Nat) (name : Option String) :=
    push o (.exportDeclaration declaration.start declaratorStart name) n start
      (some (n, [r.tree.root]))
  if declaration.kind == "lexical_declaration" || declaration.kind == "variable_declaration" then
    match declaration.declarators with
    | [] => return pushed o none none
    | [d] =>
      let o ← r.addOwnExports o (Node.boundNames r.code (d.childAt? "name")) n.start
      return pushed o (some d.start) (d.plainName? r.code)
    | _ => r.splitDeclarators o declaration [n, r.tree.root] n.start true
  else
    let name := (declaration.childAt? "name").map (Node.text r.code)
    return pushed (← r.addOwnExports o name.toList n.start) none name

def exporting (r : Reading) (o : Outline) (n : Node) (start : Nat) : Except Error Outline := do
  match n.sourceText? r.code with
  | some source => r.reexporting o n source start
  | none =>
    if n.children.any (·.kind == "default") then r.exportingDefault o n start
    else
      match n.childAt? "declaration" with
      | some declaration => r.exportingDeclaration o n declaration start
      | none =>
        let clauses := n.namedChildren.filter (·.kind == "export_clause")
        let o ← (clauses.flatMap (Node.exportSpecifiers r.code)).foldlM
          (fun o (localName, exported, start) => r.addExport o exported ⟨localName, none, start⟩) o
        return push o .exportClause n start (some (n, [r.tree.root]))

def statement (r : Reading) (o : Outline) (n : Node) (start : Nat) : Except Error Outline :=
  match n.kind with
  | "import_statement" => do return push (← r.importing o n) .importing n start none
  | "export_statement" => r.exporting o n start
  | "lexical_declaration" | "variable_declaration" =>
    if 1 < n.declarators.length then r.splitDeclarators o n [r.tree.root] n.start false
    else .ok (push o .variable n start (some (n, [r.tree.root])))
  | _ => .ok (push o .other n start (some (n, [r.tree.root])))

def lineEnd (code : List Char) (offset : Nat) : Nat :=
  let rest := (Text.after? offset code).getD []
  let line := rest.takeWhile (· != '\n')
  offset + Text.size line + (if line.length < rest.length then 1 else 0)

/-- The statements from a node on. `row` is the row in which the node before ended, `comment` where
the comments start that go with the next statement: the first comment on a later row and those after
it. -/
def outlineFrom (r : Reading) (row : Option Nat) (comment : Option Nat) (o : Outline) :
    List Node → Except Error Outline
  | [] => .ok o
  | n :: ns =>
    match n.kind with
    | "hash_bang_line" => do
      let draft ← Error.ofEdit (o.draft.remove n.start (lineEnd r.code n.stop))
      outlineFrom r (some (r.tree.row n.stop)) comment { o with draft } ns
    | "comment" =>
      let leads := comment.isNone && row.all (· < r.tree.row n.start)
      outlineFrom r row (if leads then some n.start else comment) o ns
    | "empty_statement" => outlineFrom r row comment o ns
    | _ => do
      let o ← r.statement o n (comment.getD n.start)
      outlineFrom r (some (r.tree.row n.stop)) none o ns

def outline (r : Reading) (draft : Draft) : Except Error Outline :=
  r.outlineFrom none none { draft } r.tree.root.namedChildren

end Reading

end Treeshake
