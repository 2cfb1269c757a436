import Treeshake.Module.Split
import Treeshake.Path
import Treeshake.SourceMap.Basic
import Treeshake.Text.Identifier
/-!
Modules: their text, their statements, and what they import, export and declare.
-/
set_option autoImplicit false

namespace Treeshake

/-- The text of a module after its transforms, the text they began with, their maps in order, and a
tree of the text if there is one already. -/
structure Source where
  code : String
  firstCode : String
  tree : Option SyntaxTree := none
  maps : List (Option SourceMap) := []

structure TopBinding where
  key : String
  name : String
  statement : Option Nat
  deriving DecidableEq, Repr

structure Module where
  id : String
  code : List Char
  firstCode : String
  maps : List (Option SourceMap)
  draft : Draft
  statements : List Statement
  scopes : ScopeForest
  imports : Table ImportSpecifier
  exports : Table ExportSpecifier
  reexports : Table Reexport
  starSources : List String
  sources : List String
  bindings : List TopBinding

namespace Module

def idName (id : String) : String :=
  let base := Path.basename id
  Identifier.ofText (String.ofList (base.toList.take (base.length - (Path.extension base).length)))

def baseName (m : Module) : String := idName m.id

/-- The characters of a comment that names a source map, at the start of a text: the mark, blanks, the
name, and the rest of the line, which is not empty. -/
def mapComment? (cs : List Char) : Option (List Char) :=
  if "//#".toList.isPrefixOf cs then
    let rest := cs.drop 3
    let blanks := rest.takeWhile Text.isBlank
    let name := "sourceMappingURL=".toList
    let tail := rest.drop blanks.length
    if !blanks.isEmpty && name.isPrefixOf tail then
      let line := (tail.drop name.length).takeWhile (· != '\n')
      if line.isEmpty then none
      else
        let length := 3 + blanks.length + name.length + line.length
        some (cs.take (if length < cs.length then length + 1 else length))
    else none
  else none

def mapComments : Nat → Nat → List Char → List (Nat × Nat)
  | _, _, [] => []
  | skip + 1, offset, c :: cs => mapComments skip (offset + c.utf8Size) cs
  | 0, offset, c :: cs =>
    match mapComment? (c :: cs) with
    | some found =>
      (offset, offset + Text.size found) :: mapComments (found.length - 1) (offset + c.utf8Size) cs
    | none => mapComments 0 (offset + c.utf8Size) cs

/-- A module's draft before its statements are read: without such comments, and with segments of its
map at both ends of every named node. -/
def startDraft (code : String) (root : Node) : Except EditFault Draft := do
  let draft ← (mapComments 0 0 code.toList).foldlM (fun d r => d.remove r.1 r.2) (Draft.ofText code)
  return (root.nodes.filter (·.named)).foldl (fun d n => (d.anchor n.start).anchor n.stop) draft

def analyse (id : String) (code : List Char) (imports : Table ImportSpecifier)
    (forest : ScopeForest) : List Piece → Except Error (List Statement × ScopeForest)
  | [] => .ok ([], forest)
  | p :: ps =>
    match p.walked with
    | none => do
      let (rest, forest) ← analyse id code imports forest ps
      return (p.statement :: rest, forest)
    | some (n, ancestors) => do
      let (a, forest) ← Analysis.of id code imports forest ancestors n
      let statement := { p.statement with
        scope := some a.scope, references := a.findings.references
        literals := a.findings.literals, effects := a.findings.effects }
      let (rest, forest) ← analyse id code imports forest ps
      return (statement :: rest, forest)

def namesFrom (scopes : ScopeForest) (found : List TopBinding) :
    Nat → List Statement → List TopBinding
  | _, [] => found
  | index, s :: rest =>
    let names := (s.scope.map scopes.names).getD []
    namesFrom scopes
      (names.foldl (fun found name =>
        if found.any (·.key == name) then found else found ++ [⟨name, name, some index⟩]) found)
      (index + 1) rest

/-- The default export among the bindings, named for what it stands for or for the module. -/
def defaultBinding (id : String) (statements : List Statement) (exports : Table ExportSpecifier) :
    List TopBinding :=
  ((exports.get? "default").map fun e =>
    ⟨"default", e.identifier.getD (idName id), statements.findIdx? (·.isDefault)⟩).toList

/-- The tree that came with a source, if it fits its text, or else the one the grammar finds. -/
def treeOf (grammar : Grammar) (id : String) (source : Source) : Except Error SyntaxTree :=
  match source.tree with
  | some t =>
    if t.root.stop ≤ Text.size source.code.toList then t.validate id source.code.toList
    else grammar.parse id source.code
  | none => grammar.parse id source.code

def parse (grammar : Grammar) (id : String) (source : Source) : Except Error Module := do
  let code := source.code.toList
  let tree ← treeOf grammar id source
  let draft ← Error.ofEdit (startDraft source.code tree.root)
  let outline ← Reading.outline ⟨id, code, tree⟩ draft
  let (statements, scopes) ← analyse id code outline.imports {} outline.pieces
  return {
    id, code
    firstCode := source.firstCode
    maps := source.maps
    draft := outline.draft
    statements := Statement.chain (Text.size code) statements
    scopes
    imports := outline.imports
    exports := outline.exports
    reexports := outline.reexports
    starSources := outline.starSources
    sources := outline.sources
    bindings := namesFrom scopes [] 0 statements ++ defaultBinding id statements outline.exports }

end Module

end Treeshake
