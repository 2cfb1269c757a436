import Treeshake.Assembly
import Treeshake.Output.Exports
/-!
The code of all modules inside the wrapper of a format.
-/
set_option autoImplicit false

namespace Treeshake

/-- What a wrapper needs besides the code. `indent` is put in front of the wrapped lines, `guessed` is
the indentation of the sources. -/
structure Wrapper where
  graph : Graph
  mode : ExportMode
  indent : String
  guessed : String
  options : OutputOptions

namespace Wrapper

def commas (items : List String) : String := ", ".intercalate items

def externals (w : Wrapper) : List External := w.graph.externals

def strict (w : Wrapper) : String := if w.options.useStrict then " 'use strict';" else ""

def name? (w : Wrapper) : Option String := if w.mode == .none then none else w.options.moduleName

def externalNames (w : Wrapper) : List String := w.externals.map (·.name)

def quotedIds (w : Wrapper) : List String := w.externals.map fun e => "'" ++ e.id ++ "'"

def requires (w : Wrapper) : List String := w.externals.map fun e => "require('" ++ e.id ++ "')"

def globalNames (w : Wrapper) : List String :=
  w.externals.map fun e => (w.options.globals.get? e.id).getD e.name

def withExports (w : Wrapper) (item : String) (items : List String) : List String :=
  if w.mode == .named then item :: items else items

def defineParams (id : Option String) (dependencies : List String) : String :=
  (match id with
    | some id => "'" ++ id ++ "', "
    | none => "")
  ++ (if dependencies.isEmpty then "" else "[" ++ commas dependencies ++ "], ")

def prependBlock (text : String) (a : Assembly) : Assembly :=
  if text.isEmpty then a else a.prepend (text ++ "\n\n")

def appendBlock (text : String) (a : Assembly) : Assembly :=
  if text.isEmpty then a else a.append ("\n\n" ++ text)

def body (w : Wrapper) (mechanism : String) (a : Assembly) : Assembly :=
  appendBlock (w.graph.exportBlock w.mode mechanism) (prependBlock w.graph.interopBlock a)

/-- The import statements of an external module. Names cannot be imported together with the whole. -/
def importStatement (g : Graph) (e : External) : String :=
  let named := (e.declarations.filter fun (key, _) => key != "default" && key != "*").map
    fun (key, id) =>
      let name := ((g.declaration? id).map (·.name)).getD key
      if name == key then name else key ++ " as " ++ name
  let clause := r"{ " ++ commas named ++ r" }"
  let whole := (if e.declarations.has "default" then [e.name] else [])
    ++ (if e.declarations.has "*" then ["* as " ++ e.name] else [])
  let statement (clauses : List String) := "import " ++ commas clauses ++ " from '" ++ e.id ++ "';"
  if e.declarations.has "*" && !named.isEmpty then statement whole ++ "\n" ++ statement [clause]
  else if named.isEmpty then
    if whole.isEmpty then "import '" ++ e.id ++ "';" else statement whole
  else statement (whole ++ [clause])

def exportStatements (g : Graph) : String :=
  let named := (g.entryExports.filter fun (name, _) => name != "default").map fun (name, id) =>
    let inner := g.renderName id true
    if inner == name then inner else inner ++ " as " ++ name
  let lines := (if named.isEmpty then [] else [r"export { " ++ commas named ++ r" };"])
    ++ ((g.entryExports.get? "default").map fun id =>
      "export default " ++ g.renderName id true ++ ";").toList
  "\n".intercalate lines

def es6 (w : Wrapper) (a : Assembly) : Assembly :=
  let imports := "\n".intercalate (w.externals.map (importStatement w.graph))
  (appendBlock (exportStatements w.graph) (prependBlock imports a)).trim

def cjs (w : Wrapper) (a : Assembly) : Assembly :=
  let imports := "\n".intercalate (w.externals.map fun e =>
    let require := "var " ++ e.name ++ " = require('" ++ e.id ++ "');"
    match e.interop? with
    | some line => require ++ "\n" ++ line
    | none => require)
  let opening := (if w.options.useStrict then "'use strict';\n\n" else "")
    ++ (if imports.isEmpty then "" else imports ++ "\n\n")
  appendBlock (w.graph.exportBlock w.mode "module.exports =") (a.prepend opening)

def factory (w : Wrapper) : String :=
  "function (" ++ commas (w.withExports "exports" w.externalNames) ++ r") {" ++ w.strict ++ "\n\n"

def amd (w : Wrapper) (a : Assembly) : Assembly :=
  let params := defineParams w.options.moduleId (w.withExports "'exports'" w.quotedIds)
  let inner := (w.body "return" a).indent w.indent
  (inner.append ("\n\n" ++ r"});")).prepend ("define(" ++ params ++ w.factory)

def iife (w : Wrapper) (a : Assembly) : Assembly :=
  let name := w.name?.getD ""
  let arguments := w.withExports ("(this." ++ name ++ " = {})") w.globalNames
  let start := if w.mode == .default then "var " ++ name ++ " = (" else "("
  let inner := (w.body "return" a).indent w.indent
  (inner.prepend (start ++ w.factory)).append ("\n\n" ++ r"})(" ++ commas arguments ++ ");")

def umd (w : Wrapper) (a : Assembly) : Assembly :=
  let name := w.name?.getD ""
  let params := defineParams w.options.moduleId (w.withExports "'exports'" w.quotedIds)
  let globals := w.withExports ("(global." ++ name ++ " = {})")
    (w.globalNames.map ("global." ++ ·))
  let (cjsExport, globalExport) :=
    if w.mode == .default then ("module.exports = ", "global." ++ name ++ " = ") else ("", "")
  let opening := r"(function (global, factory) {" ++ "\n"
    ++ w.guessed ++ "typeof exports === 'object' && typeof module !== 'undefined' ? " ++ cjsExport
    ++ "factory(" ++ commas (w.withExports "exports" w.requires) ++ ") :\n"
    ++ w.guessed ++ "typeof define === 'function' && define.amd ? define(" ++ params ++ "factory) :\n"
    ++ w.guessed ++ globalExport ++ "factory(" ++ commas globals ++ ");\n"
    ++ r"}(this, " ++ w.factory
  let inner := (w.body "return" a).trim.indent w.indent
  (inner.append ("\n\n" ++ r"}));")).prepend opening

def wrap (w : Wrapper) (a : Assembly) : Assembly :=
  match w.options.format with
  | .es6 => w.es6 a
  | .cjs => w.cjs a
  | .amd => w.amd a
  | .iife => w.iife a
  | .umd => w.umd a

end Wrapper

end Treeshake
