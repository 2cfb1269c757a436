import Treeshake.Command.Flag
import Treeshake.Output.Options
/-!
What the command line can ask for: a bundle, or the first configuration of a project.
-/
set_option autoImplicit false

namespace Treeshake

/-- A bundle to make; what is not given is left to the configuration. -/
structure BundleRequest where
  entry : Option String := none
  format : Option Format := none
  dest : Option String := none
  moduleName : Option String := none
  moduleId : Option String := none
  exports : Option ExportSetting := none
  external : List String := []
  globals : Table String := []
  map : Option MapSetting := none
  banner : Option String := none
  footer : Option String := none
  intro : Option String := none
  outro : Option String := none
  noIndent : Bool := false
  noStrict : Bool := false
  deriving DecidableEq

inductive Task where
  | bundle (r : BundleRequest)
  | init (force : Bool)
  deriving DecidableEq

def Task.name : Task → String
  | .bundle _ => "bundle"
  | .init _ => "init"

structure Request where
  verbose : Bool := false
  json : Bool := false
  config : Option String := none
  task : Task
  deriving DecidableEq

def globalOf? (text : String) : Option (String × String) :=
  let cs := text.toList
  let id := cs.takeWhile (· != '=')
  let name := cs.drop (id.length + 1)
  if id.isEmpty || name.isEmpty then none else some (String.ofList id, String.ofList name)

def mapNamed? (text : String) : Option MapSetting :=
  (MapSetting.named? text).filter (· != .none)

namespace Request

def helpFlag : Flag := { long := "help", short := some 'h' }

def commonFlags : List Flag :=
  [{ long := "verbose", short := some 'v' }, { long := "json" },
    { long := "config", short := some 'c', value := .one, accepts := fun v => !v.isEmpty }, helpFlag]

def topFlags : List Flag := { long := "version", short := some 'V' } :: commonFlags

def bundleFlags : List Flag :=
  [{ long := "format", short := some 'f', value := .one, accepts := fun v => (Format.named? v).isSome },
    { long := "output", short := some 'o', value := .one },
    { long := "name", short := some 'n', value := .one },
    { long := "id", value := .one },
    { long := "exports", value := .one, accepts := fun v => (ExportSetting.named? v).isSome },
    { long := "external", short := some 'e', value := .one, repeatable := true },
    { long := "global", short := some 'g', value := .one, repeatable := true
      accepts := fun v => (globalOf? v).isSome },
    { long := "sourcemap", short := some 'm', value := .optional
      accepts := fun v => (mapNamed? v).isSome },
    { long := "banner", value := .one }, { long := "footer", value := .one },
    { long := "intro", value := .one }, { long := "outro", value := .one },
    { long := "no-indent" }, { long := "no-strict" }] ++ commonFlags

def initFlags : List Flag := { long := "force" } :: commonFlags

def bundleOf (g : Given) : BundleRequest where
  entry := g.words.head?
  format := (g.value? "format").bind Format.named?
  dest := g.value? "output"
  moduleName := g.value? "name"
  moduleId := g.value? "id"
  exports := (g.value? "exports").bind ExportSetting.named?
  external := g.values "external"
  globals := (g.values "global").filterMap globalOf?
  map := if g.has "sourcemap" then some (((g.value? "sourcemap").bind mapNamed?).getD .file) else none
  banner := g.value? "banner"
  footer := g.value? "footer"
  intro := g.value? "intro"
  outro := g.value? "outro"
  noIndent := g.has "no-indent"
  noStrict := g.has "no-strict"

/-- A task with what both sides of the command say; the side behind it has the last word. -/
def ofGiven (top sub : Given) (task : Task) : Request where
  verbose := top.has "verbose" || sub.has "verbose"
  json := top.has "json" || sub.has "json"
  config := (sub.value? "config").or (top.value? "config")
  task

def commandNames : List String := ["bundle", "init", "help"]

def helpOn : List String → Halt
  | [] => .help
  | ["help", name] | [name] =>
    if commandNames.contains name then .help else .usage (.unknownCommand name)
  | _ :: name :: _ => .usage (.unknownCommand name)

def parse (arguments : List String) : Except Halt Request := do
  let top ← Given.collect 0 {} (Argument.read topFlags true false arguments)
  match top.command with
  | none => throw (.usage .missingCommand)
  | some ("bundle", rest) =>
    let g ← Given.collect 1 {} (Argument.read bundleFlags false false rest)
    return ofGiven top g (.bundle (bundleOf g))
  | some ("init", rest) =>
    let g ← Given.collect 0 {} (Argument.read initFlags false false rest)
    return ofGiven top g (.init (g.has "force"))
  | some ("help", rest) => throw (helpOn rest)
  | some (name, _) => throw (.usage (.unknownCommand name))

end Request

def BundleRequest.apply (r : BundleRequest) (o : OutputOptions) : OutputOptions :=
  { o with
    format := r.format.getD o.format
    exports := r.exports.getD o.exports
    dest := r.dest.or o.dest
    moduleName := r.moduleName.or o.moduleName
    moduleId := r.moduleId.or o.moduleId
    globals := r.globals.foldl (fun t (id, name) => t.insert id name) o.globals
    map := r.map.getD o.map
    banner := r.banner.or o.banner
    footer := r.footer.or o.footer
    intro := r.intro.or o.intro
    outro := r.outro.or o.outro
    indent := if r.noIndent then .none else o.indent
    useStrict := !r.noStrict && o.useStrict }

end Treeshake
