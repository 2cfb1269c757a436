import Treeshake.Fetch.Package
import Treeshake.Output.Options
import Treeshake.Toml.Printer
/-!
The file that holds the options of a project.
-/
set_option autoImplicit false

namespace Treeshake

inductive ConfigMap where
  | flag (wanted : Bool)
  | inline
  deriving DecidableEq, Repr

inductive ConfigIndent where
  | flag (wanted : Bool)
  | unit (text : String)
  deriving DecidableEq, Repr

structure InputConfig where
  entry : Option String := none
  external : List String := []
  mainFields : Option (List String) := none
  deriving DecidableEq

structure OutputConfig where
  format : Option Format := none
  dest : Option String := none
  exports : Option ExportSetting := none
  moduleName : Option String := none
  moduleId : Option String := none
  globals : Table String := []
  banner : Option String := none
  footer : Option String := none
  intro : Option String := none
  outro : Option String := none
  indent : Option ConfigIndent := none
  useStrict : Option Bool := none
  map : Option ConfigMap := none
  mapFile : Option String := none
  deriving DecidableEq

structure Config where
  input : InputConfig := {}
  output : OutputConfig := {}
  deriving DecidableEq

namespace ConfigMap

def setting : ConfigMap → MapSetting
  | .flag wanted => if wanted then .file else .none
  | .inline => .inline

def ofToml? : Toml → Option ConfigMap
  | .bool b => some (.flag b)
  | .string s => if s == "inline" then some .inline else none
  | _ => none

def toToml : ConfigMap → Toml
  | .flag wanted => .bool wanted
  | .inline => .string "inline"

def toJson : ConfigMap → Json
  | .flag wanted => .bool wanted
  | .inline => .string "inline"

end ConfigMap

namespace ConfigIndent

def setting : ConfigIndent → IndentSetting
  | .flag wanted => if wanted then .auto else .none
  | .unit text => .unit text

def ofToml? : Toml → Option ConfigIndent
  | .bool b => some (.flag b)
  | .string s => some (.unit s)
  | _ => none

def toToml : ConfigIndent → Toml
  | .flag wanted => .bool wanted
  | .unit text => .string text

def toJson : ConfigIndent → Json
  | .flag wanted => .bool wanted
  | .unit text => .string text

end ConfigIndent

namespace Config

/-- The fields of a record: those of a table by their names, or the items of an array by their places.
What has no name here is not looked at. -/
def fields? (names : List String) (v : Toml) : Option (Table Toml) :=
  match v.members?, v.items? with
  | some ms, _ => some (ms.filter fun (k, _) => names.contains k)
  | none, some items => some (names.zip items)
  | none, none => none

def field? {α : Type} (fields : Table Toml) (read : Toml → Option α) (initial : α) (name : String) :
    Option α :=
  match fields.get? name with
  | none => some initial
  | some v => read v

def setField? {α : Type} (fields : Table Toml) (read : Toml → Option α) (name : String) :
    Option (Option α) :=
  field? fields (fun v => (read v).map some) none name

/-- A choice is the text of its name, or a table with that name as its one key and nothing under it. -/
def choice? {α : Type} (named? : String → Option α) : Toml → Option α
  | .string s => named? s
  | .table _ [(key, v)] =>
    if (v.items?.any (·.isEmpty)) || (v matches .table _ []) then named? key else none
  | _ => none

def strings? (v : Toml) : Option (List String) := v.items?.bind (·.mapM Toml.string?)

def globals? (v : Toml) : Option (Table String) :=
  v.members?.bind (·.mapM fun (k, v) => v.string?.map fun s => (k, s))

end Config

namespace InputConfig

def names : List String := ["entry", "external", "main_fields"]

def ofToml? (v : Toml) : Option InputConfig := do
  let fields ← Config.fields? names v
  return {
    entry := ← Config.setField? fields Toml.string? "entry"
    external := ← Config.field? fields Config.strings? [] "external"
    mainFields := ← Config.setField? fields Config.strings? "main_fields" }

def toToml (c : InputConfig) : Table Toml :=
  let strings (ss : List String) : Toml := .array (ss.map .string)
  (c.entry.map fun s => ("entry", Toml.string s)).toList
    ++ (if c.external.isEmpty then [] else [("external", strings c.external)])
    ++ (c.mainFields.map fun ss => ("main_fields", strings ss)).toList

def toJson (c : InputConfig) : Json :=
  .object ([("entry", Json.ofOption c.entry)]
    ++ (if c.external.isEmpty then [] else [("external", Json.ofStrings c.external)])
    ++ [("main_fields", (c.mainFields.map Json.ofStrings).getD .null)])

/-- What the default resolver goes by, with more externals from elsewhere. -/
def packages (c : InputConfig) (cwd : String) (more : List String) : PackageOptions where
  cwd
  external := c.external ++ more
  mainFields := c.mainFields.getD Package.defaultMainFields

end InputConfig

namespace OutputConfig

def names : List String :=
  ["format", "dest", "exports", "module_name", "module_id", "globals", "banner", "footer", "intro",
    "outro", "indent", "use_strict", "sourcemap", "sourcemap_file"]

def ofToml? (v : Toml) : Option OutputConfig := do
  let fields ← Config.fields? names v
  let text := Config.setField? fields Toml.string?
  return {
    format := ← Config.setField? fields (Config.choice? Format.named?) "format"
    dest := ← text "dest"
    exports := ← Config.setField? fields (Config.choice? ExportSetting.named?) "exports"
    moduleName := ← text "module_name"
    moduleId := ← text "module_id"
    globals := ← Config.field? fields Config.globals? [] "globals"
    banner := ← text "banner"
    footer := ← text "footer"
    intro := ← text "intro"
    outro := ← text "outro"
    indent := ← Config.setField? fields ConfigIndent.ofToml? "indent"
    useStrict := ← Config.setField? fields Toml.bool? "use_strict"
    map := ← Config.setField? fields ConfigMap.ofToml? "sourcemap"
    mapFile := ← text "sourcemap_file" }

def toToml (c : OutputConfig) : Table Toml :=
  let line {α : Type} (name : String) (write : α → Toml) (value : Option α) : Table Toml :=
    (value.map fun v => (name, write v)).toList
  line "format" (fun f : Format => .string f.name) c.format
    ++ line "dest" .string c.dest
    ++ line "exports" (fun e : ExportSetting => .string e.name) c.exports
    ++ line "module_name" .string c.moduleName
    ++ line "module_id" .string c.moduleId
    ++ line "banner" .string c.banner
    ++ line "footer" .string c.footer
    ++ line "intro" .string c.intro
    ++ line "outro" .string c.outro
    ++ line "indent" ConfigIndent.toToml c.indent
    ++ line "use_strict" .bool c.useStrict
    ++ line "sourcemap" ConfigMap.toToml c.map
    ++ line "sourcemap_file" .string c.mapFile

def toJson (c : OutputConfig) : Json :=
  .object ([("format", Json.ofOption (c.format.map (·.name))), ("dest", Json.ofOption c.dest),
      ("exports", Json.ofOption (c.exports.map (·.name))),
      ("module_name", Json.ofOption c.moduleName), ("module_id", Json.ofOption c.moduleId)]
    ++ (if c.globals.isEmpty then []
      else [("globals", .object (c.globals.map fun (k, v) => (k, .string v)))])
    ++ [("banner", Json.ofOption c.banner), ("footer", Json.ofOption c.footer),
      ("intro", Json.ofOption c.intro), ("outro", Json.ofOption c.outro),
      ("indent", (c.indent.map ConfigIndent.toJson).getD .null),
      ("use_strict", (c.useStrict.map Json.bool).getD .null),
      ("sourcemap", (c.map.map ConfigMap.toJson).getD .null),
      ("sourcemap_file", Json.ofOption c.mapFile)])

def options (c : OutputConfig) : OutputOptions where
  format := c.format.getD .es6
  exports := c.exports.getD .auto
  moduleName := c.moduleName
  moduleId := c.moduleId
  globals := c.globals
  banner := c.banner
  footer := c.footer
  intro := c.intro
  outro := c.outro
  indent := (c.indent.map ConfigIndent.setting).getD .auto
  useStrict := c.useStrict.getD true
  map := (c.map.map ConfigMap.setting).getD .none
  mapFile := c.mapFile
  dest := c.dest

end OutputConfig

namespace Config

def starter : Config where
  input := { entry := some "src/main.js" }
  output := { format := some .es6, dest := some "dist/bundle.js", map := some (.flag true) }

def parse? (text : String) : Option Config := do
  let fields ← fields? ["input", "output"] (.table .header (← Toml.parse? text))
  return {
    input := ← field? fields InputConfig.ofToml? {} "input"
    output := ← field? fields OutputConfig.ofToml? {} "output" }

/-- The output goes without a header of its own if it holds nothing but globals. -/
def sections (c : Config) : List Toml.Section :=
  let values := c.output.toToml
  let globals := c.output.globals.map fun (k, v) => (k, Toml.string v)
  [⟨["input"], c.input.toToml⟩]
    ++ (if values.isEmpty && !globals.isEmpty then [] else [⟨["output"], values⟩])
    ++ (if globals.isEmpty then [] else [⟨["output", "globals"], globals⟩])

def render (c : Config) : String := Toml.renderSections c.sections

def toJson (c : Config) : Json :=
  .object [("input", c.input.toJson), ("output", c.output.toJson)]

def defaultPath : String := "shakepack.toml"

end Config

inductive ConfigFault where
  | storage (cause : StorageFault)
  | malformed (path : String)
  | taken (path : String)
  deriving DecidableEq, Repr

def ConfigFault.message : ConfigFault → String
  | .storage cause => cause.message
  | .malformed path => s!"invalid config {path}"
  | .taken path => s!"config already exists at {path} (use --force to overwrite)"

namespace Config

def load (s : Storage) (path : String) : Except ConfigFault (Option Config) :=
  if !s.has path then .ok none
  else
    match s.read path with
    | .error cause => .error (.storage cause)
    | .ok text =>
      match parse? text with
      | some c => .ok (some c)
      | none => .error (.malformed path)

def save (c : Config) (path : String) (force : Bool) (s : Storage) : Except ConfigFault Storage :=
  if s.has path && !force then .error (.taken path)
  else (s.write path c.render).mapError .storage

end Config

end Treeshake
