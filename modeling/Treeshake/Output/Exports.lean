import Treeshake.Graph.Names
import Treeshake.Output.Options
/-!
How the exports of the entry are shown.
-/
set_option autoImplicit false

namespace Treeshake.Graph

/-- What the entry exports, a star export by its source. -/
def exportKeys (g : Graph) : List String :=
  match g.modules[entry]? with
  | none => []
  | some m => m.exports.keys ++ m.reexports.keys ++ m.starSources

def exportMode (g : Graph) (setting : ExportSetting) : Except Error ExportMode :=
  let keys := g.exportKeys
  let onlyDefault := keys == ["default"]
  match setting with
  | .default => if onlyDefault then .ok .default else .error (.exportModeMismatch "default" keys)
  | .none => if keys.isEmpty then .ok .none else .error (.exportModeMismatch "none" keys)
  | .named => .ok .named
  | .auto => .ok (if keys.isEmpty then .none else if onlyDefault then .default else .named)

def namedWrapper? (format : Format) (mode : ExportMode) : Option String :=
  match format, mode with
  | .iife, .default | .iife, .named => some "IIFE"
  | .umd, .default | .umd, .named => some "UMD"
  | .amd, .named => some "AMD"
  | _, _ => none

def checkOptions (g : Graph) (o : OutputOptions) : Except Error ExportMode := do
  let mode ← g.exportMode o.exports
  match namedWrapper? o.format mode, o.moduleName with
  | some wrapper, none => throw (.missingModuleName wrapper)
  | _, _ => return mode

/-- Statements that show the exports: the default export after `mechanism`, or each as a property. -/
def exportBlock (g : Graph) (mode : ExportMode) (mechanism : String) : String :=
  match mode with
  | .none => ""
  | .default =>
    match g.entryExports.get? "default" with
    | some id => mechanism ++ " " ++ g.renderName id false ++ ";"
    | none => ""
  | .named =>
    let lines := g.entryExports.filterMap fun (name, id) =>
      let left := "exports" ++ (if name == "default" then "['default']" else "." ++ name)
      let right := g.renderName id false
      if left == right then none else some (left ++ " = " ++ right ++ ";")
    "\n".intercalate lines

end Treeshake.Graph

namespace Treeshake.External

/-- Takes the default export of an external module, or the module itself if it has none. -/
def interop? (e : External) : Option String :=
  if e.declarations.has "default" then
    let name := e.name
    let value := s!" = 'default' in {name} ? {name}['default'] : {name};"
    some (if e.exportsNames then s!"var {name}__default" ++ value else name ++ value)
  else none

end Treeshake.External

namespace Treeshake.Graph

def interopBlock (g : Graph) : String := "\n".intercalate (g.externals.filterMap (·.interop?))

end Treeshake.Graph
