import Treeshake.Draft.Fault
import Treeshake.Location
import Treeshake.SourceMap.Fault
/-!
What can go wrong in a build, with a code for the class of each cause and its wording.
-/
set_option autoImplicit false

namespace Treeshake

inductive SyntaxFault where
  | noTree
  | expected (kind : String)
  | unexpected (c : Char)
  | endOfInput
  deriving DecidableEq, Repr

def SyntaxFault.message : SyntaxFault → String
  | .noTree => "Failed to parse module"
  | .expected kind => s!"Expected '{kind}'"
  | .unexpected c => s!"Unexpected token '{c}'"
  | .endOfInput => "Unexpected end of input"

inductive PackageFault where
  | notFound (package importer : String)
  | malformed (path : String)
  | noMain (package importer : String) (fields : List String)
  deriving DecidableEq, Repr

def PackageFault.message : PackageFault → String
  | .notFound package importer => s!"Could not find package {package} (required by {importer})"
  | .malformed path => s!"Missing or malformed package.json: {path}"
  | .noMain package importer fields =>
    let wanted := " or ".intercalate fields
    s!"Package {package} (imported by {importer}) does not have a {wanted} field in package.json"

inductive StorageFault where
  | missing
  | exists
  | notDirectory
  | isDirectory
  deriving DecidableEq, Repr

def StorageFault.message : StorageFault → String
  | .missing => "No such file or directory (os error 2)"
  | .exists => "File exists (os error 17)"
  | .notDirectory => "Not a directory (os error 20)"
  | .isDirectory => "Is a directory (os error 21)"

inductive Error where
  | parse (id : String) (cause : SyntaxFault) (place : Location)
  | unresolved (importee importer : String)
  | package (cause : PackageFault)
  | unresolvedEntry (entry : String)
  | selfImport (id : String)
  | duplicateImport (id name : String) (place : Location)
  | duplicateExport (id name : String) (place : Location)
  | illegalReassignment (id name : String) (place : Location)
  | missingExport (name exporter importer : String)
  | missingMember (name exporter importer : String) (place : Location)
  | missingModuleName (wrapper : String)
  | exportModeMismatch (mode : String) (exports : List String)
  | invalidExportMode (text : String)
  | unknownFormat (text : String)
  | missingDestination
  | edit (cause : EditFault)
  | sourceMap (cause : SourceMap.Fault)
  | load (id : String) (importer : Option String) (message : String)
  | transform (id message : String)
  | storage (cause : StorageFault)
  | endlessExport (name id : String)
  | endlessImports (entry : String)
  deriving DecidableEq, Repr

namespace Error

def code : Error → String
  | .parse .. => "PARSE_ERROR"
  | .unresolved .. | .package _ => "UNRESOLVED_IMPORT"
  | .unresolvedEntry _ => "UNRESOLVED_ENTRY"
  | .selfImport _ => "SELF_IMPORT"
  | .duplicateImport .. => "DUPLICATE_IMPORT"
  | .duplicateExport .. => "DUPLICATE_EXPORT"
  | .illegalReassignment .. => "ILLEGAL_REASSIGNMENT"
  | .missingExport .. | .missingMember .. => "MISSING_EXPORT"
  | .missingModuleName _ => "MISSING_MODULE_NAME"
  | .exportModeMismatch .. => "EXPORT_MODE_MISMATCH"
  | .invalidExportMode _ => "INVALID_EXPORT_MODE"
  | .unknownFormat _ => "UNKNOWN_FORMAT"
  | .missingDestination => "MISSING_DESTINATION"
  | .edit _ | .sourceMap _ => "INTERNAL_ERROR"
  | .load .. => "LOAD_ERROR"
  | .transform .. => "TRANSFORM_ERROR"
  | .storage _ => "IO_ERROR"
  | .endlessExport .. => "ENDLESS_EXPORT"
  | .endlessImports _ => "ENDLESS_IMPORTS"

def importedBy : Option String → String
  | some importer => s!" (imported by {importer})"
  | none => ""

def message : Error → String
  | .parse id cause place =>
    let text := cause.message
    let at_ := place.render
    s!"{text} in {id} ({at_})"
  | .unresolved importee importer => s!"Could not resolve '{importee}' from {importer}"
  | .package cause => cause.message
  | .unresolvedEntry entry => s!"Could not resolve entry ({entry})"
  | .selfImport id => s!"A module cannot import itself ({id})"
  | .duplicateImport id name place =>
    let at_ := place.render
    s!"Duplicated import '{name}' ({id} {at_})"
  | .duplicateExport id name place =>
    let at_ := place.render
    s!"A module cannot have multiple exports with the same name ('{name}') ({id} {at_})"
  | .illegalReassignment id name place =>
    let at_ := place.render
    s!"Illegal reassignment to import '{name}' ({id} {at_})"
  | .missingExport name exporter importer =>
    s!"Module {exporter} does not export {name} (imported by {importer})"
  | .missingMember name exporter importer place =>
    let at_ := place.render
    s!"Export '{name}' is not defined by '{exporter}' (accessed in {importer} {at_})"
  | .missingModuleName wrapper => s!"You must supply options.moduleName for {wrapper} bundles"
  | .exportModeMismatch mode exports =>
    let names := ", ".intercalate exports
    s!"'{mode}' was specified for options.exports, but entry module has following exports: {names}"
  | .invalidExportMode text =>
    "options.exports must be 'default', 'named', 'none', 'auto', or left unspecified "
      ++ s!"(defaults to 'auto'), got '{text}'"
  | .unknownFormat text =>
    "You must specify an output type - valid options are amd, cjs, es6, iife, umd "
      ++ s!"(got '{text}')"
  | .missingDestination => "You must supply options.dest to bundle.write"
  | .edit cause => "Internal edit error: " ++ cause.message
  | .sourceMap cause => "Sourcemap error: " ++ cause.message
  | .load id importer message => s!"Could not load {id}" ++ importedBy importer ++ ": " ++ message
  | .transform id message => s!"Transform failed for {id}: {message}"
  | .storage cause => "IO error: " ++ cause.message
  | .endlessExport name id => s!"Export {name} of {id} only leads back to itself"
  | .endlessImports entry => s!"Entry {entry} leads to ever more modules"

/-- The message, and again that of another cause that it wraps. -/
def trail (e : Error) : String :=
  match e with
  | .edit cause => e.message ++ ": " ++ cause.message
  | .storage cause => e.message ++ ": " ++ cause.message
  | _ => e.message

def ofEdit {α : Type} (r : Except EditFault α) : Except Error α := r.mapError .edit

def ofMap {α : Type} (r : Except SourceMap.Fault α) : Except Error α := r.mapError .sourceMap

end Error

end Treeshake
