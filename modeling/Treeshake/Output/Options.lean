import Treeshake.Error
import Treeshake.Table
/-!
What an output can be: its format, how it shows the exports of the entry, and all else that a caller may
choose.
-/
set_option autoImplicit false

namespace Treeshake

inductive Format where
  | es6
  | cjs
  | amd
  | iife
  | umd
  deriving DecidableEq, Repr

namespace Format

def all : List Format := [.es6, .cjs, .amd, .iife, .umd]

def name : Format → String
  | .es6 => "es6"
  | .cjs => "cjs"
  | .amd => "amd"
  | .iife => "iife"
  | .umd => "umd"

def named? (text : String) : Option Format := all.find? (·.name == text)

def parse (text : String) : Except Error Format :=
  match named? text with
  | some f => .ok f
  | none => .error (.unknownFormat text)

end Format

inductive ExportSetting where
  | auto
  | default
  | named
  | none
  deriving DecidableEq, Repr

namespace ExportSetting

def all : List ExportSetting := [.auto, .default, .named, .none]

def name : ExportSetting → String
  | .auto => "auto"
  | .default => "default"
  | .named => "named"
  | .none => "none"

def named? (text : String) : Option ExportSetting := all.find? (·.name == text)

def parse (text : String) : Except Error ExportSetting :=
  match named? text with
  | some s => .ok s
  | .none => .error (.invalidExportMode text)

end ExportSetting

/-- How exports are shown: the default export as the value of the whole, each as a property of an
object, or not at all. -/
inductive ExportMode where
  | default
  | named
  | none
  deriving DecidableEq, Repr

def ExportMode.name : ExportMode → String
  | .default => "default"
  | .named => "named"
  | .none => "none"

inductive MapSetting where
  | none
  | file
  | inline
  deriving DecidableEq, Repr

namespace MapSetting

def all : List MapSetting := [.none, .file, .inline]

def name : MapSetting → String
  | .none => "none"
  | .file => "file"
  | .inline => "inline"

def named? (text : String) : Option MapSetting := all.find? (·.name == text)

end MapSetting

inductive IndentSetting where
  | auto
  | none
  | unit (text : String)
  deriving DecidableEq, Repr

def IndentSetting.resolve (guessed : String) : IndentSetting → String
  | .auto => guessed
  | .none => ""
  | .unit text => text

/-- Around the wrapper stand `banner` and `footer`, around the code inside it `intro` and `outro`. Paths
in the map are seen from `mapFile`, or else from `dest`. -/
structure OutputOptions where
  format : Format := .es6
  exports : ExportSetting := .auto
  moduleName : Option String := none
  moduleId : Option String := none
  globals : Table String := []
  banner : Option String := none
  footer : Option String := none
  intro : Option String := none
  outro : Option String := none
  indent : IndentSetting := .auto
  useStrict : Bool := true
  map : MapSetting := .none
  mapFile : Option String := none
  dest : Option String := none
  deriving DecidableEq

def OutputOptions.wantsMap (o : OutputOptions) : Bool := o.map != .none

end Treeshake
