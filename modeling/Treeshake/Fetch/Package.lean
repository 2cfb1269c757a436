import Treeshake.Fetch.Storage
import Treeshake.Fetch.Glob
import Treeshake.Json.Reader
import Treeshake.Path
/-!
The ids of imported modules where nobody else decides: relative ids against the importer, others
outside the build or in the nearest package.
-/
set_option autoImplicit false

namespace Treeshake

inductive Resolution where
  | module (id : String)
  | external (id : String)
  deriving DecidableEq, Repr

/-- Entries are relative to `cwd`, `external` has the ids and patterns kept outside, and `mainFields` the
manifest fields that may name the main module of a package. -/
structure PackageOptions where
  cwd : String
  external : List String := []
  mainFields : List String := []

namespace Package

def defaultMainFields : List String := ["jsnext:main", "module"]

def withExtension (path : String) : String :=
  if path.endsWith ".js" then path else path ++ ".js"

/-- A package and the path inside it. A scope belongs to the package. -/
def split (id : String) : String × Option String :=
  let parts := (Text.splitBy (· == '/') id.toList)
  let count := if id.startsWith "@" then 2 else 1
  let package := String.ofList (Text.joinWith '/' (parts.take count))
  let inner := String.ofList (Text.joinWith '/' (parts.drop count))
  if parts.length ≤ count || package.isEmpty then (id, none)
  else (package, if inner.isEmpty then none else some inner)

def isExternal (o : PackageOptions) (id : String) : Bool :=
  o.external.any fun e =>
    if isPattern e then globMatches e id else e == id || e == (split id).1

/-- A directory and all that it is in, as far as its path tells; every step makes the path shorter. -/
def outward : Nat → String → List String
  | 0, dir => [dir]
  | fuel + 1, dir =>
    let parent := Path.dirname dir
    if parent == dir then [dir] else dir :: outward fuel parent

def nearest? (isDirectory : String → Bool) (package importer : String) : Option String :=
  let dir := Path.dirname importer
  ((outward (dir.length + 1) dir).map fun d => Path.resolve d ("node_modules/" ++ package)).find?
    isDirectory

def mainModule (s : Storage) (o : PackageOptions) (root package importer : String) : Except Error String :=
  let path := root ++ "/package.json"
  let fields := if o.mainFields.isEmpty then defaultMainFields else o.mainFields
  match s.read path with
  | .error _ => .error (.package (.malformed path))
  | .ok text =>
    match Json.parse? text with
    | none => .error (.package (.malformed path))
    | some manifest =>
      match fields.findSome? fun f => (manifest.get? f).bind Json.string? with
      | some file => .ok (withExtension (Path.resolve root file))
      | none => .error (.package (.noMain package importer fields))

def resolveInPackage (s : Storage) (o : PackageOptions) (importee importer : String) :
    Except Error String :=
  let (package, inner) := split importee
  match nearest? s.isDirectory package importer, inner with
  | none, _ => .error (.package (.notFound package importer))
  | some root, some inner => .ok (withExtension (Path.resolve root inner))
  | some root, none => mainModule s o root package importer

/-- Where an import leads; without an importer it is the entry. -/
def resolve (s : Storage) (o : PackageOptions) (importee : String) (importer : Option String) :
    Except Error Resolution :=
  if Path.isAbsolute importee then .ok (.module importee)
  else
    match importer with
    | none => .ok (.module (withExtension (Path.resolve o.cwd importee)))
    | some importer =>
      if importee.startsWith "." then
        .ok (.module (withExtension (Path.dropSlashes (Path.resolve (Path.dirname importer) importee))))
      else if isExternal o importee then .ok (.external importee)
      else (resolveInPackage s o importee importer).map .module

end Package

end Treeshake
