import Treeshake.Fetch.Package
import Treeshake.Draft.Indent
import Treeshake.Draft.Map
import Treeshake.Module.Basic
/-!
How modules come into a build. Each request goes to a chain of collaborators, and the first that answers
decides; transforms all run, one on the text of the other.
-/
set_option autoImplicit false

namespace Treeshake

/-- A module's text as it was found, perhaps with a tree of it and a map that leads further back. -/
structure Loaded where
  code : String
  tree : Option SyntaxTree := none
  map : Option SourceMap := none

structure Transformed where
  code : String
  map : Option SourceMap := none

abbrev Loader := String → Except Error (Option Loaded)

abbrev Resolver := String → Option String → Except Error (Option Resolution)

/-- A transform gets a text and the id of its module, and may leave it as it is. -/
abbrev Transform := String → String → Except Error (Option Transformed)

structure Pipeline where
  loaders : List Loader
  resolvers : List Resolver
  transforms : List Transform

def firstAnswer {α β : Type} (ask : α → Except Error (Option β)) : List α → Except Error (Option β)
  | [] => .ok none
  | a :: as => do
    match ← ask a with
    | some b => return some b
    | none => firstAnswer ask as

namespace Loader

def ofTable (modules : Table Loaded) (failures : Table String) : Loader := fun id =>
  match failures.get? id with
  | some message => .error (.load id none message)
  | none => .ok (modules.get? id)

def ofStorage (s : Storage) : Loader := fun id =>
  match s.read id with
  | .ok code => .ok (some { code })
  | .error fault => .error (.load id none fault.message)

end Loader

namespace Resolver

/-- Resolutions by importer and importee, or else by importee alone; some fail. -/
def ofTable (table : Table (Option Resolution)) : Resolver := fun importee importer =>
  let name := importer.getD ""
  match (table.get? (name ++ " > " ++ importee)).or (table.get? importee) with
  | none => .ok none
  | some none => .error (.unresolved importee name)
  | some (some r) => .ok (some r)

def ofPackages (s : Storage) (o : PackageOptions) : Resolver := fun importee importer =>
  (Package.resolve s o importee importer).map some

end Resolver

inductive MapDetail where
  | none
  | normal
  | hires
  deriving DecidableEq, Repr

namespace Transform

def ofDraft (detail : MapDetail) (d : Draft) : Transformed where
  code := d.text
  map := match detail with
    | .none => none
    | .normal => some (d.map {})
    | .hires => some (d.map { hires := true })

def prepend (text : String) (detail : MapDetail) : Transform := fun code _ =>
  .ok (some (ofDraft detail ((Draft.ofText code).prepend text)))

def append (text : String) (detail : MapDetail) : Transform := fun code _ =>
  .ok (some (ofDraft detail ((Draft.ofText code).append text)))

/-- The offsets of a text in another, from left to right and apart from each other; `skip` characters
belong to the last one found. -/
def occurrences (text : List Char) : Nat → Nat → List Char → List Nat
  | _, _, [] => []
  | skip + 1, offset, c :: cs => occurrences text skip (offset + c.utf8Size) cs
  | 0, offset, c :: cs =>
    if text.isPrefixOf (c :: cs) then
      offset :: occurrences text (text.length - 1) (offset + c.utf8Size) cs
    else occurrences text 0 (offset + c.utf8Size) cs

def replace (text replacement : String) (detail : MapDetail) : Transform := fun code _ =>
  if text.isEmpty then .ok none
  else
    let found := occurrences text.toList 0 0 code.toList
    if found.isEmpty then .ok none
    else do
      let d ← Error.ofEdit (found.foldlM
        (fun d start => d.overwrite start (start + text.utf8ByteSize) replacement false)
        (Draft.ofText code))
      return some (ofDraft detail d)

def identity : Transform := fun _ _ => .ok none

def fixed (r : Transformed) : Transform := fun _ _ => .ok (some r)

def failing (message : String) : Transform := fun _ id => .error (.transform id message)

def only (ids : List String) (t : Transform) : Transform := fun code id =>
  if ids.contains id then t code id else .ok none

end Transform

namespace Pipeline

def withStorage (p : Pipeline) (s : Storage) (o : PackageOptions) : Pipeline :=
  { p with
    loaders := p.loaders ++ [Loader.ofStorage s]
    resolvers := p.resolvers ++ [Resolver.ofPackages s o] }

def hasTransforms (p : Pipeline) : Bool := !p.transforms.isEmpty

def resolve (p : Pipeline) (importee : String) (importer : Option String) : Except Error Resolution := do
  match ← firstAnswer (fun (r : Resolver) => r importee importer) p.resolvers, importer with
  | some r, _ => return r
  | none, some importer => throw (.unresolved importee importer)
  | none, none => throw (.unresolvedEntry importee)

/-- Runs a transform. A tree does not survive a change of its text. -/
def transform (id : String) (s : Source) (t : Transform) : Except Error Source := do
  match ← t s.code id with
  | none => return s
  | some r => return { s with code := r.code, tree := none, maps := s.maps ++ [r.map] }

def fetch (p : Pipeline) (id : String) : Except Error Source := do
  match ← firstAnswer (fun (l : Loader) => l id) p.loaders with
  | none => throw (.load id none "no loader returned any text")
  | some found =>
    p.transforms.foldlM (transform id)
      ⟨found.code, found.code, found.tree, (found.map.map some).toList⟩

end Pipeline

end Treeshake
