import Treeshake.Error
import Treeshake.Path
import Treeshake.Table
import Treeshake.Text.Offset
/-!
The files that a build may read and write.
-/
set_option autoImplicit false

namespace Treeshake

/-- Files by their path from the working directory, and folders that exist without files. `rooted` tells
whether the working directory is the root; otherwise rooted paths name nothing. -/
structure Storage where
  rooted : Bool := false
  files : Table String := []
  folders : List String := []

namespace Storage

/-- Files by their path; a path that ends in a slash is that of a folder. -/
def ofEntries (rooted : Bool) (entries : Table String) : Storage where
  rooted
  files := entries.filter fun (path, _) => !path.endsWith "/"
  folders := (entries.filter fun (path, _) => path.endsWith "/").map fun (path, _) =>
    String.ofList path.toList.dropLast

def pathOf (parts : List String) : String := "/".intercalate parts

def isFile (s : Storage) (parts : List String) : Bool := s.files.has (pathOf parts)

def isFolder (s : Storage) (parts : List String) : Bool :=
  let path := pathOf parts
  parts.isEmpty || s.folders.contains path
    || (s.files.keys ++ s.folders).any fun p => (path ++ "/").isPrefixOf p

def parts? (s : Storage) (path : String) : Option (List String) :=
  match (Text.splitBy (· == '/') path.toList).map String.ofList with
  | [""] => none
  | "" :: rest => if s.rooted then some rest else none
  | parts => some parts

/-- What components name, seen from a folder; all but the last have to be folders. -/
def walk (s : Storage) : List String → List String → Except StorageFault (List String)
  | here, [] => .ok here
  | here, c :: cs =>
    if !s.isFolder here then .error (if s.isFile here then .notDirectory else .missing)
    else if c == "" || c == "." then s.walk here cs
    else if c == ".." then if here.isEmpty then .error .missing else s.walk here.dropLast cs
    else s.walk (here ++ [c]) cs

def locate (s : Storage) (path : String) : Except StorageFault (List String) :=
  match s.parts? path with
  | none => .error .missing
  | some parts => s.walk [] parts

def isDirectory (s : Storage) (path : String) : Bool :=
  match s.locate path with
  | .ok here => s.isFolder here
  | .error _ => false

def has (s : Storage) (path : String) : Bool :=
  match s.locate path with
  | .ok here => s.isFolder here || s.isFile here
  | .error _ => false

def read (s : Storage) (path : String) : Except StorageFault String := do
  let here ← s.locate path
  match s.files.get? (pathOf here) with
  | some text => return text
  | none => throw (if s.isFolder here then .isDirectory else .missing)

/-- Writes a file, never at a path that asks for a folder. -/
def write (s : Storage) (path text : String) : Except StorageFault Storage := do
  let file := Path.dropSlashes path
  let here ← s.locate (if file.isEmpty then path else file)
  if path.endsWith "/" || s.isFolder here then throw .isDirectory
  return { s with files := s.files.insert (pathOf here) text }

def makeParts : Storage → List String → List String → Except StorageFault Storage
  | s, _, [] => .ok s
  | s, here, c :: cs =>
    if c == "" || c == "." then s.makeParts here cs
    else if c == ".." then if here.isEmpty then .error .missing else s.makeParts here.dropLast cs
    else
      let next := here ++ [c]
      if s.isFile next then .error (if cs.all (·.isEmpty) then .exists else .notDirectory)
      else
        let s := if s.isFolder next then s else { s with folders := s.folders ++ [pathOf next] }
        s.makeParts next cs

def makeFolders (s : Storage) (path : String) : Except StorageFault Storage :=
  match s.parts? path with
  | none => if path == "/" then .ok s else .error .missing
  | some parts => s.makeParts [] parts

def changes (before after : Storage) : Table String :=
  after.files.filter fun (path, text) => before.files.get? path != some text

end Storage

end Treeshake
