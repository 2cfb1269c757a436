import Treeshake.Command.Run
import Treeshake.Json.Reader
import Treeshake.Syntax.Reader
/-!
The program. It sees the text files below the working directory, and this directory as the root of all
paths. Syntax trees of module texts stand in a JSON file that `SHAKEPACK_TREES` names.
-/
set_option autoImplicit false

namespace Treeshake.Program

def load (folder : String) : IO Storage := do
  let root ← IO.FS.realPath folder
  let mut entries : Table String := []
  for path in ← root.walkDir do
    let name := String.ofList ((path.toString.toList.drop root.toString.length).dropWhile (· == '/'))
    if ← path.isDir then
      entries := (name ++ "/", "") :: entries
    else
      try
        entries := (name, ← IO.FS.readFile path) :: entries
      catch _ => pure ()
  return .ofEntries true entries.reverse

def save (folder : String) (before after : Storage) : IO Unit := do
  for made in after.folders do
    if !before.isFolder [made] then IO.FS.createDirAll (folder ++ "/" ++ made)
  for (path, text) in before.changes after do
    IO.FS.writeFile (folder ++ "/" ++ path) text

/-- The trees that the file named by an environment variable holds; without one no text has a tree. -/
def grammar (name : String) : IO Grammar := do
  match ← IO.getEnv name with
  | none => return .ofJson .null
  | some file =>
    let text ← IO.FS.readFile file
    return .ofJson ((Json.parse? text text.length).getD .null)

end Treeshake.Program

def main (arguments : List String) : IO UInt32 := do
  let started ← IO.monoMsNow
  let before ← Treeshake.Program.load "."
  let grammar ← Treeshake.Program.grammar "SHAKEPACK_TREES"
  let outcome := Treeshake.Command.runArguments grammar before arguments
  Treeshake.Program.save "." before outcome.storage
  IO.print (outcome.printed ((← IO.monoMsNow) - started))
  match outcome.complaint with
  | some text => IO.eprintln ("error: " ++ text)
  | none => pure ()
  return outcome.status.toUInt32
