import Treeshake.Command.Request
import Treeshake.Config
import Treeshake.Report
/-!
Carrying out what the command line asks for.
-/
set_option autoImplicit false

namespace Treeshake

inductive CommandFault where
  | build (cause : Error)
  | config (cause : ConfigFault)
  | noEntry
  deriving DecidableEq

namespace CommandFault

def code : CommandFault → String
  | .build cause => cause.code
  | .config _ | .noEntry => "ERROR"

def message : CommandFault → String
  | .build cause => cause.trail
  | .config cause => cause.message
  | .noEntry => "no entry module given (pass one or set input.entry in shakepack.toml)"

end CommandFault

/-- What is left of a run: its exit status, what it prints, given how many milliseconds it took, and what
it complains of. -/
structure Outcome where
  storage : Storage
  status : Nat := 0
  printed : Nat → String := fun _ => ""
  complaint : Option String := none

namespace Command

structure Made where
  entry : String
  options : OutputOptions
  bundle : Bundle
  code : String

def printedCode (output : Output) : String :=
  match output.map with
  | some map => output.code ++ Bundle.mapComment map.toUrl
  | none => output.code

/-- The output, written if it has a destination. -/
def emit (b : Bundle) (o : OutputOptions) (s : Storage) : Storage × Except Error String :=
  if o.dest.isSome then
    let (s, result) := b.write o s
    (s, result.map (·.code))
  else (s, (b.generate o).map printedCode)

def prepare (s : Storage) (config : Option String) (r : BundleRequest) :
    Except CommandFault (BuildOptions × OutputOptions) := do
  let c := ((← (Config.load s (config.getD Config.defaultPath)).mapError .config)).getD {}
  let entry ← match r.entry.or c.input.entry with
    | some entry => .ok entry
    | none => .error .noEntry
  let o := r.apply c.output.options
  if o.dest.isNone && o.map == .file then throw (.build .missingDestination)
  return (⟨entry, c.input.packages "/" r.external, ⟨[], [], []⟩⟩, o)

def runBundle (grammar : Grammar) (s : Storage) (config : Option String) (r : BundleRequest) :
    Storage × Except CommandFault Made :=
  match prepare s config r with
  | .error fault => (s, .error fault)
  | .ok (build, o) =>
    match Bundle.build grammar s build with
    | .error e => (s, .error (.build e))
    | .ok b =>
      let (s, result) := emit b o s
      (s, (result.mapError .build).map fun code => ⟨build.entry, o, b, code⟩)

def report (m : Made) (milliseconds : Nat) : Json :=
  .object ([("entry", .string m.entry), ("format", .string m.options.format.name)]
    ++ (m.options.dest.map fun dest => ("dest", Json.string dest)).toList
    ++ [("imports", Json.ofStrings m.bundle.imports), ("exports", Json.ofStrings m.bundle.exports),
      ("modules", Json.ofStrings m.bundle.modules), ("stats", m.bundle.stats.toJson milliseconds)]
    ++ (if m.options.dest.isNone then [("code", .string m.code)] else []))

def line (j : Json) : String := j.pretty 0 ++ "\n"

def fail (r : Request) (s : Storage) (fault : CommandFault) : Outcome :=
  { storage := s
    status := 1
    printed := fun _ =>
      if r.json then line (Report.failure r.task.name fault.code fault.message) else ""
    complaint := if r.json then none else some fault.message }

def run (grammar : Grammar) (s : Storage) (r : Request) : Outcome :=
  match r.task with
  | .bundle b =>
    match runBundle grammar s r.config b with
    | (s, .error fault) => fail r s fault
    | (s, .ok m) =>
      { storage := s
        printed := fun milliseconds =>
          if r.json then line (Report.success "bundle" (report m milliseconds))
          else if m.options.dest.isNone then m.code ++ "\n"
          else "" }
  | .init force =>
    let path := r.config.getD Config.defaultPath
    match Config.starter.save path force s with
    | .error fault => fail r s (.config fault)
    | .ok s =>
      let data : Json := .object [("path", .string path), ("config", Config.starter.toJson)]
      { storage := s
        printed := fun _ => if r.json then line (Report.success "init" data.sorted) else "" }

def version : String := "shakepack 0.0.1"

def runArguments (grammar : Grammar) (s : Storage) (arguments : List String) : Outcome :=
  match Request.parse arguments with
  | .ok r => run grammar s r
  | .error .help => { storage := s }
  | .error .version => { storage := s, printed := fun _ => version ++ "\n" }
  | .error (.usage cause) => { storage := s, status := 2, complaint := some cause.message }

end Command

end Treeshake
