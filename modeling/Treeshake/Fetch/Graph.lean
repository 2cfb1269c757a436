import Treeshake.Fetch.Pipeline
import Treeshake.Graph.Basic
/-!
All modules that an entry leads to. Loading a module asks for the resolution of each of its sources, and
a resolution asks for the loading of a module that nobody asked for before. Tasks may be completed in any
order; the modules are numbered afterwards, from the entry on, so that the order leaves no trace.
-/
set_option autoImplicit false

namespace Treeshake

inductive FetchTask where
  | load (id : String) (importer : Option String)
  | resolve (importer : Nat) (source : String)
  deriving DecidableEq, Repr

/-- Modules as they arrived, each with the resolutions of its sources, the ids asked for, and what is
still to be done. -/
structure Fetching where
  tasks : List FetchTask
  requested : List String
  modules : List (Module × Table Resolution) := []

namespace Fetching

def start (entry : String) : Fetching := { tasks := [.load entry none], requested := [entry] }

def blame (importer : Option String) : Error → Error
  | .load id _ message => .load id importer message
  | e => e

def load (grammar : Grammar) (p : Pipeline) (f : Fetching) (id : String) (importer : Option String) :
    Except Error Fetching := do
  let source ← (p.fetch id).mapError (blame importer)
  let m ← Module.parse grammar id source
  return { f with
    tasks := f.tasks ++ m.sources.map (.resolve f.modules.length ·)
    modules := f.modules ++ [(m, [])] }

def request (f : Fetching) (id importer : String) : Fetching :=
  if f.requested.contains id then f
  else { f with
    requested := f.requested ++ [id]
    tasks := f.tasks ++ [.load id (some importer)] }

def resolve (p : Pipeline) (f : Fetching) (importer : Nat) (source : String) :
    Except Error Fetching := do
  match f.modules[importer]? with
  | none => return f
  | some (m, _) =>
    let r ← p.resolve source (some m.id)
    let f ← match r with
      | .module id => if id == m.id then throw (.selfImport id) else pure (f.request id m.id)
      | .external _ => pure f
    return { f with modules := f.modules.modify importer fun e => (e.1, e.2.insert source r) }

def complete (grammar : Grammar) (p : Pipeline) (f : Fetching) : FetchTask → Except Error Fetching
  | .load id importer => f.load grammar p id importer
  | .resolve importer source => f.resolve p importer source

def step (grammar : Grammar) (p : Pipeline) (f : Fetching) (i : Nat) : Except Error Fetching :=
  match f.tasks[i]? with
  | none => .ok f
  | some task => { f with tasks := f.tasks.eraseIdx i }.complete grammar p task

/-- Completes tasks, the oldest first, until there are none; where each module leads to new ones that is never, and a
run that comes to a limit gives up. -/
def run (grammar : Grammar) (p : Pipeline) (entry : String) : Nat → Fetching → Except Error Fetching
  | 0, f => if f.tasks.isEmpty then .ok f else .error (.endlessImports entry)
  | fuel + 1, f =>
    if f.tasks.isEmpty then .ok f else do run grammar p entry fuel (← f.step grammar p 0)

def target? (f : Fetching) (resolutions : Table Resolution) (source : String) : Option Nat :=
  match resolutions.get? source with
  | some (.module id) => f.modules.findIdx? (·.1.id == id)
  | _ => none

def next (f : Fetching) (i : Nat) : List Nat :=
  match f.modules[i]? with
  | none => []
  | some (m, resolutions) => m.sources.filterMap (f.target? resolutions)

/-- The places of arrival in the order of a walk: a module, then all that its first source leads to, and
so on. `pending` are the modules to come, the next one first. -/
def walk (f : Fetching) : Nat → List Nat → List Nat → List Nat
  | 0, _, visited => visited
  | _ + 1, [], visited => visited
  | fuel + 1, i :: pending, visited =>
    if visited.contains i then f.walk fuel pending visited
    else
      let visited := visited ++ [i]
      f.walk fuel ((f.next i).filter (!visited.contains ·) ++ pending) visited

/-- Every module is entered once and adds at most one place for each of its sources. -/
def order (f : Fetching) : List Nat :=
  f.walk ((f.modules.flatMap (·.1.sources)).length + f.modules.length + 2) [0] []

def targets (f : Fetching) (order : List Nat) (resolutions : Table Resolution) :
    List External → List String → Table Target × List External
  | externals, [] => ([], externals)
  | externals, source :: sources =>
    match resolutions.get? source with
    | some (.module id) =>
      let (rest, externals) := f.targets order resolutions externals sources
      match (f.modules.findIdx? (·.1.id == id)).bind order.idxOf? with
      | some i => ((source, .inside i) :: rest, externals)
      | none => (rest, externals)
    | some (.external id) =>
      match externals.findIdx? (·.id == id) with
      | some i =>
        let (rest, externals) := f.targets order resolutions externals sources
        ((source, .outside i) :: rest, externals)
      | none =>
        let (rest, all) := f.targets order resolutions (externals ++ [External.ofId id]) sources
        ((source, .outside externals.length) :: rest, all)
    | none => f.targets order resolutions externals sources

/-- The modules in order with their targets, and the external modules in the order of their first
import. -/
def canonical (f : Fetching) (order : List Nat) :
    List External → List Nat → List (Module × Table Target) × List External
  | externals, [] => ([], externals)
  | externals, i :: is =>
    match f.modules[i]? with
    | none => f.canonical order externals is
    | some (m, resolutions) =>
      let (ts, externals) := f.targets order resolutions externals m.sources
      let (rest, externals) := f.canonical order externals is
      ((m, ts) :: rest, externals)

def graph (f : Fetching) : Graph :=
  let (modules, externals) := f.canonical f.order [] f.order
  Graph.ofModules modules externals

end Fetching

def taskLimit : Nat := 10000000

def fetchGraph (grammar : Grammar) (p : Pipeline) (entry : String) : Except Error Graph := do
  match ← p.resolve entry none with
  | .external _ => throw (.unresolvedEntry entry)
  | .module id => return (← Fetching.run grammar p entry taskLimit (Fetching.start id)).graph

end Treeshake
