import Treeshake.Fetch.Graph
import Treeshake.Graph.Liveness
import Treeshake.Graph.Order
import Treeshake.Graph.Render
import Treeshake.Output.Wrapper
import Treeshake.SourceMap.Collapse
import Treeshake.SourceMap.Text
/-!
A build from its entry to its outputs.
-/
set_option autoImplicit false

namespace Treeshake

structure GraphStats where
  modules : Nat := 0
  externals : Nat := 0
  statements : Nat := 0
  included : Nat := 0
  declarations : Nat := 0
  assumedGlobals : Nat := 0
  deriving DecidableEq, Repr

def Graph.stats (g : Graph) : GraphStats where
  modules := g.modules.length
  externals := g.externals.length
  statements := (g.modules.flatMap (·.statements)).length
  included := (g.modules.flatMap (·.statements)).countP (·.included)
  declarations := g.declarations.length
  assumedGlobals := g.globals.length - Graph.wrapperNames.length

structure BuildStats where
  graph : GraphStats := {}
  link : LinkStats := {}
  passes : Nat := 0
  renamed : Nat := 0
  deriving DecidableEq, Repr

structure BuildOptions where
  entry : String
  packages : PackageOptions
  pipeline : Pipeline

/-- A graph that is bound, marked and named, with the order of its modules. -/
structure Bundle where
  graph : Graph
  order : List Nat
  stats : BuildStats

structure Output where
  code : String
  map : Option SourceMap := none
  deriving DecidableEq

namespace Bundle

def ofGraph (g : Graph) : Except Error Bundle := do
  let (link, g) ← Graph.bind.run g
  let (passes, g) ← Graph.mark.run g
  let order := g.order
  let (g, renamed) := g.deconflict order
  return ⟨g, order, ⟨g.stats, link, passes, renamed⟩⟩

def build (grammar : Grammar) (s : Storage) (o : BuildOptions) : Except Error Bundle := do
  ofGraph (← fetchGraph grammar (o.pipeline.withStorage s o.packages) o.entry)

def imports (b : Bundle) : List String := b.graph.externals.map (·.id)

def exports (b : Bundle) : List String := b.graph.exportNames Graph.entry

def modules (b : Bundle) : List String := b.order.map b.graph.moduleId

/-- The modules that leave any text, with their drafts, in the order of the output. -/
def rendered (b : Bundle) (es6 : Bool) : Except Error (List (Nat × Draft)) := do
  let drafts ← b.order.mapM fun i => return (i, ← Error.ofEdit (b.graph.renderModule i es6))
  return drafts.filter (!·.2.isEmpty)

def assemble (b : Bundle) (o : OutputOptions) (parts : List (Nat × Draft)) : Except Error Assembly := do
  let a ← parts.foldlM
    (fun a (i, d) => Error.ofEdit (a.add d (some (b.graph.moduleId i)))) ({ separator := "\n\n" } : Assembly)
  let a := match o.intro with
    | some text => a.prepend (text ++ "\n")
    | none => a
  return match o.outro with
    | some text => a.append ("\n" ++ text)
    | none => a

def compose (b : Bundle) (o : OutputOptions) (mode : ExportMode) (parts : List (Nat × Draft)) :
    Except Error Assembly := do
  let a ← b.assemble o parts
  let guessed := a.indentUnit
  let wrapper : Wrapper := ⟨b.graph, mode, o.indent.resolve guessed, guessed, o⟩
  let a := wrapper.wrap a.trim
  let a := match o.banner with
    | some text => a.prepend (text ++ "\n")
    | none => a
  return match o.footer with
    | some text => a.append ("\n" ++ text)
    | none => a

/-- The map of an output, through the transforms of its modules to the texts they began with. -/
def mapOf (b : Bundle) (o : OutputOptions) (parts : List (Nat × Draft)) (a : Assembly) :
    Except Error SourceMap := do
  let map := a.map { file := o.mapFile.or o.dest, includeContent := true }
  let modules := parts.filterMap fun (i, _) => b.graph.modules[i]?
  let map ← if modules.any fun m => !m.maps.isEmpty then
      Error.ofMap (map.collapse (modules.map fun m => ⟨m.maps, m.firstCode⟩))
    else .ok map
  return { map with sources := map.sources.map (·.map Path.normalizeSlashes) }

def generate (b : Bundle) (o : OutputOptions) : Except Error Output := do
  let mode ← b.graph.checkOptions o
  let parts ← b.rendered (o.format == .es6)
  let a ← b.compose o mode parts
  let map ← if o.wantsMap then pure (some (← b.mapOf o parts a)) else pure none
  return ⟨a.text, map⟩

def mapComment (url : String) : String := "\n//# sourceMappingURL=" ++ url

def attachMap (o : OutputOptions) (dest : String) (output : Output) : Output × Table String :=
  match output.map with
  | none => (output, [])
  | some map =>
    if o.map == .inline then ({ output with code := output.code ++ mapComment map.toUrl }, [])
    else
      ({ output with code := output.code ++ mapComment (Path.basename dest ++ ".map") },
        [(dest ++ ".map", map.render)])

def writeFiles : Storage → Table String → Storage × Except StorageFault Unit
  | s, [] => (s, .ok ())
  | s, (path, text) :: files =>
    match s.write path text with
    | .ok s => writeFiles s files
    | .error fault => (s, .error fault)

/-- Generates an output and writes it to its destination, with its map in a file beside it or inline.
What is written before a failure stays. -/
def write (b : Bundle) (o : OutputOptions) (s : Storage) : Storage × Except Error Output :=
  match o.dest with
  | none => (s, .error .missingDestination)
  | some dest =>
    match b.generate o with
    | .error e => (s, .error e)
    | .ok output =>
      let dir := Path.dirname dest
      match (if dir == "." then .ok s else s.makeFolders dir) with
      | .error fault => (s, .error (.storage fault))
      | .ok s =>
        let (output, files) := attachMap o dest output
        let (s, result) := writeFiles s (files ++ [(dest, output.code)])
        (s, (result.mapError .storage).map fun _ => output)

end Bundle

end Treeshake
