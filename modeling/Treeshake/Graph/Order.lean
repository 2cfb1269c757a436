import Treeshake.Graph.Basic
/-!
The order of modules in the output: what a module imports stands before it, and in a circle what it
reads when it loads stands before it where that is possible.
-/
set_option autoImplicit false

namespace Treeshake

/-- The modules whose bindings a module reads when it loads, and all it imports. -/
structure Dependencies where
  strong : List Nat
  weak : List Nat
  deriving DecidableEq, Repr

def addNewIndex (i : Nat) (is : List Nat) : List Nat := if is.contains i then is else is ++ [i]

namespace Graph

def insideTarget : Target → List Nat
  | .inside module => [module]
  | .outside _ => []

def imported (m : LinkedModule) : List Nat :=
  ((m.sources.filterMap m.targets.get?).flatMap insideTarget).foldl (fun is i => addNewIndex i is) []

def readModule? (g : Graph) (r : Reference) : Option Nat := do
  let s ← (← g.declaration? (← r.declaration?)).statement
  if r.immediate then some s.module else none

def readModules (g : Graph) (module : Nat) (m : LinkedModule) : List Nat :=
  (((m.statements.flatMap (·.references)).filterMap g.readModule?).filter (· != module)).foldl
    (fun is i => addNewIndex i is) []

def dependencies (g : Graph) (module : Nat) : Dependencies :=
  match g.modules[module]? with
  | some m => ⟨g.readModules module m, imported m⟩
  | none => ⟨[], []⟩

/-- A depth-first walk: the modules entered, those on the way to the current one, those left, whether
an import led back to the way, and what each module strongly depends on, at once and at last. -/
structure Walk where
  seen : List Nat := []
  path : List Nat := []
  done : List Nat := []
  cyclic : Bool := false
  strong : List (List Nat) := []
  closure : List (List Nat) := []
  deriving DecidableEq

def reach (next : Nat → List Nat) : Nat → List Nat → List Nat
  | 0, found => found
  | rounds + 1, found =>
    reach next rounds (found.foldl (fun acc i => (next i).foldl (fun acc j => addNewIndex j acc) acc) found)

namespace Walk

def strongOf (w : Walk) (module : Nat) : List Nat := w.strong.getD module []

def addStrong (w : Walk) (module dependency : Nat) : Walk :=
  { w with strong := w.strong.modify module (· ++ [dependency]) }

def leadsTo (w : Walk) (module dependency : Nat) : Bool :=
  (w.closure.getD module []).contains dependency

def leave (w : Walk) (module : Nat) : Walk :=
  { w with
    path := w.path.erase module
    done := w.done ++ [module]
    closure := w.closure.set module
      (reach w.strongOf w.strong.length ((w.strongOf module).foldl (fun is i => addNewIndex i is) [])) }

def follow (visit : Nat → Walk → Walk) (w : Walk) (module : Nat) : Walk :=
  if w.path.contains module then { w with cyclic := true } else visit module w

end Walk

/-- Walks from a module. A walk never goes deeper than there are modules. -/
def visit (g : Graph) : Nat → Nat → Walk → Walk
  | 0, _, w => w
  | fuel + 1, module, w =>
    if w.seen.contains module then w
    else
      let w := { w with seen := module :: w.seen, path := module :: w.path }
      let d := g.dependencies module
      let w := d.strong.foldl
        (fun w i => (w.addStrong module i).follow (g.visit fuel) i) w
      let w := d.weak.foldl (fun w i => w.follow (g.visit fuel) i) w
      w.leave module

def visitAll (g : Graph) : Walk :=
  let n := g.modules.length
  (List.range n).foldl (fun w i => g.visit (n + 1) i w)
    { strong := List.replicate n [], closure := List.replicate n [] }

/-- Puts a module and its strong dependencies in front of another, unless that is a strong dependency
of theirs; with the modules placed, those being placed. -/
def place (w : Walk) (module : Nat) : Nat → Nat → List Nat × List Nat → List Nat × List Nat
  | 0, _, state => state
  | fuel + 1, dependency, (ordered, placing) =>
    if w.leadsTo dependency module || ordered.contains dependency || placing.contains dependency then
      (ordered, placing)
    else
      let (ordered, placing) := (w.strongOf dependency).foldl
        (fun state i => place w module fuel i state) (ordered, dependency :: placing)
      (addNewIndex dependency ordered, placing)

def reorder (w : Walk) (modules : List Nat) : List Nat :=
  modules.foldl
    (fun ordered module =>
      let placed := (w.strongOf module).foldl
        (fun state i => place w module (modules.length + 1) i state) (ordered, [])
      addNewIndex module placed.1)
    []

def order (g : Graph) : List Nat :=
  let w := g.visitAll
  if w.cyclic then reorder w w.done else w.done

end Graph

end Treeshake
