import Treeshake.Table
import Treeshake.Text.Identifier
/-!
Modules that stay outside the build.
-/
set_option autoImplicit false

namespace Treeshake

/-- The `name` is what the output calls the module; `declarations` are those of the names imported from
it, and `exportsNames` tells whether one of them is neither the default nor the whole module. -/
structure External where
  id : String
  name : String
  declarations : Table Nat := []
  exportsNames : Bool := false
  suggestions : Table Nat := []
  mostFrequent : Nat := 0
  deriving DecidableEq, Repr

namespace External

def ofId (id : String) : External := { id, name := Identifier.ofText id }

/-- An importer's name for the module. The most frequent becomes its name, the first of equals. -/
def suggest (e : External) (name : String) : External :=
  let count := (e.suggestions.get? name).getD 0 + 1
  let e := { e with suggestions := e.suggestions.insert name count }
  if e.mostFrequent < count then { e with mostFrequent := count, name } else e

end External

end Treeshake
