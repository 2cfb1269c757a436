/-!
What can be wrong with a source map.
-/
set_option autoImplicit false

namespace Treeshake.SourceMap

inductive Fault where
  | invalidCharacter (c : Char)
  | valueTooLarge (segment : String)
  | truncated (segment : String)
  | missingMap
  | unknownSource (index : Nat)
  | foreignSource
  deriving DecidableEq, Repr

def Fault.message : Fault → String
  | .invalidCharacter c => s!"Invalid character ({c})"
  | .valueTooLarge segment => s!"VLQ value too large in '{segment}'"
  | .truncated segment => s!"Truncated VLQ segment '{segment}'"
  | .missingMap => "Cannot generate a sourcemap if non-sourcemap-generating transformers are used"
  | .unknownSource index => s!"Segment references unknown source {index}"
  | .foreignSource => "Bad sourcemap"

end Treeshake.SourceMap
