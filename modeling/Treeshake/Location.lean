import Treeshake.Text.Offset
/-!
Places in module text, as shown in messages.
-/
set_option autoImplicit false

namespace Treeshake

/-- Lines count from one and columns, in characters, from zero. -/
structure Location where
  line : Nat
  column : Nat
  deriving DecidableEq, Repr

/-- The place of an offset; one that no character starts at counts as the end of the text. -/
def Location.ofOffset (code : List Char) (offset : Nat) : Location :=
  let before := (Text.before? offset code).getD code
  ⟨Text.breaks before + 1, (Text.lastLine before).length⟩

def Location.render (l : Location) : String := s!"{l.line}:{l.column}"

end Treeshake
