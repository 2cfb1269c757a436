import Treeshake.Draft.Basic
import Treeshake.Text.Indentation
/-!
Indentation of drafts.
-/
set_option autoImplicit false

namespace Treeshake

/-- A unit in front of each character that starts a line, except where the break before it stands in a
protected place. `due` tells whether the next character starts a line, `place` where it stands. -/
def Cell.indent (unit : List Cell) (isProtected : Nat → Bool) : Bool → Nat → List Cell → List Cell
  | _, _, [] => []
  | due, place, c :: cs =>
    (if due && !Text.isBreak c.char then unit else []) ++
      c :: indent unit isProtected (Text.isBreak c.char && !isProtected place)
        (place + c.char.utf8Size) cs

theorem Cell.indent_nil (isProtected : Nat → Bool) (due : Bool) (place : Nat) (cells : List Cell) :
    Cell.indent [] isProtected due place cells = cells := by
  induction cells generalizing due place with
  | nil => rfl
  | cons c cs ih => simp [Cell.indent, ih]

namespace Draft

def places (d : Draft) (ranges : List (Nat × Nat)) : List (Nat × Nat) :=
  (ranges.filter fun r => r.1 < r.2).filterMap fun r => do
    return (← d.locate? r.1, ← d.locate? (r.2 - 1))

/-- A unit in front of every line that is neither empty nor continued from a protected range; the
first line counts if `atStart`. -/
def indent (d : Draft) (unit : String) (ranges : List (Nat × Nat)) (atStart : Bool) : Draft :=
  let spans := d.places ranges
  { d with
    cells := Cell.indent (Cell.fresh unit.toList)
      (fun place => spans.any fun s => s.1 ≤ place && place ≤ s.2) atStart 0 d.cells }

def indentUnit (d : Draft) : String := (Text.guessIndent? d.source.toList).getD "\t"

end Draft

end Treeshake
