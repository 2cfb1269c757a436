import Treeshake.Text.Offset
/-!
The indentation unit of a text.
-/
set_option autoImplicit false

namespace Treeshake.Text

/-- A tab if lines led by one are at least as many as lines led by two or more spaces, otherwise the
shortest such run of spaces; nothing if no line tells. -/
def guessIndent? (code : List Char) : Option String :=
  let lines := splitBy (· == '\n') code
  let tabbed := lines.countP (·.head? == some '\t')
  let spaced := (lines.map fun l => (l.takeWhile (· == ' ')).length).filter (2 ≤ ·)
  if tabbed == 0 && spaced.isEmpty then none
  else if spaced.length ≤ tabbed then some "\t"
  else spaced.min?.map fun n => String.ofList (List.replicate n ' ')

def indentLines (unit : List Char) : Bool → List Char → List Char
  | _, [] => []
  | atStart, c :: cs =>
    (if atStart && c != '\n' then unit else []) ++ c :: indentLines unit (c == '\n') cs

theorem indentLines_nil (atStart : Bool) (cs : List Char) : indentLines [] atStart cs = cs := by
  induction cs generalizing atStart with
  | nil => rfl
  | cons c cs ih => simp [indentLines, ih]

end Treeshake.Text
