import Treeshake.Json.Basic
import Treeshake.Syntax.Node
/-!
Syntax trees that a parser has written down as JSON. A node is an array of its kind, its range, its field,
its flags and its children.
-/
set_option autoImplicit false

namespace Treeshake

/-- The flags add one for a named node, two for a missing one, four for an erroneous one. -/
def NodeHead.ofFlags (kind : String) (start stop : Nat) (field : String) (flags : Nat) : NodeHead where
  kind
  start
  stop
  field
  named := flags % 2 == 1
  missing := flags / 2 % 2 == 1
  erroneous := flags / 4 % 2 == 1

mutual

def Node.ofJson? : Json → Option Node
  | .array (.string kind :: .int start :: .int stop :: .string field :: .int flags :: children) =>
    (Node.ofItems? children).map
      (Node.mk (.ofFlags kind start.toNat stop.toNat field flags.toNat))
  | _ => none

def Node.ofItems? : List Json → Option (List Node)
  | [] => some []
  | j :: js => do
    let n ← Node.ofJson? j
    return n :: (← Node.ofItems? js)

end

def Grammar.ofJson (trees : Json) : Grammar := fun text =>
  ((trees.get? text).bind Node.ofJson?).map (SyntaxTree.of text)

end Treeshake
