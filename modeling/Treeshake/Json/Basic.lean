/-!
JSON values and their text, on one line or indented.
-/
set_option autoImplicit false

namespace Treeshake

/-- Members of an object stand in the order of their text, and a key may stand twice. A number that is
not written as an integer is kept as a mantissa and a power of ten. -/
inductive Json where
  | null
  | bool (b : Bool)
  | int (n : Int)
  | decimal (mantissa exponent : Int)
  | string (s : String)
  | array (items : List Json)
  | object (members : List (String × Json))
  deriving Inhabited

namespace Json

/-- The value of a key; of a repeated one the last. -/
def get? (key : String) : Json → Option Json
  | .object members => (members.reverse.find? (·.1 == key)).map (·.2)
  | _ => none

def string? : Json → Option String
  | .string s => some s
  | _ => none

def ofOption : Option String → Json
  | some s => .string s
  | none => .null

def ofStrings (ss : List String) : Json := .array (ss.map .string)

def hexDigit (n : Nat) : Char := Nat.digitChar n

def escapeChar (c : Char) : List Char :=
  match c with
  | '"' => ['\\', '"']
  | '\\' => ['\\', '\\']
  | '\n' => ['\\', 'n']
  | '\r' => ['\\', 'r']
  | '\t' => ['\\', 't']
  | '\x08' => ['\\', 'b']
  | '\x0c' => ['\\', 'f']
  | c =>
    if c.toNat < 32 then ['\\', 'u', '0', '0', hexDigit (c.toNat / 16), hexDigit (c.toNat % 16)]
    else [c]

def quote (s : String) : String :=
  String.ofList ('"' :: s.toList.flatMap escapeChar ++ ['"'])

mutual

def compact : Json → String
  | .null => "null"
  | .bool b => if b then "true" else "false"
  | .int n => toString n
  | .decimal m e => toString m ++ "e" ++ toString e
  | .string s => quote s
  | .array items => "[" ++ compactItems items ++ "]"
  | .object members => r"{" ++ compactMembers members ++ r"}"

def compactItems : List Json → String
  | [] => ""
  | [j] => compact j
  | j :: js => compact j ++ "," ++ compactItems js

def compactMembers : List (String × Json) → String
  | [] => ""
  | [(k, j)] => quote k ++ ":" ++ compact j
  | (k, j) :: js => quote k ++ ":" ++ compact j ++ "," ++ compactMembers js

end

def margin (depth : Nat) : String := String.ofList ('\n' :: List.replicate (2 * depth) ' ')

mutual

def pretty (depth : Nat) : Json → String
  | .array [] => "[]"
  | .object [] => "{}"
  | .array items => "[" ++ prettyItems (depth + 1) items ++ margin depth ++ "]"
  | .object members => r"{" ++ prettyMembers (depth + 1) members ++ margin depth ++ r"}"
  | .null => "null"
  | .bool b => if b then "true" else "false"
  | .int n => toString n
  | .decimal m e => toString m ++ "e" ++ toString e
  | .string s => quote s

def prettyItems (depth : Nat) : List Json → String
  | [] => ""
  | [j] => margin depth ++ pretty depth j
  | j :: js => margin depth ++ pretty depth j ++ "," ++ prettyItems depth js

def prettyMembers (depth : Nat) : List (String × Json) → String
  | [] => ""
  | [(k, j)] => margin depth ++ quote k ++ ": " ++ pretty depth j
  | (k, j) :: js => margin depth ++ quote k ++ ": " ++ pretty depth j ++ "," ++ prettyMembers depth js

end

mutual

def sorted : Json → Json
  | .array items => .array (sortedItems items)
  | .object members => .object ((sortedMembers members).mergeSort fun a b => a.1 ≤ b.1)
  | j => j

def sortedItems : List Json → List Json
  | [] => []
  | j :: js => sorted j :: sortedItems js

def sortedMembers : List (String × Json) → List (String × Json)
  | [] => []
  | (k, j) :: ms => (k, sorted j) :: sortedMembers ms

end

end Json

end Treeshake
