/-!
Patterns for ids. A question mark stands for any character, a star for any text, two stars for any number
of path components, and brackets for a character of a set.
-/
set_option autoImplicit false

namespace Treeshake

structure CharRange where
  first : Char
  last : Char
  deriving DecidableEq, Repr

inductive GlobToken where
  | char (c : Char)
  | anyChar
  | anyOf (ranges : List CharRange)
  | noneOf (ranges : List CharRange)
  | anyText
  | anyComponents
  deriving DecidableEq, Repr

namespace GlobToken

def ranges : List Char → List CharRange
  | a :: '-' :: b :: cs => ⟨a, b⟩ :: ranges cs
  | a :: cs => ⟨a, a⟩ :: ranges cs
  | [] => []

/-- A set up to its bracket, its first character taken as it is, and what follows. -/
def set? : List Char → Option (List CharRange × List Char)
  | [] => none
  | c :: cs =>
    let inner := cs.takeWhile (· != ']')
    match cs.drop inner.length with
    | ']' :: rest => some (ranges (c :: inner), rest)
    | _ => none

/-- The tokens of a pattern behind a character. Two stars have to be a whole component, and the slash
behind them belongs to them. -/
def parse : Nat → Option Char → List Char → Option (List GlobToken)
  | 0, _, _ => none
  | _ + 1, _, [] => some []
  | fuel + 1, previous, c :: cs =>
    match c, cs with
    | '?', _ => (parse fuel (some c) cs).map (.anyChar :: ·)
    | '*', '*' :: '*' :: _ => none
    | '*', '*' :: rest =>
      if previous.all (· == '/') then
        match rest with
        | [] => some [.anyComponents]
        | '/' :: rest => (parse fuel (some '/') rest).map (.anyComponents :: ·)
        | _ => none
      else none
    | '*', _ => (parse fuel (some c) cs).map (.anyText :: ·)
    | '[', '!' :: rest => do
      let (ranges, rest) ← set? rest
      return .noneOf ranges :: (← parse fuel (some ']') rest)
    | '[', _ => do
      let (ranges, rest) ← set? cs
      return .anyOf ranges :: (← parse fuel (some ']') rest)
    | _, _ => (parse fuel (some c) cs).map (.char c :: ·)

def parse? (text : String) : Option (List GlobToken) := parse (text.length + 1) none text.toList

def inRanges (c : Char) (rs : List CharRange) : Bool := rs.any fun r => r.first ≤ c && c ≤ r.last

def tails : List Char → List (List Char)
  | [] => [[]]
  | c :: cs => (c :: cs) :: tails cs

def components : List Char → List (List Char)
  | [] => []
  | c :: cs => if c == '/' then cs :: components cs else components cs

def accepts : List GlobToken → List Char → Bool
  | [], cs => cs.isEmpty
  | .anyText :: ts, cs => (tails cs).any (accepts ts)
  | .anyComponents :: ts, cs => (cs :: components cs ++ [[]]).any (accepts ts)
  | .char _ :: _, [] | .anyChar :: _, [] | .anyOf _ :: _, [] | .noneOf _ :: _, [] => false
  | .char d :: ts, c :: cs => c == d && accepts ts cs
  | .anyChar :: ts, _ :: cs => accepts ts cs
  | .anyOf rs :: ts, c :: cs => inRanges c rs && accepts ts cs
  | .noneOf rs :: ts, c :: cs => !inRanges c rs && accepts ts cs

end GlobToken

def isPattern (text : String) : Bool := text.toList.any fun c => c == '*' || c == '?' || c == '['

/-- Whether an id matches a pattern; one that is not well formed matches nothing. -/
def globMatches (pattern id : String) : Bool :=
  (GlobToken.parse? pattern).any (GlobToken.accepts · id.toList)

end Treeshake
