import Treeshake.Json.Basic
/-!
The reading of JSON text.
-/
set_option autoImplicit false

namespace Treeshake.Json

/-- How much a reading checks beyond the grammar: whether values nest at most so deep, and whether
numbers fit a double and every surrogate has its pair. Values that are skipped need only the grammar. -/
structure Strictness where
  depth : Nat
  checked : Bool

def isSpace (c : Char) : Bool := c == ' ' || c == '\t' || c == '\n' || c == '\r'

def skipSpaces (cs : List Char) : List Char := cs.dropWhile isSpace

def hexValue? (c : Char) : Option Nat :=
  if c.isDigit then some (c.toNat - 48)
  else if 'a' ≤ c && c ≤ 'f' then some (c.toNat - 87)
  else if 'A' ≤ c && c ≤ 'F' then some (c.toNat - 55)
  else none

def hex4? (a b c d : Char) : Option Nat := do
  return (((← hexValue? a) * 16 + (← hexValue? b)) * 16 + (← hexValue? c)) * 16 + (← hexValue? d)

def shortEscape? : Char → Option Char
  | '"' => some '"'
  | '\\' => some '\\'
  | '/' => some '/'
  | 'b' => some '\x08'
  | 'f' => some '\x0c'
  | 'n' => some '\n'
  | 'r' => some '\r'
  | 't' => some '\t'
  | _ => none

def isLead (n : Nat) : Bool := 0xD800 ≤ n && n ≤ 0xDBFF

def isTrail (n : Nat) : Bool := 0xDC00 ≤ n && n ≤ 0xDFFF

def pairChar (lead trail : Nat) : Char := Char.ofNat (0x10000 + (lead - 0xD800) * 0x400 + (trail - 0xDC00))

/-- The characters up to the closing quote, the last one read first. A leading surrogate waits for the
escape that follows it. -/
def stringBody (checked : Bool) (lead : Option Nat) (acc : List Char) :
    List Char → Option (String × List Char)
  | [] => none
  | '\\' :: 'u' :: a :: b :: c :: d :: rest =>
    match hex4? a b c d, lead with
    | none, _ => none
    | some n, some l =>
      if isTrail n then stringBody checked none (pairChar l n :: acc) rest
      else if checked then none
      else if isLead n then stringBody checked (some n) acc rest
      else stringBody checked none (Char.ofNat n :: acc) rest
    | some n, none =>
      if isLead n then stringBody checked (some n) acc rest
      else if isTrail n then if checked then none else stringBody checked none acc rest
      else stringBody checked none (Char.ofNat n :: acc) rest
  | '\\' :: c :: rest =>
    if checked && lead.isSome then none
    else
      match shortEscape? c with
      | some e => stringBody checked none (e :: acc) rest
      | none => none
  | c :: rest =>
    if checked && lead.isSome then none
    else if c == '"' then some (String.ofList acc.reverse, rest)
    else if c.toNat < 32 || c == '\\' then none
    else stringBody checked none (c :: acc) rest

def digitsOf (cs : List Char) : List Char × List Char :=
  (cs.takeWhile Char.isDigit, cs.dropWhile Char.isDigit)

def natOf (ds : List Char) : Nat := ds.foldl (fun n d => 10 * n + (d.toNat - 48)) 0

def integerPart (cs : List Char) : Option (List Char × List Char) :=
  match digitsOf cs with
  | ([], _) => none
  | ('0' :: _ :: _, _) => none
  | (ds, rest) => some (ds, rest)

def fractionPart : List Char → Option (List Char × List Char)
  | '.' :: cs =>
    match digitsOf cs with
    | ([], _) => none
    | (ds, rest) => some (ds, rest)
  | cs => some ([], cs)

def exponentDigits (cs : List Char) : Option (Nat × List Char) :=
  match digitsOf cs with
  | ([], _) => none
  | (ds, rest) => some (natOf ds, rest)

def exponentPart : List Char → Option (Option Int × List Char)
  | c :: cs =>
    if c == 'e' || c == 'E' then
      match cs with
      | '-' :: cs => (exponentDigits cs).map fun r => (some (-(r.1 : Int)), r.2)
      | '+' :: cs => (exponentDigits cs).map fun r => (some (r.1 : Int), r.2)
      | cs => (exponentDigits cs).map fun r => (some (r.1 : Int), r.2)
    else some (none, c :: cs)
  | [] => some (none, [])

def isFinite (mantissa : Nat) (exponent : Int) : Bool :=
  let bound := Nat.pow 2 1024 - Nat.pow 2 970
  let top := (Nat.toDigits 10 mantissa).length + exponent
  if mantissa == 0 || top < 300 then true
  else if 400 < top then false
  else if 0 ≤ exponent then mantissa * Nat.pow 10 exponent.toNat < bound
  else mantissa < bound * Nat.pow 10 (-exponent).toNat

/-- Integers are those without a fraction, an exponent or a minus before zero. -/
def number (checked negative : Bool) (cs : List Char) : Option (Json × List Char) := do
  let (whole, cs) ← integerPart cs
  let (fraction, cs) ← fractionPart cs
  let (exponent, cs) ← exponentPart cs
  let digits := natOf (whole ++ fraction)
  let signed : Int := if negative then -(digits : Int) else digits
  let power := exponent.getD 0 - fraction.length
  if checked && !isFinite digits power then none
  else if fraction.isEmpty && exponent.isNone && !(negative && digits == 0) then
    some (.int signed, cs)
  else some (.decimal signed power, cs)

def literal (word : String) (value : Json) (cs : List Char) : Option (Json × List Char) :=
  if word.toList.isPrefixOf cs then some (value, cs.drop word.length) else none

mutual

def value : Nat → Strictness → List Char → Option (Json × List Char)
  | 0, _, _ => none
  | fuel + 1, mode, cs =>
    match skipSpaces cs with
    | '"' :: cs => (stringBody mode.checked none [] cs).map fun r => (.string r.1, r.2)
    | '-' :: cs => number mode.checked true cs
    | '[' :: cs =>
      if mode.checked && mode.depth == 0 then none
      else
        let mode := { mode with depth := mode.depth - 1 }
        match skipSpaces cs with
        | ']' :: cs => some (.array [], cs)
        | cs => (items fuel mode cs).map fun r => (.array r.1, r.2)
    | '{' :: cs =>
      if mode.checked && mode.depth == 0 then none
      else
        let mode := { mode with depth := mode.depth - 1 }
        match skipSpaces cs with
        | '}' :: cs => some (.object [], cs)
        | cs => (members fuel mode cs).map fun r => (.object r.1, r.2)
    | 't' :: cs => literal "rue" (.bool true) cs
    | 'f' :: cs => literal "alse" (.bool false) cs
    | 'n' :: cs => literal "ull" .null cs
    | cs => number mode.checked false cs

def items : Nat → Strictness → List Char → Option (List Json × List Char)
  | 0, _, _ => none
  | fuel + 1, mode, cs => do
    let (j, cs) ← value fuel mode cs
    match skipSpaces cs with
    | ',' :: cs => (items fuel mode cs).map fun r => (j :: r.1, r.2)
    | ']' :: cs => some ([j], cs)
    | _ => none

def members : Nat → Strictness → List Char → Option (List (String × Json) × List Char)
  | 0, _, _ => none
  | fuel + 1, mode, cs => do
    let (key, cs) ← memberKey mode cs
    let (j, cs) ← value fuel mode cs
    match skipSpaces cs with
    | ',' :: cs => (members fuel mode cs).map fun r => ((key, j) :: r.1, r.2)
    | '}' :: cs => some ([(key, j)], cs)
    | _ => none

def memberKey (mode : Strictness) (cs : List Char) : Option (String × List Char) :=
  match skipSpaces cs with
  | '"' :: cs => do
    let (key, cs) ← stringBody mode.checked none [] cs
    match skipSpaces cs with
    | ':' :: cs => some (key, cs)
    | _ => none
  | _ => none

end

def maxDepth : Nat := 127

def parse? (text : String) (depth : Nat := maxDepth) : Option Json := do
  let (j, rest) ← value (text.length + 1) ⟨depth, true⟩ text.toList
  if (skipSpaces rest).isEmpty then some j else none

/-- The members of a text that spells an object. A key outside `known` is skipped: its value only has
to follow the grammar, and counts as null. -/
def knownMembers (known : List String) : Nat → List Char → Option (List (String × Json) × List Char)
  | 0, _ => none
  | fuel + 1, cs => do
    let mode : Strictness := ⟨maxDepth - 1, true⟩
    let (key, cs) ← memberKey mode cs
    let (j, cs) ← value (cs.length + 1) { mode with checked := known.contains key } cs
    let member := (key, if known.contains key then j else .null)
    match skipSpaces cs with
    | ',' :: cs => (knownMembers known fuel cs).map fun r => (member :: r.1, r.2)
    | '}' :: cs => some ([member], cs)
    | _ => none

def parseKnown? (known : List String) (text : String) : Option Json :=
  match skipSpaces text.toList with
  | '{' :: cs => do
    let (ms, rest) ← match skipSpaces cs with
      | '}' :: cs => some ([], cs)
      | cs => knownMembers known (cs.length + 1) cs
    if (skipSpaces rest).isEmpty then some (.object ms) else none
  | _ => parse? text

end Treeshake.Json
