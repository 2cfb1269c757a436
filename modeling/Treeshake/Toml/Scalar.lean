import Treeshake.Json.Reader
import Treeshake.Toml.Basic
/-!
TOML values without parts: numbers, truth values and times, each read from a word of its own.
-/
set_option autoImplicit false

namespace Treeshake.Toml

def digitGroup? (isDigit : Char → Bool) : List Char → Option (List Char)
  | [] => none
  | [d] => if isDigit d then some [d] else none
  | d :: '_' :: ds => if isDigit d then (digitGroup? isDigit ds).map (d :: ·) else none
  | d :: ds => if isDigit d then (digitGroup? isDigit ds).map (d :: ·) else none

def wholeDigits? (cs : List Char) : Option (List Char) :=
  match digitGroup? Char.isDigit cs with
  | some ('0' :: _ :: _) => none
  | r => r

def splitSign : List Char → Bool × List Char
  | '-' :: cs => (true, cs)
  | '+' :: cs => (false, cs)
  | cs => (false, cs)

def digitsIn (base : Nat) (ds : List Char) : Nat :=
  ds.foldl (fun n d => base * n + (Json.hexValue? d).getD 0) 0

def natIn? (base : Nat) (cs : List Char) : Option Int :=
  (digitGroup? (fun c => (Json.hexValue? c).any (· < base)) cs).map fun ds => (digitsIn base ds : Int)

def anyInt? : List Char → Option Int
  | '0' :: 'x' :: cs => natIn? 16 cs
  | '0' :: 'o' :: cs => natIn? 8 cs
  | '0' :: 'b' :: cs => natIn? 2 cs
  | cs =>
    let (negative, ds) := splitSign cs
    (wholeDigits? ds).map fun ds => if negative then -(digitsIn 10 ds : Int) else digitsIn 10 ds

def int? (cs : List Char) : Option Int :=
  (anyInt? cs).filter fun n => Int64.minValue.toInt ≤ n && n ≤ Int64.maxValue.toInt

def cutAt (isMark : Char → Bool) (cs : List Char) : List Char × Option (List Char) :=
  match cs.dropWhile (!isMark ·) with
  | [] => (cs, none)
  | _ :: rest => (cs.takeWhile (!isMark ·), some rest)

def exponent? (cs : List Char) : Option Int :=
  let (negative, ds) := splitSign cs
  (digitGroup? Char.isDigit ds).map fun ds => if negative then -(digitsIn 10 ds : Int) else digitsIn 10 ds

/-- Whether a word is a decimal: it has a fraction or an exponent, and no value above all doubles. -/
def isDecimal (cs : List Char) : Bool :=
  let (negative, cs) := splitSign cs
  let (mantissa, power) := cutAt (fun c => c == 'e' || c == 'E') cs
  let (whole, fraction) := cutAt (· == '.') mantissa
  let parts := do
    let whole ← wholeDigits? whole
    let fraction ← match fraction with
      | none => some []
      | some ds => digitGroup? Char.isDigit ds
    let power ← match power with
      | none => some 0
      | some cs => exponent? cs
    return negative || Json.isFinite (digitsIn 10 (whole ++ fraction)) (power - fraction.length)
  (fraction.isSome || power.isSome) && parts.getD false

def number2? (a b : Char) : Option Nat :=
  if a.isDigit && b.isDigit then some (digitsIn 10 [a, b]) else none

def daysIn (year month : Nat) : Nat :=
  if month == 2 then if year % 4 == 0 && (year % 100 != 0 || year % 400 == 0) then 29 else 28
  else if [4, 6, 9, 11].contains month then 30
  else 31

def date? : List Char → Option (List Char × List Char)
  | y₁ :: y₂ :: y₃ :: y₄ :: '-' :: m₁ :: m₂ :: '-' :: d₁ :: d₂ :: rest => do
    let year := (← number2? y₁ y₂) * 100 + (← number2? y₃ y₄)
    let month ← number2? m₁ m₂
    let day ← number2? d₁ d₂
    if 1 ≤ month && month ≤ 12 && 1 ≤ day && day ≤ daysIn year month then
      some ([y₁, y₂, y₃, y₄, '-', m₁, m₂, '-', d₁, d₂], rest)
    else none
  | _ => none

/-- A fraction of a second, to nine places and without zeros at its end. -/
def secondFraction? : List Char → Option (List Char × List Char)
  | '.' :: cs =>
    let ds := cs.takeWhile Char.isDigit
    let kept := ((ds.take 9).reverse.dropWhile (· == '0')).reverse
    if ds.isEmpty then none
    else some (if kept.isEmpty then [] else '.' :: kept, cs.drop ds.length)
  | cs => some ([], cs)

/-- A time of the day and what follows it; a minute may have one second more. -/
def time? : List Char → Option (List Char × List Char)
  | h₁ :: h₂ :: ':' :: m₁ :: m₂ :: ':' :: s₁ :: s₂ :: rest => do
    let hour ← number2? h₁ h₂
    let minute ← number2? m₁ m₂
    let second ← number2? s₁ s₂
    let (fraction, rest) ← secondFraction? rest
    if hour ≤ 23 && minute ≤ 59 && second ≤ 60 then
      some ([h₁, h₂, ':', m₁, m₂, ':', s₁, s₂] ++ fraction, rest)
    else none
  | _ => none

def offset? : List Char → Option (List Char)
  | [] => some []
  | ['Z'] | ['z'] => some ['Z']
  | [sign, h₁, h₂, ':', m₁, m₂] => do
    let hour ← number2? h₁ h₂
    let minute ← number2? m₁ m₂
    let signed := sign == '+' || sign == '-'
    if signed && hour ≤ 23 && minute ≤ 59 then some [sign, h₁, h₂, ':', m₁, m₂] else none
  | _ => none

def timeOn? (date cs : List Char) : Option Toml := do
  let (time, rest) ← time? cs
  return .dateTime (String.ofList (date ++ 'T' :: time ++ (← offset? rest)))

def isWordChar (c : Char) : Bool :=
  c.isAlphanum || c == '+' || c == '-' || c == '_' || c == '.' || c == ':'

def splitWord (cs : List Char) : List Char × List Char :=
  (cs.takeWhile isWordChar, cs.dropWhile isWordChar)

def dateTime? (word rest : List Char) : Option (Toml × List Char) :=
  match date? word with
  | some (date, []) =>
    match rest with
    | ' ' :: d :: _ =>
      if d.isDigit then
        let (word, rest) := splitWord rest.tail
        (timeOn? date word).map fun t => (t, rest)
      else some (.dateTime (String.ofList date), rest)
    | _ => some (.dateTime (String.ofList date), rest)
  | some (date, mark :: word) =>
    if mark == 'T' || mark == 't' then (timeOn? date word).map fun t => (t, rest) else none
  | none =>
    match time? word with
    | some (time, []) => some (.dateTime (String.ofList time), rest)
    | _ => none

def scalar (cs : List Char) : Option (Toml × List Char) :=
  let (word, rest) := splitWord cs
  let text := String.ofList word
  let unsigned := String.ofList (splitSign word).2
  if text == "true" then some (.bool true, rest)
  else if text == "false" then some (.bool false, rest)
  else if unsigned == "inf" || unsigned == "nan" then some (.decimal text, rest)
  else
    match int? word with
    | some n => some (.int n, rest)
    | none => if isDecimal word then some (.decimal text, rest) else dateTime? word rest

end Treeshake.Toml
