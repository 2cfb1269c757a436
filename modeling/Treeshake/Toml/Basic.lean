import Treeshake.Table
/-!
TOML values, and how a document makes its tables grow.
-/
set_option autoImplicit false

namespace Treeshake

/-- How a table came about, which decides how it may still grow: a header names it or leads through it,
a dotted key leads through it, or it stands in braces. -/
inductive TableOrigin where
  | header
  | implied
  | dotted
  | inline
  deriving DecidableEq, Repr

/-- The last table of an array of tables is the one that still grows. Decimals keep their text. -/
inductive Toml where
  | string (s : String)
  | int (n : Int)
  | decimal (text : String)
  | bool (b : Bool)
  | dateTime (text : String)
  | array (items : List Toml)
  | table (origin : TableOrigin) (members : List (String × Toml))
  | tables (before : List Toml) (last : List (String × Toml))
  deriving Inhabited

namespace Toml

def string? : Toml → Option String
  | .string s => some s
  | _ => none

def bool? : Toml → Option Bool
  | .bool b => some b
  | _ => none

def items? : Toml → Option (List Toml)
  | .array items => some items
  | .tables before last => some (before ++ [.table .header last])
  | _ => none

def timeKey : String := "$__toml_private_datetime"

def members? : Toml → Option (Table Toml)
  | .table _ ms => some ms
  | .dateTime text => some [(timeKey, .string text)]
  | _ => none

/-- Changes the table at the end of a path. Missing tables on the way are made, with origin `fresh`; only
those whose origin `passes` lead on. -/
def descend (fresh : TableOrigin) (passes : TableOrigin → Bool)
    (change : TableOrigin → Table Toml → Option (Table Toml)) :
    List String → TableOrigin → Table Toml → Option (Table Toml)
  | [], origin, ms => change origin ms
  | key :: path, _, ms =>
    match ms.get? key with
    | none =>
      (descend fresh passes change path fresh []).map fun inner => ms.insert key (.table fresh inner)
    | some (.table origin inner) =>
      if passes origin then
        (descend fresh passes change path origin inner).map fun inner =>
          ms.insert key (.table origin inner)
      else none
    | some (.tables before last) =>
      (descend fresh passes change path .header last).map fun last =>
        ms.insert key (.tables before last)
    | some _ => none

/-- Gives a new key its value. A dotted key defines tables of its own, and adds to no others. -/
def define (path : List String) (key : String) (value : Toml) : TableOrigin → Table Toml →
    Option (Table Toml) :=
  descend .dotted (fun origin => origin == .dotted || origin == .implied)
    (fun origin ms =>
      if (!path.isEmpty && origin != .dotted) || ms.has key then none else some (ms ++ [(key, value)]))
    path

def underHeader (change : TableOrigin → Table Toml → Option (Table Toml)) (path : List String)
    (root : Table Toml) : Option (Table Toml) :=
  descend .implied (· != .inline) change path .header root

def openTable (path : List String) (key : String) : Table Toml → Option (Table Toml) :=
  underHeader (fun _ ms =>
    match ms.get? key with
    | none => some (ms ++ [(key, .table .header [])])
    | some (.table .implied inner) => some (ms.insert key (.table .header inner))
    | some _ => none) path

def openItem (path : List String) (key : String) : Table Toml → Option (Table Toml) :=
  underHeader (fun _ ms =>
    match ms.get? key with
    | none => some (ms ++ [(key, .tables [] [])])
    | some (.tables before last) => some (ms.insert key (.tables (before ++ [.table .header last]) []))
    | some _ => none) path

end Toml

end Treeshake
