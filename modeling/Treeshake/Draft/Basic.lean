import Treeshake.Draft.Fault
import Treeshake.Text.Blank
import Treeshake.Text.Offset
/-!
Text under revision. A draft is a list of cells, one a character, and a cell that comes from the text
the draft began with remembers its offset there. Every edit cuts or extends this list, so a surviving
character keeps its offset and the order of the others. Main statement: the cells of an unedited draft
spell its text.
-/
set_option autoImplicit false

namespace Treeshake

structure Cell where
  char : Char
  origin : Option Nat
  deriving DecidableEq, Repr

namespace Cell

def fresh (text : List Char) : List Cell := text.map (⟨·, none⟩)

def settled : Nat → List Char → List Cell
  | _, [] => []
  | offset, c :: cs => ⟨c, some offset⟩ :: settled (offset + c.utf8Size) cs

def text (cells : List Cell) : List Char := cells.map Cell.char

@[simp] theorem text_fresh (cs : List Char) : text (fresh cs) = cs := by
  simp [text, fresh, Function.comp_def]

@[simp] theorem text_settled (offset : Nat) (cs : List Char) : text (settled offset cs) = cs := by
  induction cs generalizing offset with
  | nil => rfl
  | cons c cs ih => simpa [text, settled] using ih (offset + c.utf8Size)

def covers (offset : Nat) (c : Cell) : Bool :=
  c.origin.any fun o => o ≤ offset && offset < o + c.char.utf8Size

def within (start stop : Nat) (c : Cell) : Bool :=
  c.origin.any fun o => start ≤ o && o < stop

def startsAt (offset : Nat) (c : Cell) : Bool := c.origin == some offset

def endsAt (offset : Nat) (c : Cell) : Bool :=
  c.origin.any fun o => o + c.char.utf8Size == offset

def locate? (offset : Nat) : List Cell → Option Nat
  | [] => none
  | c :: cs =>
    if c.covers offset then c.origin.map (offset - ·)
    else (locate? offset cs).map (c.char.utf8Size + ·)

/-- The cells before the first that satisfies a test. -/
def upTo (p : Cell → Bool) (cells : List Cell) : List Cell := cells.takeWhile (!p ·)

def since (p : Cell → Bool) (cells : List Cell) : List Cell := cells.dropWhile (!p ·)

def behind (p : Cell → Bool) (cells : List Cell) : List Cell :=
  (cells.reverse.takeWhile (!p ·)).reverse

theorem upTo_append_since (p : Cell → Bool) (cells : List Cell) :
    upTo p cells ++ since p cells = cells := List.takeWhile_append_dropWhile

end Cell

/-- A draft knows the text it began with, the names that overwriting recorded by their offsets, the
offsets that start a segment of its map, and the ranges that indentation leaves alone. -/
structure Draft where
  source : String
  cells : List Cell
  names : List (Nat × String) := []
  anchors : List Nat := []
  protectedRanges : List (Nat × Nat) := []
  deriving DecidableEq

namespace Draft

def ofText (source : String) : Draft := { source, cells := Cell.settled 0 source.toList }

def length (d : Draft) : Nat := Text.size d.source.toList

def text (d : Draft) : String := String.ofList (Cell.text d.cells)

@[simp] theorem text_ofText (s : String) : (ofText s).text = s := by simp [text, ofText]

def isEmpty (d : Draft) : Bool := d.cells.isEmpty

def locate? (d : Draft) (offset : Nat) : Option Nat := Cell.locate? offset d.cells

def cellAt? (d : Draft) (offset : Nat) : Option Cell := d.cells.find? (·.covers offset)

def anchor (d : Draft) (offset : Nat) : Draft := { d with anchors := offset :: d.anchors }

/-- Keeps a range of the first text from being indented within an assembly. -/
def protect (d : Draft) (start stop : Nat) : Draft :=
  { d with protectedRanges := d.protectedRanges ++ [(start, stop)] }

def append (d : Draft) (text : String) : Draft :=
  { d with cells := d.cells ++ Cell.fresh text.toList }

def prepend (d : Draft) (text : String) : Draft :=
  { d with cells := Cell.fresh text.toList ++ d.cells }

/-- Text in front of the byte at an offset of the first text; at its end, text behind everything. -/
def insert (d : Draft) (offset : Nat) (text : String) : Except EditFault Draft :=
  if offset = d.length then .ok (d.append text)
  else if d.length < offset then .error (.outOfBounds offset)
  else if (d.locate? offset).isNone then .error (.insertAtReplaced offset)
  else .ok { d with
    cells := Cell.upTo (·.covers offset) d.cells ++ Cell.fresh text.toList
      ++ Cell.since (·.covers offset) d.cells }

/-- Names by offset, one for an offset that has one. -/
def recordName (offset : Nat) (name : String) : List (Nat × String) → List (Nat × String)
  | [] => [(offset, name)]
  | (o, n) :: rest =>
    if offset < o then (offset, name) :: (o, n) :: rest
    else if offset = o then (offset, name) :: rest
    else (o, n) :: recordName offset name rest

def nameRange (d : Draft) (start stop : Nat) : List (Nat × String) :=
  match Text.slice? start stop d.source.toList with
  | some name => recordName start (String.ofList name) d.names
  | none => d.names

/-- A range of the first text, with all that stands between its two ends, gives way to new text. -/
def overwrite (d : Draft) (start stop : Nat) (text : String) (storeName : Bool) :
    Except EditFault Draft :=
  if stop ≤ start then .error (.invalidRange start stop)
  else if d.length < stop then .error (.outOfBounds stop)
  else
    match d.cellAt? start, d.cellAt? (stop - 1) with
    | some first, some last =>
      if first.startsAt start && last.endsAt stop then
        .ok { d with
          names := if storeName then d.nameRange start stop else d.names
          cells := Cell.upTo (·.covers start) d.cells ++ Cell.fresh text.toList
            ++ Cell.behind (·.covers (stop - 1)) d.cells }
      else .error (.invalidRange start stop)
    | _, _ => .error (.overwriteTwice start stop)

/-- All that stands between the first and the last survivor of a range goes. -/
def remove (d : Draft) (start stop : Nat) : Except EditFault Draft :=
  if stop < start then .error (.invalidRange start stop)
  else if d.length < stop then .error (.outOfBounds stop)
  else if d.cells.any (·.within start stop) then
    .ok { d with
      cells := Cell.upTo (·.within start stop) d.cells ++ Cell.behind (·.within start stop) d.cells }
  else .ok d

/-- The text between the places of the first and the last byte of a range. -/
def slice (d : Draft) (start stop : Nat) : Except EditFault String :=
  if stop ≤ start then .ok ""
  else
    match d.cellAt? start, d.cellAt? (stop - 1) with
    | none, _ => .error (.sliceAnchor start)
    | _, none => .error (.sliceAnchor stop)
    | some first, some last =>
      if first.startsAt start && last.endsAt stop then
        .ok (String.ofList (Cell.text (Cell.upTo (·.covers (stop - 1))
          (Cell.since (·.covers start) d.cells) ++ [last])))
      else .error (.invalidRange start stop)

def snip (d : Draft) (start stop : Nat) : Except EditFault Draft := do
  (← d.remove 0 start).remove stop d.length

def trimStart (p : Char → Bool) (d : Draft) : Draft :=
  { d with cells := d.cells.dropWhile (p ·.char) }

def trimEnd (p : Char → Bool) (d : Draft) : Draft :=
  { d with cells := (d.cells.reverse.dropWhile (p ·.char)).reverse }

def trim (d : Draft) : Draft := (d.trimStart Text.isBlank).trimEnd Text.isBlank

def trimLines (d : Draft) : Draft := (d.trimStart Text.isBreak).trimEnd Text.isBreak

end Draft

end Treeshake
