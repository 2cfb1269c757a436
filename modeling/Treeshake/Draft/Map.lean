import Treeshake.Draft.Basic
import Treeshake.Path
import Treeshake.SourceMap.Basic
/-!
Source maps of drafts.
-/
set_option autoImplicit false

namespace Treeshake

structure MapOptions where
  file : Option String := none
  source : Option String := none
  includeContent : Bool := false
  hires : Bool := false

namespace Draft

/-- The line of an offset and its column in UTF-16 units, both from zero. -/
def position (source : List Char) (offset : Nat) : Nat × Nat :=
  let before := (Text.before? offset source).getD source
  (Text.breaks before, Text.units (Text.lastLine before))

structure Legend where
  source : List Char
  index : UInt32
  hires : Bool
  anchors : List Nat
  recorded : List (Nat × String)
  names : List String

def Legend.segment (g : Legend) (column offset : Nat) (name : Option String) : SourceMap.Segment :=
  let at_ := position g.source offset
  ⟨column.toUInt32, g.index, at_.1.toUInt32, at_.2.toUInt32,
    (name.bind fun n => g.names.idxOf? n).map Nat.toUInt32⟩

/-- The segment that a cell starts. New text behind a surviving character points behind it; a
surviving character that does not continue the one before it points at itself. -/
def Legend.segment? (g : Legend) (column : Nat) (last : Option Nat) (c : Cell) :
    Option SourceMap.Segment :=
  match c.origin, last with
  | none, some stop => some (g.segment column stop (g.recorded.lookup stop))
  | none, none => none
  | some o, last =>
    if g.hires || last != some o || g.anchors.contains o then some (g.segment column o none)
    else none

/-- The segments of each line, from a column of the line on; `last` is the offset behind the character
before it, if that survives from the first text and stands on the same line. -/
def Legend.lines (g : Legend) : Nat → Option Nat → List Cell → SourceMap.Lines
  | _, _, [] => [[]]
  | column, last, c :: cs =>
    let here := (g.segment? column last c).toList
    if c.char == '\n' then here :: g.lines 0 none cs
    else
      (g.lines (column + Text.units [c.char]) (c.origin.map (· + c.char.utf8Size)) cs).modifyHead
        (here ++ ·)

def mapNames (d : Draft) : List String := (d.names.map (·.2)).eraseDups

def mapLines (d : Draft) (hires : Bool) (index : UInt32) (names : List String) : SourceMap.Lines :=
  Legend.lines ⟨d.source.toList, index, hires, d.anchors, d.names, names⟩ 0 none d.cells

def map (d : Draft) (o : MapOptions) : SourceMap where
  file := o.file.map Path.basename
  sources := [o.source.map (Path.relative (o.file.getD ""))]
  sourcesContent := [if o.includeContent then some d.source else none]
  names := d.mapNames
  mappings := SourceMap.encodeMappings (d.mapLines o.hires 0 d.mapNames)

end Draft

end Treeshake
