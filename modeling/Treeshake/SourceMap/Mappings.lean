import Treeshake.SourceMap.Vlq
import Treeshake.Text.Offset
/-!
Position mappings, and their text: lines end in semicolons, segments in commas, and each field is
written as its difference from the same field of the segment before it.
-/
set_option autoImplicit false

namespace Treeshake.SourceMap

structure Segment where
  column : UInt32
  source : UInt32
  sourceLine : UInt32
  sourceColumn : UInt32
  name : Option UInt32
  deriving DecidableEq, Repr

abbrev Lines := List (List Segment)

/-- The last value of each field that carries over from segment to segment. -/
structure Cursor where
  source : Int64 := 0
  line : Int64 := 0
  column : Int64 := 0
  name : Int64 := 0
  deriving DecidableEq

def wide (n : UInt32) : Int64 := n.toUInt64.toInt64

def narrow (n : Int64) : UInt32 := n.toUInt64.toUInt32

def Cursor.after (k : Cursor) (s : Segment) : Cursor where
  source := wide s.source
  line := wide s.sourceLine
  column := wide s.sourceColumn
  name := (s.name.map wide).getD k.name

def Segment.deltas (s : Segment) (column : Int64) (k : Cursor) : List Int64 :=
  [wide s.column - column, wide s.source - k.source, wide s.sourceLine - k.line,
    wide s.sourceColumn - k.column] ++ (s.name.map fun n => wide n - k.name).toList

def encodeLine : Int64 → Cursor → List Segment → List (List Char) × Cursor
  | _, k, [] => ([], k)
  | column, k, s :: ss =>
    let (texts, k') := encodeLine (wide s.column) (k.after s) ss
    (Vlq.encode (s.deltas column k) :: texts, k')

def encodeLines : Cursor → Lines → List (List Char)
  | _, [] => []
  | k, l :: ls =>
    let (texts, k') := encodeLine 0 k l
    Text.joinWith ',' texts :: encodeLines k' ls

def encodeMappings (lines : Lines) : String :=
  String.ofList (Text.joinWith ';' (encodeLines {} lines))

def segmentOf (column : Int64) (k : Cursor) : List Int64 → Option (Segment × Cursor)
  | source :: line :: col :: rest =>
    let k' : Cursor := ⟨k.source + source, k.line + line, k.column + col, k.name + rest.headD 0⟩
    some (⟨narrow column, narrow k'.source, narrow k'.line, narrow k'.column,
      rest.head?.map fun _ => narrow k'.name⟩, k')
  | _ => none

/-- The segments of a line's texts. An empty text counts for nothing, and one without a source only
moves the generated column. -/
def decodeLine : Int64 → Cursor → List (List Char) → Except Fault (List Segment × Cursor)
  | _, k, [] => .ok ([], k)
  | column, k, w :: ws =>
    if w.isEmpty then decodeLine column k ws
    else do
      match ← Vlq.decode (String.ofList w) with
      | [] => decodeLine column k ws
      | delta :: fields =>
        match segmentOf (column + delta) k fields with
        | none => decodeLine (column + delta) k ws
        | some (s, k') =>
          let (ss, k'') ← decodeLine (column + delta) k' ws
          return (s :: ss, k'')

def decodeLines : Cursor → List (List Char) → Except Fault Lines
  | _, [] => .ok []
  | k, w :: ws => do
    let (ss, k') ← decodeLine 0 k (Text.splitBy (· == ',') w)
    let lines ← decodeLines k' ws
    return ss :: lines

def decodeMappings (mappings : String) : Except Fault Lines :=
  decodeLines {} (Text.splitBy (· == ';') mappings.toList)

end Treeshake.SourceMap
