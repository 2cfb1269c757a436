import Treeshake.SourceMap.Basic
/-!
A map seen through the transforms of its sources, so that it points at the texts they started from.
-/
set_option autoImplicit false

namespace Treeshake.SourceMap

/-- The maps of a source's transforms in the order they ran, and the text before the first. -/
structure Chain where
  maps : List (Option SourceMap)
  code : String
  deriving DecidableEq

def Chain.decoded (c : Chain) : Except Fault (List Lines) :=
  c.maps.mapM fun
    | some m => m.decoded
    | none => .error .missingMap

/-- Where a line's segments place a column: only a segment that starts there tells. -/
def placeIn (column : UInt32) : List Segment → Except Fault (Option (UInt32 × UInt32))
  | [] => .ok none
  | s :: ss =>
    if column < s.column then .ok none
    else if s.column = column then
      if s.source = 0 then .ok (some (s.sourceLine, s.sourceColumn)) else .error .foreignSource
    else placeIn column ss

def place (lines : Lines) (at_ : UInt32 × UInt32) : Except Fault (Option (UInt32 × UInt32)) :=
  match lines[at_.1.toNat]? with
  | none => .ok none
  | some segments => placeIn at_.2 segments

def placeThrough : List Lines → UInt32 × UInt32 → Except Fault (Option (UInt32 × UInt32))
  | [], at_ => .ok (some at_)
  | lines :: rest, at_ => do
    match ← place lines at_ with
    | none => return none
    | some next => placeThrough rest next

def Segment.through (chains : List (List Lines)) (s : Segment) : Except Fault (Option Segment) :=
  match chains[s.source.toNat]? with
  | none => .error (.unknownSource s.source.toNat)
  | some chain => do
    let found ← placeThrough chain.reverse (s.sourceLine, s.sourceColumn)
    return found.map fun at_ => { s with sourceLine := at_.1, sourceColumn := at_.2, name := none }

def collapse (m : SourceMap) (chains : List Chain) : Except Fault SourceMap := do
  let decoded ← chains.mapM Chain.decoded
  let lines ← (← m.decoded).mapM fun segments =>
    return (← segments.mapM (Segment.through decoded)).filterMap id
  return { m with
    sourcesContent := chains.map fun c => some c.code
    names := []
    mappings := encodeMappings lines }

end Treeshake.SourceMap
