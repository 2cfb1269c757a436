import Treeshake.Draft.Indent
import Treeshake.Draft.Map
/-!
Drafts joined into one text with one source map. Between two parts stands a separator, in front of the
first part the opening, and behind the last the closing.
-/
set_option autoImplicit false

namespace Treeshake

/-- A part without a filename is not mapped; a part may bring the separator in front of it. -/
structure Part where
  draft : Draft
  filename : Option String := none
  separator : Option String := none
  deriving DecidableEq

/-- Its `sources` list each filename once with the text its drafts begin with. -/
structure Assembly where
  separator : String
  opening : String := ""
  closing : String := ""
  parts : List Part := []
  sources : List (String × String) := []
  deriving DecidableEq

namespace Assembly

def add (a : Assembly) (draft : Draft) (filename : Option String) : Except EditFault Assembly :=
  let extended := { a with parts := a.parts ++ [⟨draft, filename, none⟩] }
  match filename with
  | none => .ok extended
  | some name =>
    match a.sources.lookup name with
    | none => .ok { extended with sources := a.sources ++ [(name, draft.source)] }
    | some text => if text = draft.source then .ok extended else .error (.conflictingSource name)

def append (a : Assembly) (text : String) : Assembly :=
  { a with parts := a.parts ++ [⟨Draft.ofText text, none, some ""⟩] }

def prepend (a : Assembly) (text : String) : Assembly := { a with opening := text ++ a.opening }

def filenames (a : Assembly) : List String := a.sources.map (·.1)

def partTexts (separator : String) : Bool → List Part → List String
  | _, [] => []
  | first, p :: ps =>
    (if first then "" else p.separator.getD separator) :: p.draft.text :: partTexts separator false ps

def text (a : Assembly) : String :=
  a.opening ++ String.join (partTexts a.separator true a.parts) ++ a.closing

def mostFrequent (names : List String) : Option String :=
  names.eraseDups.foldl
    (fun best name =>
      match best with
      | none => some name
      | some b => if names.count b < names.count name then some name else some b)
    none

def indentUnit (a : Assembly) : String :=
  (mostFrequent (a.parts.filterMap fun p => Text.guessIndent? p.draft.source.toList)).getD "\t"

def endsLine (text : String) : Bool := text.toList.getLast? == some '\n'

/-- The parts indented; a part's first line counts if a line starts there. -/
def indentParts (separator unit : String) : Bool → Bool → List Part → List Part
  | _, _, [] => []
  | first, afterBreak, p :: ps =>
    let atStart := afterBreak || (!first && endsLine (p.separator.getD separator))
    let draft := p.draft.indent unit p.draft.protectedRanges atStart
    { p with draft } :: indentParts separator unit false (endsLine draft.text) ps

def indent (a : Assembly) (unit : String) : Assembly :=
  let lines (atStart : Bool) (text : String) :=
    String.ofList (Text.indentLines unit.toList atStart text.toList)
  { a with
    parts := indentParts a.separator unit true (a.opening.isEmpty || endsLine a.opening) a.parts
    opening := if a.opening.isEmpty then "" else unit ++ lines false a.opening
    closing := lines true a.closing }

/-- The parts cut by `cut` up to the first that keeps something, and whether none does. -/
def cutParts (cut : Draft → Draft) : List Part → List Part × Bool
  | [] => ([], true)
  | p :: ps =>
    let draft := cut p.draft
    if draft.isEmpty then
      let (qs, blank) := cutParts cut ps
      ({ p with draft } :: qs, blank)
    else ({ p with draft } :: ps, false)

def trimStart (a : Assembly) : Assembly :=
  let opening := Text.trimStartBlank a.opening
  if !opening.isEmpty then { a with opening }
  else
    let (parts, blank) := cutParts (Draft.trimStart Text.isBlank) a.parts
    { a with
      opening, parts
      closing := if blank then Text.trimStartBlank a.closing else a.closing }

def trimEnd (a : Assembly) : Assembly :=
  let closing := Text.trimEndBlank a.closing
  if !closing.isEmpty then { a with closing }
  else
    let (parts, blank) := cutParts (Draft.trimEnd Text.isBlank) a.parts.reverse
    { a with
      closing
      parts := parts.reverse
      opening := if blank then Text.trimEndBlank a.opening else a.opening }

def trim (a : Assembly) : Assembly := a.trimStart.trimEnd

/-- Lines joined like texts: the last line of the first goes on with the first line of the second. -/
def glue : SourceMap.Lines → SourceMap.Lines → SourceMap.Lines
  | [], lines => lines
  | [l], [] => [l]
  | [l], m :: ms => (l ++ m) :: ms
  | l :: ls, lines => l :: glue ls lines

def bareLines (text : String) : SourceMap.Lines :=
  List.replicate (Text.breaks text.toList + 1) []

def columnAfter (column : Nat) (text : List Char) : Nat :=
  if text.contains '\n' then Text.units (Text.lastLine text) else column + Text.units text

def moveFirst (column : Nat) (lines : SourceMap.Lines) : SourceMap.Lines :=
  lines.modifyHead fun l => l.map fun s => { s with column := s.column + column.toUInt32 }

def joinLines : Nat → List (String × SourceMap.Lines) → SourceMap.Lines
  | _, [] => [[]]
  | column, (text, lines) :: rest =>
    glue (moveFirst column lines) (joinLines (columnAfter column text.toList) rest)

def mapNames (a : Assembly) : List String := (a.parts.flatMap (·.draft.mapNames)).eraseDups

def partLines (a : Assembly) (hires : Bool) (p : Part) : SourceMap.Lines :=
  match p.filename.bind fun f => a.filenames.idxOf? f with
  | some index => p.draft.mapLines hires index.toUInt32 a.mapNames
  | none => bareLines p.draft.text

def bare (text : String) : String × SourceMap.Lines := (text, bareLines text)

def partPieces (a : Assembly) (hires : Bool) : Bool → List Part → List (String × SourceMap.Lines)
  | _, [] => []
  | first, p :: ps =>
    bare (if first then "" else p.separator.getD a.separator)
      :: (p.draft.text, a.partLines hires p) :: a.partPieces hires false ps

/-- The texts of the assembly in their order, each with its lines. -/
def pieces (a : Assembly) (hires : Bool) : List (String × SourceMap.Lines) :=
  bare a.opening :: a.partPieces hires true a.parts ++ [bare a.closing]

def map (a : Assembly) (o : MapOptions) : SourceMap where
  file := o.file.map Path.basename
  sources := a.filenames.map fun f => some ((o.file.map fun file => Path.relative file f).getD f)
  sourcesContent := a.sources.map fun s => if o.includeContent then some s.2 else none
  names := a.mapNames
  mappings := SourceMap.encodeMappings (joinLines 0 (a.pieces o.hires))

end Assembly

end Treeshake
