import Treeshake.Bundle
import Treeshake.Text.Width
/-!
What is told about a build: counts, sizes and tables for readers, and envelopes for programs.
-/
set_option autoImplicit false

namespace Treeshake

namespace GraphStats

def lines (s : GraphStats) : List String :=
  ["Module Graph Statistics:",
    s!"  Modules: {s.modules} (external: {s.externals})",
    s!"  Statements: {s.statements} (included: {s.included})",
    s!"  Declarations: {s.declarations}",
    s!"  Assumed globals: {s.assumedGlobals}"]

def toJson (s : GraphStats) : Json :=
  .object [("modules", .int s.modules), ("externals", .int s.externals),
    ("statements", .int s.statements), ("included", .int s.included),
    ("declarations", .int s.declarations), ("assumed_globals", .int s.assumedGlobals)]

end GraphStats

namespace LinkStats

def lines (s : LinkStats) : List String :=
  ["Link Stats:",
    s!"  Total References: {s.references}",
    s!"  Bound: {s.bound}",
    s!"  Local: {s.locals}",
    s!"  Global: {s.globals}",
    s!"  Aliases: {s.aliases}"]

def toJson (s : LinkStats) : Json :=
  .object [("references", .int s.references), ("bound", .int s.bound), ("locals", .int s.locals),
    ("globals", .int s.globals), ("aliases", .int s.aliases)]

end LinkStats

namespace Report

def ofLines (lines : List String) : String := String.join (lines.map (· ++ "\n"))

/-- The nearest quotient, and of two the even one. -/
def roundDiv (n d : Nat) : Nat :=
  let q := n / d
  let r := n % d
  if d < 2 * r || (2 * r == d && q % 2 == 1) then q + 1 else q

/-- A number to the 53 binary digits that a double has. -/
def toDouble (n : Nat) : Nat :=
  let grain := Nat.pow 2 (n.log2 - 52)
  if n < Nat.pow 2 53 then n else roundDiv n grain * grain

def oneDecimal (n unit : Nat) : String :=
  let tenths := roundDiv (10 * n) unit
  toString (tenths / 10) ++ "." ++ toString (tenths % 10)

def humanBytes (bytes : Nat) : String :=
  let n := toDouble bytes
  if n < 1024 then toString bytes ++ " B"
  else if n < 1024 * 1024 then oneDecimal n 1024 ++ " KB"
  else oneDecimal n (1024 * 1024) ++ " MB"

def cellLines (cell : String) : List (List Char) := Text.splitBy (· == '\n') cell.toList

def cellWidth (cell : String) : Nat := ((cellLines cell).map Text.width).max?.getD 0

def pad (width : Nat) (line : List Char) : String :=
  " " ++ String.ofList line ++ String.ofList (List.replicate (width - Text.width line) ' ') ++ " "

/-- The lines of a row between rules; a short cell is filled up with empty lines. -/
def tableRow (left right : Nat) (row : String × String) : List String :=
  let (a, b) := (cellLines row.1, cellLines row.2)
  (List.range (max a.length b.length)).map fun i =>
    "│" ++ pad left (a.getD i []) ++ "│" ++ pad right (b.getD i []) ++ "│"

def tableRule (left right : Nat) (start middle stop : String) : String :=
  let line (n : Nat) := String.ofList (List.replicate (n + 2) '─')
  start ++ line left ++ middle ++ line right ++ stop

def table (rows : List (String × String)) : String :=
  if rows.isEmpty then ""
  else
    let head := ("Metric", "Value")
    let width (cells : List String) := (cells.map cellWidth).max?.getD 0
    let left := width ((head :: rows).map (·.1))
    let right := width ((head :: rows).map (·.2))
    "\n".intercalate
      ([tableRule left right "╭" "┬" "╮"] ++ tableRow left right head
        ++ [tableRule left right "├" "┼" "┤"] ++ rows.flatMap (tableRow left right)
        ++ [tableRule left right "╰" "┴" "╯"])

def success (command : String) (data : Json) : Json :=
  .object [("ok", .bool true), ("command", .string command), ("data", data)]

def failure (command code message : String) : Json :=
  .object [("ok", .bool false), ("command", .string command),
    ("error", .object [("code", .string code), ("message", .string message)])]

end Report

namespace BuildStats

def text (s : BuildStats) (milliseconds : Nat) : String :=
  Report.ofLines (s.graph.lines ++ s.link.lines ++
    ["Build Stats:", s!"  Side-effect passes: {s.passes}", s!"  Renamed: {s.renamed}",
      s!"  Duration: {milliseconds}ms"])

def table (s : BuildStats) (milliseconds : Nat) : String :=
  Report.table [("Modules", toString s.graph.modules),
    ("External modules", toString s.graph.externals),
    ("Statements included", s!"{s.graph.included} / {s.graph.statements}"),
    ("Side-effect passes", toString s.passes), ("Renamed", toString s.renamed),
    ("Duration", s!"{milliseconds}ms")]

/-- The counts, without the time they took. -/
def counts (s : BuildStats) : List (String × Json) :=
  [("graph", s.graph.toJson), ("link", s.link.toJson), ("passes", .int s.passes),
    ("renamed", .int s.renamed)]

def toJson (s : BuildStats) (milliseconds : Nat) : Json :=
  .object (s.counts ++ [("duration_ms", .int milliseconds)])

end BuildStats

end Treeshake
