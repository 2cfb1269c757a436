import Treeshake.Toml.Reader
/-!
The writing of TOML documents: sections, and values in the plainest form that spells them.
-/
set_option autoImplicit false

namespace Treeshake.Toml

def hex4 (n : Nat) : List Char :=
  [n / 4096, n / 256 % 16, n / 16 % 16, n % 16].map fun d => (Nat.digitChar d).toUpper

def escaped (lines : Bool) (c : Char) : List Char :=
  match c with
  | '\x08' => ['\\', 'b']
  | '\t' => ['\\', 't']
  | '\n' => if lines then ['\n'] else ['\\', 'n']
  | '\x0c' => ['\\', 'f']
  | '\r' => ['\\', 'r']
  | '\\' => ['\\', '\\']
  | c => if isTextChar c then [c] else '\\' :: 'u' :: hex4 c.toNat

/-- Escapes a text, every quote too if it has a line of its own, and otherwise every third of a row;
`run` quotes stand in front. -/
def escapeText (lines : Bool) : Nat → List Char → List Char
  | _, [] => []
  | run, c :: cs =>
    if c == '"' then
      if !lines || 2 ≤ run then '\\' :: '"' :: escapeText lines 0 cs
      else '"' :: escapeText lines (run + 1) cs
    else escaped lines c ++ escapeText lines 0 cs

def longestRun (mark : Char) : Nat → List Char → Nat
  | run, [] => run
  | run, c :: cs => if c == mark then longestRun mark (run + 1) cs else max run (longestRun mark 0 cs)

/-- Text between three quotes of a kind. If it has line ends it begins on a line of its own. -/
def tripled (mark : Char) (lines : Bool) (body : List Char) : String :=
  let marks := List.replicate 3 mark
  String.ofList (marks ++ (if lines then ['\n'] else []) ++ body ++ marks)

def quoteWith (mark : Char) (body : List Char) : String := String.ofList (mark :: body ++ [mark])

/-- A text with its quotes. Single ones save escapes if no character needs one; a text of several lines
keeps them. -/
def quote (s : String) : String :=
  let cs := s.toList
  let lines := cs.contains '\n'
  let literal := cs.all fun c => isTextChar c || c == '\n'
  let singles := longestRun '\'' 0 cs
  let slashed := cs.contains '\\'
  if lines then
    if literal && singles < 3 && (slashed || 2 < longestRun '"' 0 cs) then tripled '\'' true cs
    else tripled '"' true (escapeText true 0 cs)
  else if literal && (slashed || cs.contains '"') then
    if singles == 0 then quoteWith '\'' cs
    else if singles < 3 then tripled '\'' false cs
    else quoteWith '"' (escapeText false 0 cs)
  else quoteWith '"' (escapeText false 0 cs)

def renderKey (key : String) : String :=
  let cs := key.toList
  if !cs.isEmpty && cs.all isBareChar then key
  else if (cs.contains '"' || cs.contains '\\') && cs.all fun c => isTextChar c && c != '\'' then
    quoteWith '\'' cs
  else quoteWith '"' (escapeText false 0 cs)

mutual

def render : Toml → String
  | .string s => quote s
  | .int n => toString n
  | .decimal text => text
  | .bool b => if b then "true" else "false"
  | .dateTime text => text
  | .array [] => "[]"
  | .array [v] => "[" ++ render v ++ "]"
  | .array (v :: w :: vs) => "[\n" ++ renderLines (v :: w :: vs) ++ "]"
  | .table _ ms => r"{ " ++ renderMembers ms ++ r" }"
  | .tables before last =>
    "[\n" ++ renderLines before ++ r"    { " ++ renderMembers last ++ r" }," ++ "\n]"

def renderLines : List Toml → String
  | [] => ""
  | v :: vs => "    " ++ render v ++ ",\n" ++ renderLines vs

def renderMembers : List (String × Toml) → String
  | [] => ""
  | [(k, v)] => renderKey k ++ " = " ++ render v
  | (k, v) :: ms => renderKey k ++ " = " ++ render v ++ ", " ++ renderMembers ms

end

structure Section where
  path : List String
  members : Table Toml

def Section.render (s : Section) : String :=
  "[" ++ ".".intercalate (s.path.map renderKey) ++ "]\n"
    ++ String.join (s.members.map fun (k, v) => renderKey k ++ " = " ++ v.render ++ "\n")

def renderSections (sections : List Section) : String := "\n".intercalate (sections.map (·.render))

end Treeshake.Toml
