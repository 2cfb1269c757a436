import Treeshake.Text.Offset
/-!
Module ids as paths. Both slashes separate components when a path is read; a forward slash is written.
-/
set_option autoImplicit false

namespace Treeshake.Path

def isSeparator (c : Char) : Bool := c == '/' || c == '\\'

def components (path : List Char) : List (List Char) := Text.splitBy isSeparator path

def isRooted : List Char → Bool
  | c :: d :: e :: _ => isSeparator c || (c.isAlpha && d == ':' && isSeparator e)
  | c :: _ => isSeparator c
  | [] => false

def isAbsolute (path : String) : Bool := isRooted path.toList

def isRelative (path : String) : Bool :=
  match path.toList with
  | '.' :: '.' :: c :: _ => isSeparator c
  | '.' :: c :: _ => isSeparator c
  | _ => false

def basename (path : String) : String :=
  String.ofList ((components path.toList).getLastD [])

/-- What stands before the last separator: the root if that is the first character, and the current
directory if there is none. -/
def dirname (path : String) : String :=
  match (path.toList.reverse.dropWhile (!isSeparator ·)).reverse with
  | [] => "."
  | [_] => "/"
  | cs => String.ofList cs.dropLast

/-- The last dot of the file name and what follows it, if anything does. -/
def extension (path : String) : String :=
  let name := (basename path).toList
  let tail := (name.reverse.takeWhile (· != '.')).reverse
  if tail.isEmpty || tail.length == name.length then "" else String.ofList ('.' :: tail)

def normalizeSlashes (path : String) : String :=
  String.ofList (path.toList.map fun c => if c == '\\' then '/' else c)

def dropSlashes (path : String) : String :=
  String.ofList (path.toList.reverse.dropWhile (· == '/')).reverse

/-- One component onto a stack of components, the innermost first. An empty one counts only as the
root, and a step up keeps the root and earlier unmatched steps up. -/
def push (stack : List (List Char)) (part : List Char) : List (List Char) :=
  if part == ['.'] then stack
  else if part.isEmpty && !stack.isEmpty then stack
  else if part == ['.', '.'] then
    match stack with
    | [[]] => stack
    | [] => [part]
    | last :: rest => if last == ['.', '.'] then part :: stack else rest
  else part :: stack

def render : List (List Char) → List Char
  | [] => ['.']
  | [[]] => ['/']
  | stack => Text.joinWith '/' stack.reverse

def resolveComponents (base path : List Char) : List (List Char) :=
  (if isRooted path then components path else components base ++ components path).foldl push []

def resolve (base path : String) : String :=
  String.ofList (render (resolveComponents base.toList path.toList))

def dropCommon : List (List Char) → List (List Char) → List (List Char) × List (List Char)
  | a :: as, b :: bs => if a == b then dropCommon as bs else (a :: as, b :: bs)
  | as, bs => (as, bs)

/-- The way from the directory that holds the file `source` to `target`. -/
def relative (source target : String) : String :=
  let (up, down) := dropCommon (components source.toList).dropLast (components target.toList)
  String.ofList (Text.joinWith '/' (up.map (fun _ => ['.', '.']) ++ down))

end Treeshake.Path
