import Treeshake.Toml.Scalar
/-!
The reading of TOML documents.
-/
set_option autoImplicit false

namespace Treeshake.Toml

def isBlank (c : Char) : Bool := c == ' ' || c == '\t'

def skipBlanks (cs : List Char) : List Char := cs.dropWhile isBlank

def isTextChar (c : Char) : Bool := c == '\t' || (32 ≤ c.toNat && c.toNat != 127)

def newline? : List Char → Option (List Char)
  | '\n' :: cs => some cs
  | '\r' :: '\n' :: cs => some cs
  | _ => none

def lineEnd? (cs : List Char) : Option (List Char) :=
  if cs.isEmpty then some [] else newline? cs

def restOfLine? (cs : List Char) : Option (List Char) :=
  match skipBlanks cs with
  | '#' :: cs => lineEnd? (cs.dropWhile isTextChar)
  | cs => lineEnd? cs

def skipLines (comment : Bool) : List Char → List Char
  | [] => []
  | '\n' :: cs => skipLines false cs
  | '\r' :: '\n' :: cs => skipLines false cs
  | c :: cs =>
    if comment then if isTextChar c then skipLines true cs else c :: cs
    else if isBlank c then skipLines false cs
    else if c == '#' then skipLines true cs
    else c :: cs

def codePoint? (count : Nat) (cs : List Char) : Option Char :=
  let ds := cs.take count
  let n := digitsIn 16 ds
  if ds.length == count && ds.all (fun c => (Json.hexValue? c).isSome) && n.isValidChar then
    some (Char.ofNat n)
  else none

def escape? : List Char → Option (Char × Nat)
  | 'b' :: _ => some ('\x08', 1)
  | 't' :: _ => some ('\t', 1)
  | 'n' :: _ => some ('\n', 1)
  | 'f' :: _ => some ('\x0c', 1)
  | 'r' :: _ => some ('\r', 1)
  | '"' :: _ => some ('"', 1)
  | '\\' :: _ => some ('\\', 1)
  | 'u' :: cs => (codePoint? 4 cs).map fun c => (c, 5)
  | 'U' :: cs => (codePoint? 8 cs).map fun c => (c, 9)
  | _ => none

def spaceRun : List Char → Nat
  | '\r' :: '\n' :: cs => spaceRun cs + 2
  | c :: cs => if isBlank c || c == '\n' then spaceRun cs + 1 else 0
  | [] => 0

/-- A backslash at the end of a line takes all space up to the next text. -/
def continuation? (cs : List Char) : Option Nat :=
  (newline? (skipBlanks cs)).map fun _ => spaceRun cs

/-- The text up to the closing quote, the last character read first; `skip` characters belong to an
escape. Only double quotes have escapes, and only a text of several lines has line ends. Such a text
closes with three quotes, and two more may belong to it. -/
def textBody (quote : Char) (lines : Bool) : Nat → List Char → List Char → Option (String × List Char)
  | _, _, [] => none
  | skip + 1, acc, _ :: cs => textBody quote lines skip acc cs
  | 0, acc, c :: cs =>
    if c == quote then
      if !lines then some (String.ofList acc.reverse, cs)
      else
        let run := (cs.takeWhile (· == quote)).length
        if run < 2 then textBody quote lines 0 (c :: acc) cs
        else
          let inner := min (run - 2) 2
          some (String.ofList (acc.reverse ++ List.replicate inner quote), cs.drop (inner + 2))
    else if c == '\\' && quote == '"' then
      match if lines then continuation? cs else none with
      | some n => textBody quote lines n acc cs
      | none =>
        match escape? cs with
        | some (e, n) => textBody quote lines n (e :: acc) cs
        | none => none
    else if c == '\n' && lines then textBody quote lines 0 (c :: acc) cs
    else if c == '\r' && lines && (cs.head?.any (· == '\n')) then textBody quote lines 0 acc cs
    else if isTextChar c then textBody quote lines 0 (c :: acc) cs
    else none

/-- A text of several lines behind its opening quotes; a line end right there is not part of it. -/
def linesBody (quote : Char) (cs : List Char) : Option (String × List Char) :=
  textBody quote true 0 [] ((newline? cs).getD cs)

def maxDepth : Nat := 79

def isBareChar (c : Char) : Bool := c.isAlphanum || c == '-' || c == '_'

def simpleKey? : List Char → Option (String × List Char)
  | '"' :: cs => textBody '"' false 0 [] cs
  | '\'' :: cs => textBody '\'' false 0 [] cs
  | cs =>
    let bare := cs.takeWhile isBareChar
    if bare.isEmpty then none else some (String.ofList bare, cs.drop bare.length)

def dottedKey? : Nat → List Char → Option (List String × String × List Char)
  | 0, _ => none
  | fuel + 1, cs => do
    let (key, cs) ← simpleKey? (skipBlanks cs)
    match skipBlanks cs with
    | '.' :: cs =>
      let (path, last, cs) ← dottedKey? fuel cs
      return (key :: path, last, cs)
    | cs => return ([], key, cs)

def keyPart? (cs : List Char) : Option (List String × String × List Char) := do
  match ← dottedKey? maxDepth cs with
  | (path, key, '=' :: cs) => return (path, key, skipBlanks cs)
  | _ => none

mutual

def value : Nat → Nat → List Char → Option (Toml × List Char)
  | 0, _, _ => none
  | fuel + 1, depth, cs =>
    match cs with
    | '"' :: '"' :: '"' :: cs => (linesBody '"' cs).map fun r => (.string r.1, r.2)
    | '"' :: cs => (textBody '"' false 0 [] cs).map fun r => (.string r.1, r.2)
    | '\'' :: '\'' :: '\'' :: cs => (linesBody '\'' cs).map fun r => (.string r.1, r.2)
    | '\'' :: cs => (textBody '\'' false 0 [] cs).map fun r => (.string r.1, r.2)
    | '[' :: cs =>
      if depth == 0 then none else (items fuel (depth - 1) cs).map fun r => (.array r.1, r.2)
    | '{' :: cs =>
      if depth == 0 then none
      else
        match skipBlanks cs with
        | '}' :: cs => some (.table .inline [], cs)
        | cs => (inlineMembers fuel (depth - 1) [] cs).map fun r => (.table .inline r.1, r.2)
    | cs => scalar cs

def items : Nat → Nat → List Char → Option (List Toml × List Char)
  | 0, _, _ => none
  | fuel + 1, depth, cs =>
    match skipLines false cs with
    | ']' :: cs => some ([], cs)
    | cs => do
      let (v, cs) ← value fuel depth cs
      match skipLines false cs with
      | ',' :: cs => (items fuel depth cs).map fun r => (v :: r.1, r.2)
      | ']' :: cs => some ([v], cs)
      | _ => none

def inlineMembers : Nat → Nat → Table Toml → List Char → Option (Table Toml × List Char)
  | 0, _, _, _ => none
  | fuel + 1, depth, ms, cs => do
    let (path, key, cs) ← keyPart? cs
    let (v, cs) ← value fuel depth cs
    let ms ← define path key v .inline ms
    match skipBlanks cs with
    | ',' :: cs => inlineMembers fuel depth ms cs
    | '}' :: cs => some (ms, cs)
    | _ => none

end

def headerKey? (cs : List Char) : Option (List String × String × List Char) := do
  match ← dottedKey? maxDepth cs with
  | (path, key, ']' :: cs) => return (path, key, cs)
  | _ => none

def document : Nat → List String → Table Toml → List Char → Option (Table Toml)
  | 0, _, _, _ => none
  | fuel + 1, here, root, cs =>
    match skipBlanks cs with
    | [] => some root
    | '#' :: cs => do document fuel here root (← restOfLine? ('#' :: cs))
    | '\n' :: cs => document fuel here root cs
    | '\r' :: cs => do document fuel here root (← newline? ('\r' :: cs))
    | '[' :: '[' :: cs => do
      match ← headerKey? cs with
      | (path, key, ']' :: cs) =>
        let root ← openItem path key root
        document fuel (path ++ [key]) root (← restOfLine? cs)
      | _ => none
    | '[' :: cs => do
      let (path, key, cs) ← headerKey? cs
      let root ← openTable path key root
      document fuel (path ++ [key]) root (← restOfLine? cs)
    | cs => do
      let (path, key, cs) ← keyPart? cs
      let (v, cs) ← value (cs.length + 1) maxDepth cs
      let cs ← restOfLine? cs
      document fuel here (← underHeader (define path key v) here root) cs

def parse? (text : String) : Option (Table Toml) :=
  let cs := match text.toList with
    | '\uFEFF' :: cs => cs
    | cs => cs
  document (cs.length + 1) [] [] cs

end Treeshake.Toml
