/-!
Identifiers that generated bindings may use.
-/
set_option autoImplicit false

namespace Treeshake.Identifier

def keywords : List String :=
  ["break", "case", "class", "catch", "const", "continue", "debugger", "default", "delete", "do",
    "else", "export", "extends", "finally", "for", "function", "if", "import", "in", "instanceof",
    "let", "new", "return", "super", "switch", "this", "throw", "try", "typeof", "var", "void",
    "while", "with", "yield", "enum", "await", "implements", "package", "protected", "static",
    "interface", "private", "public"]

def builtins : List String :=
  ["Infinity", "NaN", "undefined", "null", "true", "false", "eval", "uneval", "isFinite", "isNaN",
    "parseFloat", "parseInt", "decodeURI", "decodeURIComponent", "encodeURI", "encodeURIComponent",
    "escape", "unescape", "Object", "Function", "Boolean", "Symbol", "Error", "EvalError",
    "InternalError", "RangeError", "ReferenceError", "SyntaxError", "TypeError", "URIError",
    "Number", "Math", "Date", "String", "RegExp", "Array", "Int8Array", "Uint8Array",
    "Uint8ClampedArray", "Int16Array", "Uint16Array", "Int32Array", "Uint32Array", "Float32Array",
    "Float64Array", "Map", "Set", "WeakMap", "WeakSet", "SIMD", "ArrayBuffer", "DataView", "JSON",
    "Promise", "Generator", "GeneratorFunction", "Reflect", "Proxy", "Intl"]

def isReserved (name : String) : Bool := keywords.contains name || builtins.contains name

def isWordChar (c : Char) : Bool := c.isAlphanum || c == '_'

def isLegalChar (c : Char) : Bool := isWordChar c || c == '$'

/-- A hyphen and a word character become the capital; any other character that is not legal becomes
an underscore. -/
def mend : List Char → List Char
  | [] => []
  | [c] => [if isLegalChar c then c else '_']
  | c :: d :: cs =>
    if c == '-' && isWordChar d then d.toUpper :: mend cs
    else (if isLegalChar c then c else '_') :: mend (d :: cs)

theorem mend_legal (cs : List Char) (h : cs.all isLegalChar = true) : mend cs = cs := by
  fun_induction mend cs with
  | case1 => rfl
  | case2 c => simp_all
  | case3 c d cs hc =>
    have : c = '-' := by simp_all
    subst this
    simp [isLegalChar, isWordChar] at h
  | case4 c d cs hc ih => simp_all

def needsGuard (name : List Char) : Bool :=
  name.isEmpty || name.head?.any Char.isDigit || isReserved (String.ofList name)

def ofText (text : String) : String :=
  let name := mend text.toList
  String.ofList (if needsGuard name then '_' :: name else name)

end Treeshake.Identifier
