import Treeshake.Json.Reader
import Treeshake.SourceMap.Basic
/-!
Source maps as JSON text and as data URLs.
-/
set_option autoImplicit false

namespace Treeshake.SourceMap

def toJson (m : SourceMap) : Json :=
  .object <|
    [("version", .int m.version.toNat)]
      ++ (m.file.map fun f => ("file", Json.string f)).toList
      ++ [("sources", .array (m.sources.map Json.ofOption)),
        ("sourcesContent", .array (m.sourcesContent.map Json.ofOption)),
        ("names", Json.ofStrings m.names),
        ("mappings", .string m.mappings)]

def render (m : SourceMap) : String := m.toJson.compact

def toUrl (m : SourceMap) : String :=
  "data:application/json;charset=utf-8;base64,"
    ++ String.ofList (Base64.encode m.render.toUTF8.toList)

def fields : List String := ["version", "file", "sources", "sourcesContent", "names", "mappings"]

def optional? : Json → Option (Option String)
  | .null => some none
  | .string s => some (some s)
  | _ => none

def version? : Json → Option UInt8
  | .int n => if 0 ≤ n ∧ n < 256 then some n.toNat.toUInt8 else none
  | _ => none

def array? {α : Type} (item : Json → Option α) : Json → Option (List α)
  | .array js => js.mapM item
  | _ => none

def ofFields? (field : String → Option Json) : Option SourceMap := do
  let version ← match field "version" with
    | some j => version? j
    | none => some 3
  let file ← match field "file" with
    | some j => optional? j
    | none => some none
  let sources ← match field "sources" with
    | some j => array? optional? j
    | none => some []
  let content ← match field "sourcesContent" with
    | some j => array? optional? j
    | none => some []
  let names ← match field "names" with
    | some j => array? Json.string? j
    | none => some []
  let mappings ← (field "mappings").bind Json.string?
  return ⟨version, file, sources, content, names, mappings⟩

/-- The map of an object without repeated fields, or of the list of the fields in their order. -/
def ofJson? : Json → Option SourceMap
  | .object ms =>
    let known := (ms.map (·.1)).filter fields.contains
    if known.eraseDups.length == known.length then ofFields? fun k => (ms.find? (·.1 == k)).map (·.2)
    else none
  | .array js => if fields.length < js.length then none else ofFields? fun k => (fields.zip js).lookup k
  | _ => none

def parse? (text : String) : Option SourceMap := (Json.parseKnown? fields text).bind ofJson?

end Treeshake.SourceMap
