import Treeshake.SourceMap.Mappings
/-!
Source maps, version three.
-/
set_option autoImplicit false

namespace Treeshake

structure SourceMap where
  version : UInt8 := 3
  file : Option String := none
  sources : List (Option String) := []
  sourcesContent : List (Option String) := []
  names : List String := []
  mappings : String
  deriving DecidableEq, Repr

def SourceMap.decoded (m : SourceMap) : Except SourceMap.Fault SourceMap.Lines :=
  SourceMap.decodeMappings m.mappings

end Treeshake
