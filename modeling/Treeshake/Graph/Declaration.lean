import Treeshake.Module.Basic
import Treeshake.Module.External
/-!
The declarations of a build.
-/
set_option autoImplicit false

namespace Treeshake

inductive Target where
  | inside (module : Nat)
  | outside (external : Nat)
  deriving DecidableEq, Repr

structure StatementRef where
  module : Nat
  index : Nat
  deriving DecidableEq, Repr

/-- What a declaration is: a binding that a module's text declares; the value of a default export,
which may stand for another declaration; a module as a whole, with the declarations behind its exports,
which needs an object of its own if it is used as a value; or a name of an external module. -/
inductive DeclarationKind where
  | binding
  | defaultValue (standsFor : Option Nat)
  | object (module : Nat) (members : Table Nat) (asValue : Bool)
  | external (module : Nat) (name : String)
  deriving DecidableEq, Repr

/-- The `name` is what the output calls it; `aliases` are declarations that hold the same value and are
used whenever this one is. -/
structure Declaration where
  name : String
  kind : DeclarationKind
  statement : Option StatementRef := none
  reassigned : Bool := false
  exported : Bool := false
  used : Bool := false
  aliases : List Nat := []
  deriving DecidableEq, Repr

namespace Declaration

def isExternal (d : Declaration) : Bool :=
  match d.kind with
  | .external .. => true
  | _ => false

def isObject (d : Declaration) : Bool :=
  match d.kind with
  | .object .. => true
  | _ => false

def standsFor (d : Declaration) : Option Nat :=
  match d.kind with
  | .defaultValue underlying => underlying
  | _ => none

end Declaration

end Treeshake
