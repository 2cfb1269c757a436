import Treeshake.Scope.Analysis
/-!
Top-level statements of a module.
-/
set_option autoImplicit false

namespace Treeshake

/-- How a default export is written: as a named function or class, as a function without a name whose
keyword ends at `headEnd`, or as any other expression. -/
inductive DefaultForm where
  | declaration
  | anonymousFunction (headEnd : Nat)
  | expression
  deriving DecidableEq, Repr

/-- A declaration with several declarators counts as one statement for each; their common keyword is
written again for each that stays. `separatorEnd` is where the text up to the next declarator ends,
or the whole declaration. -/
inductive StatementKind where
  | importing
  | variable
  | declarator (keyword : String) (name : Option String) (separatorEnd : Nat) (last : Bool)
  | exportDeclaration (declarationStart : Nat) (declaratorStart : Option Nat) (name : Option String)
  | exportClause
  | reexport
  | exportDefault (declarationStart : Nat) (form : DefaultForm)
  | other
  deriving DecidableEq, Repr

/-- The `start` includes comments in front of the statement's node; `next` is where the next statement
starts, so that from `start` to `next` goes what goes with the statement. -/
structure Statement where
  kind : StatementKind
  start : Nat
  stop : Nat
  next : Nat
  nodeStart : Nat
  scope : Option Nat := none
  references : List Reference := []
  literals : List (Nat × Nat) := []
  effects : Effects := {}
  included : Bool := false
  deriving DecidableEq, Repr

namespace Statement

def isImport (s : Statement) : Bool := s.kind == .importing

def isVariable (s : Statement) : Bool :=
  match s.kind with
  | .variable | .declarator .. => true
  | _ => false

def isDefault (s : Statement) : Bool :=
  match s.kind with
  | .exportDefault .. => true
  | _ => false

def chain (length : Nat) : List Statement → List Statement
  | [] => []
  | [s] => [{ s with next := length }]
  | s :: t :: rest => { s with next := t.start } :: chain length (t :: rest)

end Statement

end Treeshake
