import Treeshake.Table
/-!
Lexical scopes. Each statement of a module roots a tree of scopes; names declared at the root are the
statement's own, all others are local to it.
-/
set_option autoImplicit false

namespace Treeshake

inductive ScopeKind where
  | statement
  | function
  | block
  deriving DecidableEq, Repr

structure Scope where
  parent : Option Nat
  kind : ScopeKind
  names : List String := []
  deriving DecidableEq, Repr

structure ScopeForest where
  scopes : List Scope := []
  deriving DecidableEq, Repr

namespace ScopeForest

def size (f : ScopeForest) : Nat := f.scopes.length

def add (f : ScopeForest) (parent : Option Nat) (kind : ScopeKind) : ScopeForest :=
  ⟨f.scopes ++ [⟨parent, kind, []⟩]⟩

def parent? (f : ScopeForest) (scope : Nat) : Option Nat := f.scopes[scope]?.bind Scope.parent

def kind? (f : ScopeForest) (scope : Nat) : Option ScopeKind := f.scopes[scope]?.map Scope.kind

def names (f : ScopeForest) (scope : Nat) : List String := (f.scopes[scope]?.map Scope.names).getD []

def declares (f : ScopeForest) (scope : Nat) (name : String) : Bool := (f.names scope).contains name

/-- The nearest scope from here that is no block, or the last on the way up. -/
def hoist (f : ScopeForest) : Nat → Nat → Nat
  | 0, scope => scope
  | fuel + 1, scope =>
    if f.kind? scope = some .block then
      match f.parent? scope with
      | some p => hoist f fuel p
      | none => scope
    else scope

/-- Declares a name. One that is not bound to its block belongs to the function or statement around. -/
def declare (f : ScopeForest) (scope : Nat) (name : String) (blockScoped : Bool) : ScopeForest :=
  let target := if blockScoped then scope else f.hoist f.size scope
  ⟨f.scopes.modify target fun s => { s with names := addNew name s.names }⟩

def findWithin (f : ScopeForest) (name : String) : Nat → Nat → Option Nat
  | 0, _ => none
  | fuel + 1, scope =>
    if f.declares scope name then some scope
    else (f.parent? scope).bind (findWithin f name fuel)

/-- The nearest scope upwards that declares a name. No way up is longer than the forest is large. -/
def find? (f : ScopeForest) (scope : Nat) (name : String) : Option Nat :=
  f.findWithin name (f.size + 1) scope

def contains (f : ScopeForest) (scope : Nat) (name : String) : Bool := (f.find? scope name).isSome

/-- Whether the name is declared upwards, and not by a statement's root. -/
def containsLocal (f : ScopeForest) (scope : Nat) (name : String) : Bool :=
  (f.find? scope name).any fun s => f.kind? s != some .statement

end ScopeForest

end Treeshake
