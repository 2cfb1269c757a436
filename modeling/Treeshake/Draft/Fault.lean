/-!
Why an edit is refused.
-/
set_option autoImplicit false

namespace Treeshake

inductive EditFault where
  | outOfBounds (offset : Nat)
  | insertAtReplaced (offset : Nat)
  | overwriteTwice (start stop : Nat)
  | invalidRange (start stop : Nat)
  | sliceAnchor (offset : Nat)
  | conflictingSource (filename : String)
  deriving DecidableEq, Repr

def EditFault.message : EditFault → String
  | .outOfBounds offset => s!"Character {offset} is out of bounds"
  | .insertAtReplaced offset => s!"Cannot insert at replaced character index: {offset}"
  | .overwriteTwice start stop => s!"Cannot overwrite the same content twice ({start}..{stop})"
  | .invalidRange start stop => s!"Invalid range {start}..{stop}"
  | .sliceAnchor offset => s!"Cannot use replaced characters as slice anchors ({offset})"
  | .conflictingSource filename => s!"Illegal source: same filename ({filename}), different contents"

end Treeshake
