/-!
Tables that keep the order in which their keys came in.
-/
set_option autoImplicit false

namespace Treeshake

abbrev Table (α : Type) := List (String × α)

namespace Table
variable {α : Type}

/-- A new key goes to the end; a known one keeps its place and takes the new value. -/
def insert (key : String) (value : α) : Table α → Table α
  | [] => [(key, value)]
  | (k, v) :: t => if k == key then (key, value) :: t else (k, v) :: insert key value t

def keys (t : Table α) : List String := t.map (·.1)

def values (t : Table α) : List α := t.map (·.2)

def has (key : String) (t : Table α) : Bool := t.any (·.1 == key)

def get? (key : String) (t : Table α) : Option α := t.lookup key

@[simp] theorem get?_insert_self (key : String) (value : α) (t : Table α) :
    get? key (insert key value t) = some value := by
  induction t with
  | nil => simp [insert, get?]
  | cons e t ih =>
    obtain ⟨k, v⟩ := e
    by_cases h : k = key
    · simp [insert, get?, h]
    · have hk : (key == k) = false := beq_eq_false_iff_ne.2 fun h' => h h'.symm
      simpa [insert, get?, List.lookup_cons, h, hk] using ih

end Table

def addNew (name : String) (names : List String) : List String :=
  if names.contains name then names else names ++ [name]

end Treeshake
