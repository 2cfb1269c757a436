/-!
Byte offsets into text. A text is a list of characters; an offset counts bytes of its UTF-8 form
and is usable where a character starts or the text ends. Columns of source maps count UTF-16 units.
-/
set_option autoImplicit false

namespace Treeshake.Text

def size : List Char → Nat
  | [] => 0
  | c :: cs => c.utf8Size + size cs

@[simp] theorem size_append (a b : List Char) : size (a ++ b) = size a + size b := by
  induction a with
  | nil => simp [size]
  | cons c a ih => simp [size, ih]; omega

def units : List Char → Nat
  | [] => 0
  | c :: cs => (if c.toNat < 0x10000 then 1 else 2) + units cs

@[simp] theorem units_append (a b : List Char) : units (a ++ b) = units a + units b := by
  induction a with
  | nil => simp [units]
  | cons c a ih => simp [units, ih]; omega

def before? : Nat → List Char → Option (List Char)
  | 0, _ => some []
  | _ + 1, [] => none
  | n + 1, c :: cs =>
    if n + 1 < c.utf8Size then none else (before? (n + 1 - c.utf8Size) cs).map (c :: ·)

def after? : Nat → List Char → Option (List Char)
  | 0, cs => some cs
  | _ + 1, [] => none
  | n + 1, c :: cs => if n + 1 < c.utf8Size then none else after? (n + 1 - c.utf8Size) cs

theorem before?_size_append (a b : List Char) : before? (size a) (a ++ b) = some a := by
  induction a with
  | nil => simp [size, before?]
  | cons c a ih =>
    have hc := c.utf8Size_pos
    obtain ⟨n, hn⟩ : ∃ n, c.utf8Size + size a = n + 1 := ⟨c.utf8Size + size a - 1, by omega⟩
    have : n + 1 - c.utf8Size = size a := by omega
    simp only [size, List.cons_append, hn, before?, this, ih]
    simp; omega

theorem after?_size_append (a b : List Char) : after? (size a) (a ++ b) = some b := by
  induction a with
  | nil => simp [size, after?]
  | cons c a ih =>
    have hc := c.utf8Size_pos
    obtain ⟨n, hn⟩ : ∃ n, c.utf8Size + size a = n + 1 := ⟨c.utf8Size + size a - 1, by omega⟩
    have : n + 1 - c.utf8Size = size a := by omega
    simp only [size, List.cons_append, hn, after?, this, ih]
    simp; omega

def slice? (start stop : Nat) (cs : List Char) : Option (List Char) :=
  if stop < start then none else (after? start cs).bind (before? (stop - start))

theorem slice?_append (a b c : List Char) :
    slice? (size a) (size a + size b) (a ++ b ++ c) = some b := by
  have : ¬ size a + size b < size a := by omega
  simp [slice?, this, List.append_assoc, after?_size_append, before?_size_append]

/-- A slice, empty where the offsets are not usable. -/
def slice (start stop : Nat) (cs : List Char) : String :=
  String.ofList ((slice? start stop cs).getD [])

/-- The pieces between separators; a text without a separator is its own single piece. -/
def splitBy (p : Char → Bool) : List Char → List (List Char)
  | [] => [[]]
  | c :: cs => if p c then [] :: splitBy p cs else (splitBy p cs).modifyHead (c :: ·)

theorem splitBy_ne_nil (p : Char → Bool) (cs : List Char) : splitBy p cs ≠ [] := by
  induction cs with
  | nil => simp [splitBy]
  | cons c cs ih => by_cases h : p c <;> simp [splitBy, h, ih]

theorem flatten_splitBy (p : Char → Bool) (cs : List Char) :
    (splitBy p cs).flatten = cs.filter (!p ·) := by
  induction cs with
  | nil => rfl
  | cons c cs ih =>
    by_cases h : p c
    · simp [splitBy, h, ih]
    · obtain ⟨w, ws, hw⟩ := List.exists_cons_of_ne_nil (splitBy_ne_nil p cs)
      simp [hw] at ih
      simp [splitBy, h, hw, ih]

def joinWith (sep : Char) : List (List Char) → List Char
  | [] => []
  | [w] => w
  | w :: ws => w ++ sep :: joinWith sep ws

/-- Line feeds of a text: one less than its lines. -/
def breaks (cs : List Char) : Nat := cs.count '\n'

def lastLine (cs : List Char) : List Char := (cs.reverse.takeWhile (· != '\n')).reverse

end Treeshake.Text
