import Treeshake.Proofs.Draft.Places
/-!
Indentation of what is indented. A place is in a protected range if and only if the place that it moves to is, because
indentation keeps places in order. Main statement: two units put in front of the lines one after the other make the
same draft as both of them put there at once.
-/
set_option autoImplicit false

namespace Treeshake

/-- Where a place moves when text of some size is put in front of other places. -/
def pushed (starts : List Nat) (size place : Nat) : Nat := place + starts.countP (· ≤ place) * size

section
variable {starts : List Nat} {size m n : Nat}

theorem pushed_cons (h : m ≤ n) : pushed (m :: starts) size n = size + pushed starts size n := by
  rw [pushed, pushed, List.countP_cons, if_pos (decide_eq_true h), Nat.add_mul, Nat.one_mul]
  omega

theorem pushed_lt (h : m < n) : pushed starts size m < pushed starts size n := by
  have hcount : starts.countP (· ≤ m) ≤ starts.countP (· ≤ n) := by
    refine List.countP_mono_left fun k _ hk => ?_
    rw [decide_eq_true_eq] at hk ⊢
    omega
  exact Nat.add_lt_add_of_lt_of_le h (Nat.mul_le_mul_right size hcount)

theorem pushed_le_iff : pushed starts size m ≤ pushed starts size n ↔ m ≤ n := by
  rcases Nat.lt_trichotomy m n with hlt | rfl | hgt
  · have hmoved : pushed starts size m < pushed starts size n := pushed_lt hlt
    omega
  · simp
  · have hmoved : pushed starts size n < pushed starts size m := pushed_lt hgt
    omega

end

namespace Cell

variable {unit : List Char} (isProtected isProtected' : Nat → Bool)

@[simp] theorem fresh_append (a b : List Char) : fresh (a ++ b) = fresh a ++ fresh b := List.map_append

theorem indent_line (outer : List Cell) (due : Bool) (place : Nat) {cells : List Cell} {c : Cell}
    (h : ∀ x ∈ cells, Text.isBreak x.char = false) (hc : Text.isBreak c.char = false) (b : List Cell) :
    indent outer isProtected due place (cells ++ c :: b) = (if due then outer else []) ++ cells ++
      c :: indent outer isProtected false (place + Text.size (text cells) + c.char.utf8Size) b := by
  induction cells generalizing due place with
  | nil => simp [indent, hc, text, Text.size]
  | cons x cells ih =>
    obtain ⟨hx, hcells⟩ := List.forall_mem_cons.mp h
    have hplace : place + Text.size (text (x :: cells)) = place + x.char.utf8Size + Text.size (text cells) :=
      (Nat.add_assoc ..).symm
    rw [List.cons_append, indent, hx, Bool.false_and, ih false _ hcells, hplace]
    simp

/-- Cells that are indented are indented again as they were at first, if each place is protected where it moved to as
it was before. By `shift` the first indentation has moved all from here on. -/
theorem indent_fresh_indent (hunit : ∀ c ∈ unit, Text.isBreak c = false) (outer : List Cell) (due : Bool)
    (place shift : Nat) (cells : List Cell)
    (h : ∀ n, place ≤ n →
      isProtected' (shift + pushed (starts isProtected due place cells) (Text.size unit) n) = isProtected n) :
    indent outer isProtected' due (shift + place) (indent (fresh unit) isProtected due place cells) =
      indent (outer ++ fresh unit) isProtected due place cells := by
  induction cells generalizing due place shift with
  | nil => rfl
  | cons c cells ih =>
    rw [starts] at h
    cases hstart : due && !Text.isBreak c.char with
    | true =>
      -- the unit has no break in it, so that what it starts with starts the line, and nothing else does
      obtain ⟨rfl, hbreak⟩ : due = true ∧ Text.isBreak c.char = false := by simpa using hstart
      have hfresh : ∀ x ∈ fresh unit, Text.isBreak x.char = false := by simpa [fresh] using hunit
      have hnext : ∀ n, place + c.char.utf8Size ≤ n → isProtected' (shift + Text.size unit +
          pushed (starts isProtected false (place + c.char.utf8Size) cells) (Text.size unit) n) = isProtected n := by
        intro n hn
        have hle : place ≤ n := Nat.le_of_add_right_le hn
        rw [← h n hle, if_pos hstart, hbreak, Bool.false_and, List.singleton_append, pushed_cons hle, Nat.add_assoc]
      have hplace : shift + place + Text.size unit + c.char.utf8Size =
          shift + Text.size unit + (place + c.char.utf8Size) := by omega
      rw [indent, indent, if_pos hstart, if_pos hstart, hbreak, Bool.false_and,
        indent_line isProtected' outer true (shift + place) hfresh hbreak, if_pos rfl, text_fresh, hplace,
        ih false _ _ hnext]
    | false =>
      -- all that can start a line is behind this character, so that it stands where the shift has moved it
      rw [hstart, if_neg Bool.false_ne_true, List.nil_append] at h
      have hhere : isProtected' (shift + place) = isProtected place := by
        rw [← h place (Nat.le_refl _), pushed, countP_starts_of_lt (Nat.lt_add_of_pos_right c.char.utf8Size_pos),
          Nat.zero_mul, Nat.add_zero]
      have hnext := ih _ _ shift fun n hn => h n (Nat.le_of_add_right_le hn)
      rw [indent, indent, hstart, if_neg Bool.false_ne_true, if_neg Bool.false_ne_true, List.nil_append,
        List.nil_append, indent, hstart, if_neg Bool.false_ne_true, List.nil_append, hhere, Nat.add_assoc, hnext]

end Cell

namespace Draft

theorem locate?_indent (d : Draft) (unit : String) (ranges : List (Nat × Nat)) (atStart : Bool) (offset : Nat) :
    (d.indent unit ranges atStart).locate? offset =
      (d.locate? offset).map (pushed (d.indentPlaces ranges atStart) (Text.size unit.toList)) := by
  have h := Cell.locate?_indent unit.toList
    (fun place => (d.places ranges).any fun s => s.1 ≤ place && place ≤ s.2) atStart 0 d.cells offset
  simp only [Nat.zero_add] at h
  exact h

theorem places_indent (d : Draft) (unit : String) (ranges : List (Nat × Nat)) (atStart : Bool)
    (others : List (Nat × Nat)) :
    let move := pushed (d.indentPlaces ranges atStart) (Text.size unit.toList)
    (d.indent unit ranges atStart).places others = (d.places others).map fun s => (move s.1, move s.2) := by
  intro move
  rw [places, places, List.map_filterMap]
  refine congrArg (List.filterMap · _) (funext fun r => ?_)
  rw [locate?_indent, locate?_indent]
  cases d.locate? r.1 with
  | none => rfl
  | some first =>
    cases d.locate? (r.2 - 1) with
    | none => rfl
    | some last => rfl

/-- A place is protected where it moves to if and only if it was protected before. -/
theorem any_places_indent (d : Draft) (unit : String) (ranges : List (Nat × Nat)) (atStart : Bool)
    (others : List (Nat × Nat)) (n : Nat) :
    let place := pushed (d.indentPlaces ranges atStart) (Text.size unit.toList) n
    ((d.indent unit ranges atStart).places others).any (fun s => s.1 ≤ place && place ≤ s.2) =
      (d.places others).any fun s => s.1 ≤ n && n ≤ s.2 := by
  intro place
  rw [places_indent, List.any_map]
  simp only [Function.comp_def, place, pushed_le_iff]

/-- Indenting with one unit and then with another, with the same ranges protected, makes the draft that indenting with
the second in front of the first makes, so also the same text with the same places. -/
theorem indent_indent (d : Draft) {unit : String} (hunit : ∀ c ∈ unit.toList, Text.isBreak c = false)
    (outer : String) (ranges : List (Nat × Nat)) (atStart : Bool) :
    (d.indent unit ranges atStart).indent outer ranges atStart = d.indent (outer ++ unit) ranges atStart := by
  have hcells := Cell.indent_fresh_indent
    (fun place => (d.places ranges).any fun s => s.1 ≤ place && place ≤ s.2)
    (fun place => ((d.indent unit ranges atStart).places ranges).any fun s => s.1 ≤ place && place ≤ s.2)
    hunit (Cell.fresh outer.toList) atStart 0 0 d.cells fun n _ => by
      rw [Nat.zero_add]
      exact any_places_indent d unit ranges atStart ranges n
  rw [← Cell.fresh_append, ← String.toList_append] at hcells
  exact congrArg (fun cells => ({ d with cells } : Draft)) hcells

theorem indent_indent_template :
    let d := (ofText "a\r\nb = `x\ny`;\n\nc").edit [.prepend "// d\n", .overwrite 3 4 "name" true]
    let ranges := [(7, 12), (2, 2), (3, 5)]
    (∀ c ∈ "  ".toList, Text.isBreak c = false) ∧
      (d.indent "  " ranges false).indent "\t" ranges false = d.indent ("\t" ++ "  ") ranges false ∧
      (d.indent ("\t" ++ "  ") ranges false).text = "// d\n\t  a\r\n\t  name = `x\ny`;\n\n\t  c" ∧
      (d.indent ("\t" ++ "  ") ranges false).locate? 10 = some 24 := by
  intro d ranges
  have hunit : ∀ c ∈ "  ".toList, Text.isBreak c = false := by
    intro c hc
    obtain rfl : c = ' ' := by simpa using hc
    rfl
  exact ⟨hunit, indent_indent d hunit "\t" ranges false, by decide +kernel, by decide +kernel⟩

/-- A unit with a break in it makes lines of its own, which are indented like others. -/
example : ((ofText "a").indent "b\n" [] true).indent "  " [] true ≠ (ofText "a").indent ("  " ++ "b\n") [] true := by
  decide +kernel

end Draft

end Treeshake
