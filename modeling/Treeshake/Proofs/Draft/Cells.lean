import Treeshake.Draft.Indent
/-!
Lists of cells: their order in the first text, cutting them by tests, and where the bytes of the first text
stand. Main statements: in a list that keeps the order of the first text, a later byte stands behind an
earlier one, and what gives way to new text moves all behind it by the difference of the sizes.
-/
set_option autoImplicit false

namespace Treeshake

namespace Cell

def survivors (cells : List Cell) : List Cell := cells.filter (·.origin.isSome)

@[simp] theorem survivors_append (a b : List Cell) :
    survivors (a ++ b) = survivors a ++ survivors b := by simp [survivors]

@[simp] theorem survivors_fresh (text : List Char) : survivors (fresh text) = [] := by
  simp [survivors, fresh]

theorem survivors_sublist {a b : List Cell} (h : a.Sublist b) :
    (survivors a).Sublist (survivors b) := h.filter _

theorem survivors_settled (offset : Nat) (cs : List Char) :
    survivors (settled offset cs) = settled offset cs := by
  induction cs generalizing offset with
  | nil => rfl
  | cons c cs ih => simpa [settled, survivors] using ih (offset + c.utf8Size)

/-- The first cell ends in the first text no later than the second starts there. -/
def Precedes (a b : Cell) : Prop :=
  ∀ o o', a.origin = some o → b.origin = some o' → o + a.char.utf8Size ≤ o'

theorem mem_settled {c : Cell} {offset : Nat} {cs : List Char} (h : c ∈ settled offset cs) :
    ∃ a b, cs = a ++ c.char :: b ∧ c.origin = some (offset + Text.size a) := by
  induction cs generalizing offset with
  | nil => simp [settled] at h
  | cons d cs ih =>
    rcases List.mem_cons.mp h with rfl | h
    · exact ⟨[], cs, rfl, by simp [Text.size]⟩
    · obtain ⟨a, b, rfl, ho⟩ := ih h
      exact ⟨d :: a, b, rfl, by simpa [Text.size, Nat.add_assoc] using ho⟩

theorem settled_pairwise (offset : Nat) (cs : List Char) : (settled offset cs).Pairwise Precedes := by
  induction cs generalizing offset with
  | nil => simp [settled]
  | cons c cs ih =>
    refine List.pairwise_cons.mpr ⟨fun d hd => ?_, ih _⟩
    obtain ⟨a, b, -, ho⟩ := mem_settled hd
    intro o o' h h'
    simp only [Option.some.injEq] at h
    rw [ho, Option.some.injEq] at h'
    simp only
    omega

theorem pairwise_of_survivors {cells : List Cell} (h : (survivors cells).Pairwise Precedes) :
    cells.Pairwise Precedes := by
  refine (List.pairwise_filter.mp h).imp fun {a b} hab o o' ho ho' => ?_
  exact hab (by simp [ho]) (by simp [ho']) o o' ho ho'

theorem exists_first {p : Cell → Bool} {cells : List Cell} (h : cells.any p = true) :
    ∃ a c b, cells = a ++ c :: b ∧ (∀ x ∈ a, p x = false) ∧ p c = true := by
  obtain ⟨x, hx, hp⟩ := List.any_eq_true.mp h
  obtain ⟨c, hc⟩ := Option.isSome_iff_exists.mp (List.find?_isSome.mpr ⟨x, hx, hp⟩)
  obtain ⟨hpc, a, b, rfl, ha⟩ := List.find?_eq_some_iff_append.mp hc
  exact ⟨a, c, b, rfl, by simpa using ha, hpc⟩

theorem exists_last {p : Cell → Bool} {cells : List Cell} (h : cells.any p = true) :
    ∃ a c b, cells = a ++ c :: b ∧ p c = true ∧ (∀ x ∈ b, p x = false) := by
  obtain ⟨b, c, a, hr, hb, hc⟩ := exists_first (show cells.reverse.any p = true by simpa using h)
  refine ⟨a.reverse, c, b.reverse, ?_, hc, by simpa using hb⟩
  rw [← List.reverse_reverse cells, hr]; simp

theorem upTo_eq {p : Cell → Bool} {a b : List Cell} {c : Cell} (ha : ∀ x ∈ a, p x = false)
    (hc : p c = true) : upTo p (a ++ c :: b) = a := by
  rw [upTo, List.takeWhile_append_of_pos (by simpa using ha)]
  simp [hc]

theorem since_eq {p : Cell → Bool} {a b : List Cell} {c : Cell} (ha : ∀ x ∈ a, p x = false)
    (hc : p c = true) : since p (a ++ c :: b) = c :: b := by
  rw [since, List.dropWhile_append_of_pos (by simpa using ha)]
  simp [hc]

theorem behind_eq {p : Cell → Bool} {a b : List Cell} {c : Cell} (hb : ∀ x ∈ b, p x = false)
    (hc : p c = true) : behind p (a ++ c :: b) = b := by
  have h := upTo_eq (a := b.reverse) (b := a.reverse) (by simpa using hb) hc
  have hr : (a ++ c :: b).reverse = b.reverse ++ c :: a.reverse := by simp
  rw [upTo] at h
  rw [behind, hr, h, List.reverse_reverse]

/-- From the first cell that passes one test to the last that passes another. -/
theorem exists_span {p q : Cell → Bool} {a b : List Cell} {c : Cell} (ha : ∀ x ∈ a, p x = false)
    (hc : p c = true) (hq : (c :: b).any q = true) :
    ∃ m e z, a ++ c :: b = a ++ (m ++ [e]) ++ z ∧ q e = true ∧ (∀ x ∈ z, q x = false) ∧
      upTo p (a ++ c :: b) = a ∧ behind q (a ++ c :: b) = z := by
  obtain ⟨m, e, z, hm, he, hz⟩ := exists_last hq
  refine ⟨m, e, z, by simp [hm], he, hz, upTo_eq ha hc, ?_⟩
  rw [hm, ← List.append_assoc]
  exact behind_eq hz he

theorem covers_iff {c : Cell} {offset : Nat} :
    c.covers offset = true ↔ ∃ o, c.origin = some o ∧ o ≤ offset ∧ offset < o + c.char.utf8Size := by
  cases h : c.origin <;> simp [covers, h]

theorem within_iff {c : Cell} {start stop : Nat} :
    c.within start stop = true ↔ ∃ o, c.origin = some o ∧ start ≤ o ∧ o < stop := by
  cases h : c.origin <;> simp [within, h]

theorem isSome_origin_of_covers {c : Cell} {offset : Nat} (h : c.covers offset = true) :
    c.origin.isSome = true := by
  obtain ⟨o, ho, -⟩ := covers_iff.mp h
  simp [ho]

theorem survivors_indent (text : List Char) (isProtected : Nat → Bool) (due : Bool) (place : Nat)
    (cells : List Cell) :
    survivors (Cell.indent (fresh text) isProtected due place cells) = survivors cells := by
  induction cells generalizing due place with
  | nil => rfl
  | cons c cs ih =>
    have hc : survivors (c :: cs) = survivors [c] ++ survivors cs := survivors_append [c] cs
    rw [Cell.indent, survivors_append, hc, ← ih (Text.isBreak c.char && !isProtected place)
      (place + c.char.utf8Size)]
    split
    · rw [survivors_fresh]
      exact survivors_append [c] _
    · exact survivors_append [c] _

/-! Where bytes stand. -/

theorem size_append (a b : List Cell) :
    Text.size (text (a ++ b)) = Text.size (text a) + Text.size (text b) := by simp [text]

theorem locate?_append (offset : Nat) (a b : List Cell) :
    locate? offset (a ++ b) =
      (locate? offset a).or ((locate? offset b).map (Text.size (text a) + ·)) := by
  induction a with
  | nil => simp [locate?, text, Text.size]
  | cons c a ih =>
    rw [List.cons_append, locate?, locate?, ih]
    split
    · next h =>
      obtain ⟨o, ho⟩ := Option.isSome_iff_exists.mp (isSome_origin_of_covers h)
      simp [ho]
    · cases locate? offset a <;> cases locate? offset b <;> simp [text, Text.size, Nat.add_assoc]

@[simp] theorem locate?_fresh (offset : Nat) (text : List Char) :
    locate? offset (fresh text) = none := by
  induction text with
  | nil => rfl
  | cons c cs ih =>
    have hf : fresh (c :: cs) = ⟨c, none⟩ :: fresh cs := rfl
    simp [hf, locate?, covers, ih]

theorem locate?_of_covers {offset o : Nat} {c : Cell} (cs : List Cell) (h : c.covers offset = true)
    (ho : c.origin = some o) : locate? offset (c :: cs) = some (offset - o) := by
  simp [locate?, h, ho]

theorem locate?_of_not_covers {offset : Nat} {c : Cell} (cs : List Cell)
    (h : c.covers offset = false) :
    locate? offset (c :: cs) = (locate? offset cs).map (c.char.utf8Size + ·) := by
  simp [locate?, h]

theorem locate?_eq_none_iff {offset : Nat} {cells : List Cell} :
    locate? offset cells = none ↔ ∀ c ∈ cells, c.covers offset = false := by
  induction cells with
  | nil => simp [locate?]
  | cons c cs ih =>
    by_cases h : c.covers offset = true
    · obtain ⟨o, ho⟩ := Option.isSome_iff_exists.mp (isSome_origin_of_covers h)
      simp [locate?_of_covers cs h ho, h]
    · have h := Bool.eq_false_iff.mpr h
      simp [locate?_of_not_covers cs h, h, ih]

theorem isSome_locate? {offset : Nat} {cells : List Cell} :
    (locate? offset cells).isSome = cells.any (·.covers offset) := by
  rw [Bool.eq_iff_iff, ← Option.ne_none_iff_isSome, Ne, locate?_eq_none_iff]
  simp

theorem exists_of_locate? {offset place : Nat} {cells : List Cell}
    (h : locate? offset cells = some place) :
    ∃ a c z o, cells = a ++ c :: z ∧ (∀ x ∈ a, x.covers offset = false) ∧ c.origin = some o ∧
      o ≤ offset ∧ offset < o + c.char.utf8Size ∧ place = Text.size (text a) + (offset - o) := by
  have hany : cells.any (·.covers offset) = true := by rw [← isSome_locate?, h]; rfl
  obtain ⟨a, c, z, rfl, ha, hc⟩ := exists_first hany
  obtain ⟨o, ho, hle, hlt⟩ := covers_iff.mp hc
  refine ⟨a, c, z, o, rfl, ha, ho, hle, hlt, ?_⟩
  rw [locate?_append, locate?_eq_none_iff.mpr ha, locate?_of_covers z hc ho] at h
  simpa using h.symm

theorem locate?_lt {offset place : Nat} {cells : List Cell} (h : locate? offset cells = some place) :
    place < Text.size (text cells) := by
  obtain ⟨a, c, z, o, rfl, -, -, hle, hlt, rfl⟩ := exists_of_locate? h
  rw [size_append]
  simp only [text, List.map_cons, Text.size]
  omega

theorem eq_of_covers {cells : List Cell} (hp : cells.Pairwise Precedes) {offset : Nat} {c d : Cell}
    (hc : c ∈ cells) (hd : d ∈ cells) (hcc : c.covers offset = true)
    (hdc : d.covers offset = true) : c = d := by
  obtain ⟨o, ho, hle, hlt⟩ := covers_iff.mp hcc
  obtain ⟨o', ho', hle', hlt'⟩ := covers_iff.mp hdc
  obtain ⟨a, z, rfl⟩ := List.append_of_mem hc
  obtain ⟨-, hcz, hac⟩ := List.pairwise_append.mp hp
  rcases List.mem_append.mp hd with h | h
  · have := hac d h c (by simp) o' o ho' ho
    omega
  · rcases List.mem_cons.mp h with rfl | h
    · rfl
    · have := (List.pairwise_cons.mp hcz).1 d h o o' ho ho'
      omega

/-- The bytes of a cell stand behind all cells in front of it. -/
theorem locate?_of_split {a z : List Cell} {c : Cell} (hp : (a ++ c :: z).Pairwise Precedes)
    {o k : Nat} (ho : c.origin = some o) (hk : k < c.char.utf8Size) :
    locate? (o + k) (a ++ c :: z) = some (Text.size (text a) + k) := by
  have hc : c.covers (o + k) = true := covers_iff.mpr ⟨o, ho, by omega, by omega⟩
  have ha : locate? (o + k) a = none := by
    refine locate?_eq_none_iff.mpr fun x hx => Bool.eq_false_iff.mpr fun hcov => ?_
    obtain ⟨o', ho', -, hlt⟩ := covers_iff.mp hcov
    have := (List.pairwise_append.mp hp).2.2 x hx c (by simp) o' o ho' ho
    omega
  rw [locate?_append, ha, locate?_of_covers z hc ho]
  simp

theorem locate?_lt_locate? {cells : List Cell} (hp : cells.Pairwise Precedes) {i j p q : Nat}
    (hij : i < j) (hi : locate? i cells = some p) (hj : locate? j cells = some q) : p < q := by
  induction cells generalizing p q with
  | nil => simp [locate?] at hi
  | cons c cs ih =>
    obtain ⟨hc, hcs⟩ := List.pairwise_cons.mp hp
    by_cases h : c.covers j = true
    · obtain ⟨o, ho, hle, hlt⟩ := covers_iff.mp h
      rw [locate?_of_covers cs h ho, Option.some.injEq] at hj
      by_cases h' : c.covers i = true
      · obtain ⟨o', ho', hle', -⟩ := covers_iff.mp h'
        rw [ho, Option.some.injEq] at ho'
        rw [locate?_of_covers cs h' ho, Option.some.injEq] at hi
        omega
      · -- a cell behind this one cannot hold an earlier byte
        rw [locate?_of_not_covers cs (Bool.eq_false_iff.mpr h')] at hi
        obtain ⟨p', hp', -⟩ := Option.map_eq_some_iff.mp hi
        obtain ⟨a, d, z, o', rfl, -, ho', hle', -, -⟩ := exists_of_locate? hp'
        have := hc d (by simp) o o' ho ho'
        omega
    · rw [locate?_of_not_covers cs (Bool.eq_false_iff.mpr h)] at hj
      obtain ⟨q', hq', rfl⟩ := Option.map_eq_some_iff.mp hj
      by_cases h' : c.covers i = true
      · obtain ⟨o', ho', hle', hlt'⟩ := covers_iff.mp h'
        rw [locate?_of_covers cs h' ho', Option.some.injEq] at hi
        omega
      · rw [locate?_of_not_covers cs (Bool.eq_false_iff.mpr h')] at hi
        obtain ⟨p', hp', rfl⟩ := Option.map_eq_some_iff.mp hi
        have := ih hcs hp' hq'
        omega

theorem locate?_eq_none_of_append {a b : List Cell} (hp : (a ++ b).Pairwise Precedes)
    {offset place : Nat} (h : locate? offset a = some place) : locate? offset b = none := by
  obtain ⟨x, c, z, o, rfl, -, ho, hle, hlt, -⟩ := exists_of_locate? h
  refine locate?_eq_none_iff.mpr fun d hd => Bool.eq_false_iff.mpr fun hcov => ?_
  obtain ⟨o', ho', hle', -⟩ := covers_iff.mp hcov
  have := (List.pairwise_append.mp hp).2.2 c (by simp) d hd o o' ho ho'
  omega

/-- Where the byte at a place is when a stretch gave way to new text. -/
def moveAround (before gone new : Nat) (place : Int) : Option Int :=
  if place < before then some place
  else if place < before + gone then none
  else some (place + new - gone)

theorem moveAround_before {before gone new : Nat} {place : Int} (h : place < before) :
    moveAround before gone new place = some place := by simp [moveAround, h]

theorem moveAround_inside {before gone new : Nat} {place : Int} (h : before ≤ place)
    (h' : place < before + gone) : moveAround before gone new place = none := by
  rw [moveAround, if_neg (by omega), if_pos h']

theorem moveAround_behind {before gone new : Nat} {place : Int} (h : before + gone ≤ place) :
    moveAround before gone new place = some (place + new - gone) := by
  rw [moveAround, if_neg (by omega), if_neg (by omega)]

theorem locate?_splice {a m z : List Cell} (hp : (a ++ m ++ z).Pairwise Precedes) (new : List Char)
    (offset : Nat) :
    (locate? offset (a ++ fresh new ++ z)).map Int.ofNat =
      ((locate? offset (a ++ m ++ z)).map Int.ofNat).bind
        (moveAround (Text.size (text a)) (Text.size (text m)) (Text.size new)) := by
  simp only [locate?_append, locate?_fresh, size_append, text_fresh]
  cases ha : locate? offset a with
  | some p =>
    have := locate?_lt ha
    simp [moveAround, this]
  | none =>
    cases hm : locate? offset m with
    | some p =>
      have hz : locate? offset z = none :=
        locate?_eq_none_of_append ((List.append_assoc a m z ▸ hp).sublist (by simp)) hm
      have := locate?_lt hm
      have hnot : ¬ ((Text.size (text a) : Int) + p < Text.size (text a)) := by omega
      simp [moveAround, hz, this, hnot]
    | none =>
      cases hz : locate? offset z with
      | none => simp
      | some p =>
        have hnot : ¬ ((Text.size (text a) : Int) + Text.size (text m) + p < Text.size (text a)) := by
          omega
        simp [moveAround, hnot]
        omega

end Cell

end Treeshake
