import Treeshake.Proofs.Draft.Edits
/-!
Where the bytes of the first text stand in an edited draft. Main statement: after any edits, every
surviving byte stands at its place in the text, later bytes stand behind earlier ones, and a further edit
moves each of them by an exact difference.
-/
set_option autoImplicit false

namespace Treeshake

namespace Text

/-- Whether a character starts at an offset or the text ends there. -/
def usable (offset : Nat) (cs : List Char) : Bool := (before? offset cs).isSome

theorem eq_append_of_usable {offset : Nat} {cs : List Char} (h : usable offset cs = true) :
    ∃ a b, cs = a ++ b ∧ offset = size a := by
  induction cs generalizing offset with
  | nil =>
    cases offset with
    | zero => exact ⟨[], [], rfl, rfl⟩
    | succ n => simp [usable, before?] at h
  | cons c cs ih =>
    cases offset with
    | zero => exact ⟨[], c :: cs, rfl, rfl⟩
    | succ n =>
      by_cases hc : n + 1 < c.utf8Size
      · simp [usable, before?, hc] at h
      · have hn : usable (n + 1 - c.utf8Size) cs = true := by simpa [usable, before?, hc] using h
        obtain ⟨a, b, rfl, ha⟩ := ih hn
        refine ⟨c :: a, b, rfl, ?_⟩
        simp only [size]
        omega

theorem size_pos {cs : List Char} (h : cs ≠ []) : 0 < size cs := by
  obtain ⟨c, cs, rfl⟩ := List.exists_cons_of_ne_nil h
  exact Nat.add_pos_left c.utf8Size_pos _

theorem before?_eq_some {k : Nat} {cs text : List Char} (h : before? k cs = some text) :
    ∃ rest, cs = text ++ rest ∧ size text = k := by
  obtain ⟨a, b, rfl, rfl⟩ := eq_append_of_usable (show usable k cs = true from Option.isSome_of_eq_some h)
  obtain rfl := Option.some.inj ((before?_size_append a b).symm.trans h)
  exact ⟨b, rfl, rfl⟩

theorem after?_eq_some {k : Nat} {cs rest : List Char} (h : after? k cs = some rest) :
    ∃ x, cs = x ++ rest ∧ size x = k := by
  induction cs generalizing k with
  | nil =>
    cases k with
    | zero => exact ⟨[], Option.some.inj h, rfl⟩
    | succ k => cases h
  | cons c cs ih =>
    cases k with
    | zero => exact ⟨[], Option.some.inj h, rfl⟩
    | succ k =>
      rw [after?] at h
      split at h
      · cases h
      · obtain ⟨x, rfl, hx⟩ := ih h
        refine ⟨c :: x, rfl, ?_⟩
        rw [size]
        omega

theorem slice?_eq_some {start stop : Nat} {cs text : List Char} (h : slice? start stop cs = some text) :
    ∃ x y, cs = x ++ text ++ y ∧ size x = start ∧ start + size text = stop := by
  unfold slice? at h
  split at h
  · cases h
  · obtain ⟨rest, hafter, hbefore⟩ := Option.bind_eq_some_iff.mp h
    obtain ⟨x, rfl, hx⟩ := after?_eq_some hafter
    obtain ⟨y, rfl, hsize⟩ := before?_eq_some hbefore
    exact ⟨x, y, (List.append_assoc ..).symm, hx, by omega⟩

theorem not_inside {a b x y : List Char} {c : Char} (h : x ++ c :: y = a ++ b)
    (hlt : size x < size a) : size x + c.utf8Size ≤ size a := by
  rcases List.append_eq_append_iff.mp h with ⟨w, hw, hb⟩ | ⟨w, hw, hb⟩
  · cases w with
    | nil => simp [hw] at hlt
    | cons d w =>
      obtain ⟨rfl, -⟩ := List.cons.inj hb
      rw [hw, size_append, size]
      omega
  · rw [hw, size_append] at hlt
    omega

def bytes (cs : List Char) : List UInt8 := cs.flatMap String.utf8EncodeChar

theorem length_bytes (cs : List Char) : (bytes cs).length = size cs := by
  induction cs with
  | nil => rfl
  | cons c cs ih => simp [bytes, size] at *; omega

theorem toList_data_toUTF8 (s : String) : s.toUTF8.data.toList = bytes s.toList := by
  rw [String.toUTF8_eq_toByteArray, ← String.utf8Encode_toList, List.utf8Encode,
    List.toList_data_toByteArray, bytes]

theorem utf8ByteSize_eq (s : String) : s.utf8ByteSize = size s.toList := by
  rw [← length_bytes, ← toList_data_toUTF8]
  rfl

theorem getElem?_bytes (a b : List Char) (c : Char) {k : Nat} (hk : k < c.utf8Size) :
    (bytes (a ++ c :: b))[size a + k]? = (String.utf8EncodeChar c)[k]? := by
  have hb : bytes (a ++ c :: b) = bytes a ++ (String.utf8EncodeChar c ++ bytes b) := by
    simp [bytes]
  rw [hb, List.getElem?_append_right (by rw [length_bytes]; omega), length_bytes,
    Nat.add_sub_cancel_left, List.getElem?_append_left (by simpa using hk)]

end Text

namespace Cell

/-- The places of the characters that get a unit in front. -/
def starts (isProtected : Nat → Bool) : Bool → Nat → List Cell → List Nat
  | _, _, [] => []
  | due, place, c :: cs =>
    (if due && !Text.isBreak c.char then [place] else []) ++
      starts isProtected (Text.isBreak c.char && !isProtected place) (place + c.char.utf8Size) cs

theorem le_of_mem_starts {isProtected : Nat → Bool} {due : Bool} {place n : Nat} {cells : List Cell}
    (h : n ∈ starts isProtected due place cells) : place ≤ n := by
  induction cells generalizing due place with
  | nil => simp [starts] at h
  | cons c cs ih =>
    rw [starts, List.mem_append] at h
    rcases h with h | h
    · split at h
      · exact Nat.le_of_eq (List.mem_singleton.mp h).symm
      · simp at h
    · have := ih h
      omega

theorem countP_starts_of_lt {isProtected : Nat → Bool} {due : Bool} {place n : Nat}
    {cells : List Cell} (h : n < place) :
    (starts isProtected due place cells).countP (· ≤ n) = 0 := by
  refine List.countP_eq_zero.mpr fun k hk => ?_
  have := le_of_mem_starts hk
  simp only [decide_eq_true_eq]
  omega

theorem locate?_indent (unit : List Char) (isProtected : Nat → Bool) (due : Bool) (place : Nat)
    (cells : List Cell) (offset : Nat) :
    locate? offset (Cell.indent (fresh unit) isProtected due place cells) =
      (locate? offset cells).map fun p =>
        p + (starts isProtected due place cells).countP (· ≤ place + p) * Text.size unit := by
  induction cells generalizing due place with
  | nil => simp [Cell.indent, locate?]
  | cons c cs ih =>
    have hunit : locate? offset (if due && !Text.isBreak c.char then fresh unit else []) = none := by
      split
      · exact locate?_fresh offset unit
      · rfl
    have hsize : Text.size (text (if due && !Text.isBreak c.char then fresh unit else [])) =
        (if due && !Text.isBreak c.char then [place] else []).length * Text.size unit := by
      split
      · simp
      · simp [text, Text.size]
    rw [Cell.indent, locate?_append, hunit, Option.none_or, hsize, starts]
    by_cases hc : c.covers offset = true
    · obtain ⟨o, ho, hle, hlt⟩ := covers_iff.mp hc
      have hn : place + (offset - o) < place + c.char.utf8Size := by omega
      rw [locate?_of_covers _ hc ho, locate?_of_covers _ hc ho]
      simp only [Option.map_some, Option.some.injEq, List.countP_append, countP_starts_of_lt hn]
      split
      · simp
        omega
      · simp
    · have hc := Bool.eq_false_iff.mpr hc
      rw [locate?_of_not_covers _ hc, locate?_of_not_covers _ hc, ih]
      cases locate? offset cs with
      | none => rfl
      | some p =>
        simp only [Option.map_some, Option.some.injEq, List.countP_append, Nat.add_assoc, Nat.add_mul]
        split
        · simp
          omega
        · simp

end Cell

namespace Draft

def firstPlace (d : Draft) (start stop : Nat) : Option Nat :=
  (List.range' start (stop - start)).findSome? d.locate?

def lastPlace (d : Draft) (start stop : Nat) : Option Nat :=
  (List.range' start (stop - start)).reverse.findSome? d.locate?

/-- Bytes of a range go, and those behind it move up by all between its first and last survivor. -/
def moveRemoved (d : Draft) (start stop offset : Nat) (place : Int) : Option Int :=
  if offset < start then some place
  else if offset < stop then none
  else
    match d.firstPlace start stop, d.lastPlace start stop with
    | some first, some last => some (place - (last + 1 - first))
    | _, _ => some place

def moveTrimmed (d : Draft) (p : Char → Bool) (place : Int) : Option Int :=
  let lead := Text.size (d.text.toList.takeWhile p)
  let kept := Text.size (Text.trimEnd p (d.text.toList.dropWhile p))
  if place < lead then none
  else if place < lead + kept then some (place - lead)
  else none

def indentPlaces (d : Draft) (ranges : List (Nat × Nat)) (atStart : Bool) : List Nat :=
  let spans := d.places ranges
  Cell.starts (fun place => spans.any fun s => s.1 ≤ place && place ≤ s.2) atStart 0 d.cells

end Draft

/-- Where an edit moves the byte at an offset of the first text, from a place to a place: nowhere if the
byte goes, and otherwise by a difference of sizes alone. -/
def Edit.move (d : Draft) (e : Edit) (offset : Nat) (place : Int) : Option Int :=
  match e with
  | .prepend text => some (place + text.utf8ByteSize)
  | .insert at_ text =>
    if at_ < d.length ∧ at_ ≤ offset then some (place + text.utf8ByteSize) else some place
  | .overwrite start stop text _ =>
    if offset < start then some place
    else if offset < stop then none
    else
      match d.locate? start, d.locate? (stop - 1) with
      | some first, some last => some (place + text.utf8ByteSize - (last + 1 - first))
      | _, _ => some place
  | .remove start stop => d.moveRemoved start stop offset place
  | .keep start stop =>
    match d.remove 0 start with
    | .ok d' => (d.moveRemoved 0 start offset place).bind (d'.moveRemoved stop d.length offset)
    | .error _ => none
  | .indent unit ranges atStart =>
    some (place + (d.indentPlaces ranges atStart).countP (fun n : Nat => (n : Int) ≤ place) * unit.utf8ByteSize)
  | .trim => d.moveTrimmed Text.isBlank place
  | .trimLines => d.moveTrimmed Text.isBreak place
  | .append _ | .anchor _ | .protect _ _ => some place

def Edit.usable (source : String) : Edit → Bool
  | .insert offset _ => Text.usable offset source.toList
  | .overwrite start stop _ _ | .remove start stop | .keep start stop =>
    Text.usable start source.toList && Text.usable stop source.toList
  | _ => true

namespace Draft

theorem Intact.origin_usable {d : Draft} (hd : d.Intact) {c : Cell} (hc : c ∈ d.cells) {o : Nat}
    (ho : c.origin = some o) {at_ : Nat} (hu : Text.usable at_ d.source.toList = true)
    (hlt : o < at_) : o + c.char.utf8Size ≤ at_ := by
  obtain ⟨x, y, hxy, hx⟩ := Cell.mem_settled (hd.mem_settled hc (by simp [ho]))
  obtain ⟨a, b, hab, rfl⟩ := Text.eq_append_of_usable hu
  rw [ho, Nat.zero_add, Option.some.injEq] at hx
  subst hx
  exact Text.not_inside (hxy.symm.trans hab) hlt

theorem Intact.covers_eq_false {d : Draft} (hd : d.Intact) {start stop : Nat}
    (hs : Text.usable start d.source.toList = true) {x : Cell} (hx : x ∈ d.cells)
    (hw : x.within start stop = false) {k : Nat} (hk : start ≤ k) (hks : k < stop) :
    x.covers k = false := by
  refine Bool.eq_false_iff.mpr fun hcov => ?_
  obtain ⟨o, ho, hle, hlt⟩ := Cell.covers_iff.mp hcov
  rcases Nat.lt_or_ge o start with hos | hos
  · have := hd.origin_usable hx ho hs hos
    omega
  · have hin : x.within start stop = true := Cell.within_iff.mpr ⟨o, ho, hos, by omega⟩
    rw [hin] at hw
    cases hw

theorem Intact.place_lt_iff {d : Draft} (hd : d.Intact) {i j p q : Nat}
    (hi : d.locate? i = some p) (hj : d.locate? j = some q) : p < q ↔ i < j := by
  have hlt := fun h => Cell.locate?_lt_locate? hd.pairwise h hi hj
  have hgt := fun h => Cell.locate?_lt_locate? hd.pairwise h hj hi
  rcases Nat.lt_trichotomy i j with h | rfl | h
  · simp [h, hlt h]
  · obtain rfl : p = q := Option.some.inj (hi.symm.trans hj)
    simp
  · have := hgt h
    omega

theorem locate?_insert {d d' : Draft} {at_ : Nat} {text : String} (hd : d.Intact)
    (hu : Text.usable at_ d.source.toList = true) (h : d.insert at_ text = .ok d') (offset : Nat) :
    (d'.locate? offset).map Int.ofNat =
      ((d.locate? offset).map Int.ofNat).bind ((Edit.insert at_ text).move d offset) := by
  obtain ⟨rfl, rfl⟩ | ⟨hlt, a, c, z, hcells, ha, hc, rfl⟩ := insert_eq_ok h
  · simp only [append, locate?, Cell.locate?_append, Cell.locate?_fresh]
    cases Cell.locate? offset d.cells <;> simp [Edit.move]
  · obtain ⟨o, ho, hle, hlto⟩ := Cell.covers_iff.mp hc
    have hstart : o = at_ := by
      rcases Nat.lt_or_ge o at_ with hoa | hoa
      · have := hd.origin_usable (by simp [hcells]) ho hu hoa
        omega
      · omega
    have hp := hd.pairwise
    rw [hcells] at hp
    have hat : d.locate? at_ = some (Text.size (Cell.text a)) := by
      rw [locate?, hcells, ← hstart]
      exact Cell.locate?_of_split (k := 0) hp ho c.char.utf8Size_pos
    rw [← List.append_nil a] at hp
    have hsplice := Cell.locate?_splice hp text.toList offset
    rw [List.append_nil] at hsplice
    simp only [locate?, hsplice, hcells]
    rw [← hcells]
    cases hl : Cell.locate? offset d.cells with
    | none => rfl
    | some p =>
      have := hd.place_lt_iff hl hat
      have hnil : Text.size (Cell.text []) = 0 := rfl
      simp only [Option.map_some, Option.bind_some, Int.ofNat_eq_natCast, Edit.move,
        Text.utf8ByteSize_eq, hnil]
      rcases Nat.lt_or_ge offset at_ with hb | hb
      · rw [Cell.moveAround_before (by omega), if_neg (by omega)]
      · rw [Cell.moveAround_behind (by omega), if_pos ⟨hlt, hb⟩]
        simp

theorem locate?_overwrite {d d' : Draft} {start stop : Nat} {text : String} {storeName : Bool}
    (hd : d.Intact) (h : d.overwrite start stop text storeName = .ok d') (offset : Nat) :
    (d'.locate? offset).map Int.ofNat =
      ((d.locate? offset).map Int.ofNat).bind
        ((Edit.overwrite start stop text storeName).move d offset) := by
  obtain ⟨hlt, -, a, m, z, names, hcells, rfl, hfirst, hlast, hpos⟩ := overwrite_eq_ok hd h
  have hsplice := Cell.locate?_splice (hcells ▸ hd.pairwise) text.toList offset
  simp only [locate?, hsplice, ← hcells]
  cases hl : Cell.locate? offset d.cells with
  | none => rfl
  | some p =>
    have h₁ := hd.place_lt_iff hl hfirst
    have h₂ := hd.place_lt_iff hlast hl
    simp only [Option.map_some, Option.bind_some, Int.ofNat_eq_natCast, Edit.move, hfirst, hlast,
      Text.utf8ByteSize_eq]
    rcases Nat.lt_or_ge offset start with hb | hb
    · rw [Cell.moveAround_before (by omega), if_pos hb]
    · rcases Nat.lt_or_ge offset stop with hi | hi
      · rw [Cell.moveAround_inside (by omega) (by omega), if_neg (by omega), if_pos hi]
      · rw [Cell.moveAround_behind (by omega), if_neg (by omega), if_neg (by omega), Option.some.injEq]
        omega

theorem ends_of_within {d : Draft} {start stop : Nat} (hd : d.Intact)
    (hs : Text.usable start d.source.toList = true) (ht : Text.usable stop d.source.toList = true)
    {a m z : List Cell} (hcells : d.cells = a ++ m ++ z)
    (ha : ∀ x ∈ a, x.within start stop = false) (hz : ∀ x ∈ z, x.within start stop = false)
    (hhead : ∃ c l, m = c :: l ∧ c.within start stop = true)
    (hlast : ∃ l e, m = l ++ [e] ∧ e.within start stop = true) :
    ∃ i j, start ≤ i ∧ j < stop ∧ d.locate? i = some (Text.size (Cell.text a)) ∧
      d.locate? j = some (Text.size (Cell.text a) + Text.size (Cell.text m) - 1) ∧
      0 < Text.size (Cell.text m) ∧
      ∀ k p, start ≤ k → k < stop → d.locate? k = some p →
        Text.size (Cell.text a) ≤ p ∧ p < Text.size (Cell.text a) + Text.size (Cell.text m) := by
  have hp := hd.pairwise
  rw [hcells] at hp
  obtain ⟨c, l, hm, hc⟩ := hhead
  obtain ⟨l', e, hm', he⟩ := hlast
  obtain ⟨oc, hoc, hc₁, hc₂⟩ := Cell.within_iff.mp hc
  obtain ⟨oe, hoe, he₁, he₂⟩ := Cell.within_iff.mp he
  have hend : oe + e.char.utf8Size ≤ stop :=
    hd.origin_usable (by simp [hcells, hm']) hoe ht he₂
  have hpos := e.char.utf8Size_pos
  have hsize : Text.size (Cell.text m) = Text.size (Cell.text l') + e.char.utf8Size := by
    rw [hm', Cell.size_append]
    simp [Cell.text, Text.size]
  refine ⟨oc, oe + (e.char.utf8Size - 1), hc₁, by omega, ?_, ?_, by omega, ?_⟩
  · rw [hm, List.append_assoc, List.cons_append] at hp
    rw [locate?, hcells, hm, List.append_assoc, List.cons_append]
    exact Cell.locate?_of_split (k := 0) hp hoc c.char.utf8Size_pos
  · have hsplit : a ++ m ++ z = (a ++ l') ++ e :: z := by simp [hm']
    rw [locate?, hcells, hsplit, Cell.locate?_of_split (hsplit ▸ hp) hoe (by omega), hsize,
      Cell.size_append, Option.some.injEq]
    omega
  · intro k p hk₁ hk₂ hkp
    have hka : Cell.locate? k a = none := Cell.locate?_eq_none_iff.mpr fun x hx =>
      hd.covers_eq_false hs (by simp [hcells, hx]) (ha x hx) hk₁ hk₂
    have hkz : Cell.locate? k z = none := Cell.locate?_eq_none_iff.mpr fun x hx =>
      hd.covers_eq_false hs (by simp [hcells, hx]) (hz x hx) hk₁ hk₂
    rw [locate?, hcells, List.append_assoc, Cell.locate?_append, Cell.locate?_append, hka, hkz] at hkp
    simp only [Option.none_or, Option.map_none, Option.or_none] at hkp
    obtain ⟨q, hq, rfl⟩ := Option.map_eq_some_iff.mp hkp
    have := Cell.locate?_lt hq
    omega

theorem range'_split {start stop i : Nat} (hs : start ≤ i) (hi : i < stop) :
    List.range' start (stop - start) =
      List.range' start (i - start) ++ i :: List.range' (i + 1) (stop - i - 1) := by
  have hn : stop - start = (i - start) + ((stop - i - 1) + 1) := by omega
  have hm : start + 1 * (i - start) = i := by omega
  rw [hn, ← List.range'_append, hm, List.range'_succ]

theorem firstPlace_eq {d : Draft} {start stop i p : Nat} (hs : start ≤ i) (hi : i < stop)
    (hip : d.locate? i = some p) (hnone : ∀ k, start ≤ k → k < i → d.locate? k = none) :
    d.firstPlace start stop = some p := by
  refine List.findSome?_eq_some_iff.mpr ⟨_, i, _, range'_split hs hi, hip, fun k hk => ?_⟩
  have := List.mem_range'_1.mp hk
  exact hnone k (by omega) (by omega)

theorem lastPlace_eq {d : Draft} {start stop i p : Nat} (hs : start ≤ i) (hi : i < stop)
    (hip : d.locate? i = some p) (hnone : ∀ k, i < k → k < stop → d.locate? k = none) :
    d.lastPlace start stop = some p := by
  have hrev : (List.range' start (stop - start)).reverse =
      (List.range' (i + 1) (stop - i - 1)).reverse ++ i :: (List.range' start (i - start)).reverse := by
    simp [range'_split hs hi]
  refine List.findSome?_eq_some_iff.mpr ⟨_, i, _, hrev, hip, fun k hk => ?_⟩
  have := List.mem_range'_1.mp (List.mem_reverse.mp hk)
  exact hnone k (by omega) (by omega)

theorem Intact.firstPlace {d : Draft} (hd : d.Intact) {start stop i p : Nat} (hs : start ≤ i)
    (hi : i < stop) (hip : d.locate? i = some p)
    (hleast : ∀ k q, start ≤ k → k < stop → d.locate? k = some q → p ≤ q) :
    d.firstPlace start stop = some p := by
  refine firstPlace_eq hs hi hip fun k hk hki => ?_
  cases hkq : d.locate? k with
  | none => rfl
  | some q =>
    have := hleast k q hk (by omega) hkq
    have := hd.place_lt_iff hkq hip
    omega

theorem Intact.lastPlace {d : Draft} (hd : d.Intact) {start stop i p : Nat} (hs : start ≤ i)
    (hi : i < stop) (hip : d.locate? i = some p)
    (hgreatest : ∀ k q, start ≤ k → k < stop → d.locate? k = some q → q ≤ p) :
    d.lastPlace start stop = some p := by
  refine lastPlace_eq hs hi hip fun k hk hks => ?_
  cases hkq : d.locate? k with
  | none => rfl
  | some q =>
    have := hgreatest k q (by omega) hks hkq
    have := hd.place_lt_iff hip hkq
    omega

theorem moveRemoved_of_gone {d : Draft} {start stop : Nat}
    (hgone : ∀ k, start ≤ k → k < stop → d.locate? k = none) (offset : Nat) :
    (d.locate? offset).map Int.ofNat =
      ((d.locate? offset).map Int.ofNat).bind (d.moveRemoved start stop offset) := by
  have hfirst : d.firstPlace start stop = none := by
    refine List.findSome?_eq_none_iff.mpr fun k hk => ?_
    have := List.mem_range'_1.mp hk
    exact hgone k (by omega) (by omega)
  cases hl : d.locate? offset with
  | none => rfl
  | some p =>
    have : ¬ (start ≤ offset ∧ offset < stop) := by
      rintro ⟨h₁, h₂⟩
      rw [hgone offset h₁ h₂] at hl
      cases hl
    simp only [Option.map_some, Option.bind_some, moveRemoved, hfirst]
    split
    · rfl
    · rw [if_neg (by omega)]

theorem locate?_remove {d d' : Draft} {start stop : Nat} (hd : d.Intact)
    (hs : Text.usable start d.source.toList = true) (ht : Text.usable stop d.source.toList = true)
    (h : d.remove start stop = .ok d') (offset : Nat) :
    (d'.locate? offset).map Int.ofNat =
      ((d.locate? offset).map Int.ofNat).bind (d.moveRemoved start stop offset) := by
  obtain ⟨hle, -, ⟨hnone, hsame⟩ | ⟨a, m, z, hcells, rfl, ha, hz, hhead, hlast⟩⟩ := remove_eq_ok h
  · subst d'
    exact moveRemoved_of_gone (fun k hk hks => Cell.locate?_eq_none_iff.mpr fun x hx =>
      hd.covers_eq_false hs hx (by simpa using List.any_eq_false.mp hnone x hx) hk hks) offset
  · obtain ⟨i, j, hi, hj, hip, hjp, hpos, hin⟩ := ends_of_within hd hs ht hcells ha hz hhead hlast
    have hij : i ≤ j := by
      have := hd.place_lt_iff hjp hip
      omega
    have hfirst := hd.firstPlace hi (by omega) hip fun k p hk hks hkp => (hin k p hk hks hkp).1
    have hlast := hd.lastPlace (Nat.le_trans hi hij) hj hjp fun k p hk hks hkp => by
      have := hin k p hk hks hkp
      omega
    have hsplice := Cell.locate?_splice (hcells ▸ hd.pairwise) [] offset
    have hfresh : Cell.fresh [] = [] := rfl
    rw [hfresh, List.append_nil] at hsplice
    simp only [locate?, hsplice, ← hcells]
    cases hl : Cell.locate? offset d.cells with
    | none => rfl
    | some p =>
      have h₁ := hd.place_lt_iff hl hip
      have h₂ := hd.place_lt_iff hjp hl
      simp only [Option.map_some, Option.bind_some, Int.ofNat_eq_natCast, moveRemoved, hfirst, hlast]
      rcases Nat.lt_or_ge offset start with hb | hb
      · rw [Cell.moveAround_before (by omega), if_pos hb]
      · rcases Nat.lt_or_ge offset stop with hk | hk
        · have := hin offset p hb hk hl
          rw [Cell.moveAround_inside (by omega) (by omega), if_neg (by omega), if_pos hk]
        · rw [Cell.moveAround_behind (by omega), if_neg (by omega), if_neg (by omega),
            Option.some.injEq]
          simp only [Text.size]
          omega

theorem toList_text (d : Draft) : d.text.toList = Cell.text d.cells := by simp [text]

theorem locate?_trimStart {d : Draft} (hd : d.Intact) (p : Char → Bool) (offset : Nat) :
    ((d.trimStart p).locate? offset).map Int.ofNat =
      ((d.locate? offset).map Int.ofNat).bind
        (Cell.moveAround 0 (Text.size (d.text.toList.takeWhile p)) 0) := by
  have hcells : d.cells =
      [] ++ d.cells.takeWhile (p ·.char) ++ d.cells.dropWhile (p ·.char) := by simp
  have hsplice := Cell.locate?_splice (hcells ▸ hd.pairwise) [] offset
  have hsize : Text.size (Cell.text (d.cells.takeWhile (p ·.char))) =
      Text.size (d.text.toList.takeWhile p) := by
    rw [toList_text, Cell.text, Cell.text, List.takeWhile_map]
    rfl
  rw [← hcells, hsize] at hsplice
  exact hsplice

theorem locate?_trimEnd {d : Draft} (hd : d.Intact) (p : Char → Bool) (offset : Nat) :
    ((d.trimEnd p).locate? offset).map Int.ofNat =
      ((d.locate? offset).map Int.ofNat).bind fun place =>
        if place < Text.size (Text.trimEnd p d.text.toList) then some place else none := by
  have hcells : d.cells = (d.cells.reverse.dropWhile (p ·.char)).reverse ++
      (d.cells.reverse.takeWhile (p ·.char)).reverse ++ [] := by
    rw [List.append_nil, ← List.reverse_append, List.takeWhile_append_dropWhile, List.reverse_reverse]
  have hsplice := Cell.locate?_splice (hcells ▸ hd.pairwise) [] offset
  have hsize : Text.size (Cell.text (d.cells.reverse.dropWhile (p ·.char)).reverse) =
      Text.size (Text.trimEnd p d.text.toList) := by
    rw [toList_text, Cell.text, Cell.text, Text.trimEnd, ← List.map_reverse, List.dropWhile_map,
      List.map_reverse]
    rfl
  have hall := congrArg (fun cells => Text.size (Cell.text cells)) hcells
  simp only [List.append_nil, Cell.size_append, hsize] at hall
  rw [← hcells, hsize, Cell.fresh, List.map_nil, List.append_nil, List.append_nil] at hsplice
  simp only [trimEnd, locate?, hsplice]
  cases hl : Cell.locate? offset d.cells with
  | none => rfl
  | some q =>
    have := Cell.locate?_lt hl
    simp only [Option.map_some, Option.bind_some, Int.ofNat_eq_natCast]
    split
    · rw [Cell.moveAround_before (by omega)]
    · rw [Cell.moveAround_inside (by omega) (by omega)]

theorem locate?_trimmed {d : Draft} (hd : d.Intact) (p : Char → Bool) (offset : Nat) :
    (((d.trimStart p).trimEnd p).locate? offset).map Int.ofNat =
      ((d.locate? offset).map Int.ofNat).bind (d.moveTrimmed p) := by
  have htext : (d.trimStart p).text.toList = d.text.toList.dropWhile p := by
    rw [toList_text, toList_text, Cell.text, Cell.text, List.dropWhile_map]
    rfl
  rw [locate?_trimEnd (intact_trimStart p hd), locate?_trimStart hd, htext]
  cases d.locate? offset with
  | none => rfl
  | some q =>
    simp only [Option.map_some, Option.bind_some, Int.ofNat_eq_natCast, moveTrimmed]
    split
    · rw [Cell.moveAround_inside (by omega) (by omega)]
      rfl
    · rw [Cell.moveAround_behind (by omega), Option.bind_some, Int.natCast_zero, Int.add_zero]
      split
      · rw [if_pos (by omega)]
      · rw [if_neg (by omega)]

theorem locate?_apply {d d' : Draft} {e : Edit} (hd : d.Intact) (hu : e.usable d.source = true)
    (h : e.apply d = .ok d') (offset : Nat) :
    (d'.locate? offset).map Int.ofNat =
      ((d.locate? offset).map Int.ofNat).bind (e.move d offset) := by
  cases e with
  | append text =>
    obtain rfl := Except.ok.inj h
    simp only [append, locate?, Cell.locate?_append, Cell.locate?_fresh]
    cases Cell.locate? offset d.cells <;> simp [Edit.move]
  | prepend text =>
    obtain rfl := Except.ok.inj h
    simp only [prepend, locate?, Cell.locate?_append, Cell.locate?_fresh]
    cases Cell.locate? offset d.cells <;> simp [Edit.move, Text.utf8ByteSize_eq]
    omega
  | insert at_ text => exact locate?_insert hd hu h offset
  | overwrite start stop text storeName => exact locate?_overwrite hd h offset
  | remove start stop =>
    rw [Edit.usable, Bool.and_eq_true] at hu
    exact locate?_remove hd hu.1 hu.2 h offset
  | keep start stop =>
    obtain ⟨d₁, h₁, h₂⟩ := snip_eq_ok h
    rw [Edit.usable, Bool.and_eq_true] at hu
    have hd₁ := intact_remove hd h₁
    have hzero : Text.usable 0 d.source.toList = true := by simp [Text.usable, Text.before?]
    have hlen : Text.usable d.length d.source.toList = true := by
      have := Text.before?_size_append d.source.toList []
      rw [List.append_nil] at this
      simp [Text.usable, length, this]
    have hsrc := source_remove h₁
    rw [locate?_remove hd₁ (hsrc ▸ hu.2) (hsrc ▸ hlen) h₂, locate?_remove hd hzero hu.1 h₁]
    cases d.locate? offset with
    | none => rfl
    | some p => simp [Edit.move, h₁]
  | indent unit ranges atStart =>
    obtain rfl := Except.ok.inj h
    simp only [indent, locate?, Cell.locate?_indent]
    cases Cell.locate? offset d.cells with
    | none => rfl
    | some p => simp [Edit.move, indentPlaces, Text.utf8ByteSize_eq]
  | trim =>
    obtain rfl := Except.ok.inj h
    exact locate?_trimmed hd Text.isBlank offset
  | trimLines =>
    obtain rfl := Except.ok.inj h
    exact locate?_trimmed hd Text.isBreak offset
  | anchor at_ =>
    obtain rfl := Except.ok.inj h
    cases hl : d.locate? offset <;> simp_all [Edit.move, anchor, locate?]
  | protect start stop =>
    obtain rfl := Except.ok.inj h
    cases hl : d.locate? offset <;> simp_all [Edit.move, protect, locate?]

theorem Intact.byte {d : Draft} (hd : d.Intact) {i p : Nat} (h : d.locate? i = some p) :
    p < d.text.utf8ByteSize ∧ d.text.toUTF8.data[p]? = d.source.toUTF8.data[i]? := by
  obtain ⟨a, c, z, o, hcells, -, ho, hle, hlt, rfl⟩ := Cell.exists_of_locate? h
  obtain ⟨x, y, hxy, hx⟩ := Cell.mem_settled (hd.mem_settled (c := c) (by simp [hcells]) (by simp [ho]))
  rw [ho, Nat.zero_add, Option.some.injEq] at hx
  have htext : d.text.toList = Cell.text a ++ c.char :: Cell.text z := by
    rw [toList_text, hcells]
    simp [Cell.text]
  refine ⟨by rw [Text.utf8ByteSize_eq, toList_text]; exact Cell.locate?_lt h, ?_⟩
  have hi : i = Text.size x + (i - o) := by omega
  rw [← Array.getElem?_toList, ← Array.getElem?_toList, Text.toList_data_toUTF8,
    Text.toList_data_toUTF8, htext, hxy, Text.getElem?_bytes _ _ _ (by omega)]
  conv => rhs; rw [hi, Text.getElem?_bytes _ _ _ (by omega)]

/-- Edits with offsets inside a character are covered as well; only the differences by which a further
edit moves bytes need its own offsets to lie between characters. These differences are integers, so no
place is ever cut off at zero. -/
theorem edited_bytes_in_place (source : String) (edits : List Edit) :
    let d := (ofText source).edit edits
    (∀ i p, d.locate? i = some p →
      p < d.text.utf8ByteSize ∧ d.text.toUTF8.data[p]? = source.toUTF8.data[i]?) ∧
    (∀ i j p q, i < j → d.locate? i = some p → d.locate? j = some q → p < q) ∧
    (∀ (e : Edit) (d' : Draft), e.usable source = true → e.apply d = .ok d' → ∀ i,
      (d'.locate? i).map Int.ofNat = ((d.locate? i).map Int.ofNat).bind (e.move d i)) := by
  have hd : ((ofText source).edit edits).Intact := intact_edit (intact_ofText source) edits
  have hs : ((ofText source).edit edits).source = source := source_edit (intact_ofText source) edits
  refine ⟨fun i p h => ?_, fun i j p q hij hi hj => ?_, fun e d' hu he i => ?_⟩
  · have := hd.byte h
    rwa [hs] at this
  · exact Cell.locate?_lt_locate? hd.pairwise hij hi hj
  · exact locate?_apply hd (hs.symm ▸ hu) he i

theorem edited_bytes_in_place_insert_indent :
    let d := (ofText "ab\ncd").edit [.insert 1 "xy", .indent "  " [] true, .insert 9 "z"]
    d.locate? 4 = some 10 ∧ 10 < d.text.utf8ByteSize ∧
      d.text.toUTF8.data[10]? = "ab\ncd".toUTF8.data[4]? ∧
      ((d.remove 1 3).toOption.bind (·.locate? 4)).map Int.ofNat =
        (Edit.remove 1 3).move d 4 10 := by
  have h : ((ofText "ab\ncd").edit
      [.insert 1 "xy", .indent "  " [] true, .insert 9 "z"]).locate? 4 = some 10 := by decide +kernel
  obtain ⟨hlt, hbyte⟩ := (edited_bytes_in_place "ab\ncd"
    [.insert 1 "xy", .indent "  " [] true, .insert 9 "z"]).1 4 10 h
  refine ⟨h, hlt, hbyte, ?_⟩
  have hok : (((ofText "ab\ncd").edit
      [.insert 1 "xy", .indent "  " [] true, .insert 9 "z"]).remove 1 3).isOk = true := by
    decide +kernel
  cases hr : ((ofText "ab\ncd").edit
      [.insert 1 "xy", .indent "  " [] true, .insert 9 "z"]).remove 1 3 with
  | error e => simp [hr, Except.isOk, Except.toBool] at hok
  | ok d' =>
    have := (edited_bytes_in_place "ab\ncd" [.insert 1 "xy", .indent "  " [] true, .insert 9 "z"]).2.2
      (.remove 1 3) d' (by decide +kernel) hr 4
    rw [h] at this
    exact this

end Draft

end Treeshake
