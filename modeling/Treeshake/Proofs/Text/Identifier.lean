import Mathlib
import Treeshake.Text.Identifier
/-!
Names that may be bound. Main statements: a name made of any text is legal, and a legal name stays legal with a number
behind it, whatever other characters a language lets names have; and the names made of texts are just those that are
made of themselves.
-/
set_option autoImplicit false

namespace Treeshake.Identifier

/-- The names of a language: the characters that start one and those that go on, among them the ones of generated
names, and the words that are none. -/
structure Naming where
  starts : Char → Bool
  goesOn : Char → Bool
  reserved : List String
  goesOn_of_legal : ∀ c, isLegalChar c = true → goesOn c = true
  starts_of_legal : ∀ c, isLegalChar c = true → c.isDigit = false → starts c = true
  not_digit_of_starts : ∀ c, starts c = true → c.isDigit = false
  known : ∀ word ∈ reserved, isReserved word = true

def Naming.spells (N : Naming) : List Char → Bool
  | [] => false
  | c :: cs => N.starts c && cs.all N.goesOn

/-- A name that may be bound: not empty, spelled by the characters of names, and not reserved. -/
def Naming.Legal (N : Naming) (name : String) : Prop := N.spells name.toList = true ∧ name ∉ N.reserved

instance (N : Naming) (name : String) : Decidable (N.Legal name) :=
  inferInstanceAs (Decidable (N.spells name.toList = true ∧ name ∉ N.reserved))

def ascii : Naming where
  starts c := isLegalChar c && !c.isDigit
  goesOn := isLegalChar
  reserved := keywords ++ builtins
  goesOn_of_legal _ h := h
  starts_of_legal c h hd := by rw [h, hd]; rfl
  not_digit_of_starts c h := by simpa using (Bool.and_eq_true_iff.mp h).2
  known word h := by
    rw [isReserved, Bool.or_eq_true, List.contains_iff_mem, List.contains_iff_mem]
    exact List.mem_append.mp h

theorem mem_words {word : String} (h : isReserved word = true) : word ∈ keywords ++ builtins := by
  rw [isReserved, Bool.or_eq_true, List.contains_iff_mem, List.contains_iff_mem] at h
  exact List.mem_append.mpr h

theorem not_mem_dollar {word : String} (h : isReserved word = true) : '$' ∉ word.toList := by
  have hall : ∀ word ∈ keywords ++ builtins, '$' ∉ word.toList := by decide +kernel
  exact hall word (mem_words h)

theorem head_ne_underscore {word : String} (h : isReserved word = true) : word.toList.head? ≠ some '_' := by
  have hall : ∀ word ∈ keywords ++ builtins, word.toList.head? ≠ some '_' := by decide +kernel
  exact hall word (mem_words h)

theorem isLegalChar_toUpper {c : Char} (h : isWordChar c = true) : isLegalChar c.toUpper = true := by
  have hletter : ∀ c : Char, c.isAlpha = true → isLegalChar c = true := fun c hc => by
    simp [isLegalChar, isWordChar, Char.isAlphanum, hc]
  by_cases halpha : c.isAlpha = true
  · exact hletter _ (Char.isAlpha_toUpper_eq_isAlpha c ▸ halpha)
  · have hlower : ¬c.isLower = true := fun hlower => halpha (by simp [Char.isAlpha, hlower])
    rw [Char.toUpper_eq_of_not_isLower hlower, isLegalChar, h]
    rfl

theorem mend_isLegalChar (cs : List Char) : ∀ c ∈ mend cs, isLegalChar c = true := by
  have hmended : ∀ c : Char, isLegalChar (if isLegalChar c then c else '_') = true := by
    intro c
    split
    · assumption
    · decide
  fun_induction mend cs with
  | case1 => exact List.forall_mem_nil _
  | case2 c => exact List.forall_mem_singleton.mpr (hmended c)
  | case3 c d cs hc ih =>
    exact List.forall_mem_cons.mpr ⟨isLegalChar_toUpper (Bool.and_eq_true_iff.mp hc).2, ih⟩
  | case4 c d cs hc ih => exact List.forall_mem_cons.mpr ⟨hmended c, ih⟩

variable {N : Naming} {name : String}

theorem Naming.spells_cons {c : Char} {cs : List Char} :
    N.spells (c :: cs) = true ↔ N.starts c = true ∧ ∀ d ∈ cs, N.goesOn d = true := by
  rw [Naming.spells, Bool.and_eq_true, List.all_eq_true]

theorem legal_ofText (N : Naming) (text : String) : N.Legal (ofText text) := by
  have hall := mend_isLegalChar text.toList
  have hgoesOn := fun c hc => N.goesOn_of_legal c (hall c hc)
  simp only [Naming.Legal, ofText, String.toList_ofList]
  by_cases hguard : needsGuard (mend text.toList) = true
  · rw [if_pos hguard]
    refine ⟨Naming.spells_cons.mpr ⟨N.starts_of_legal '_' (by decide) (by decide), hgoesOn⟩, fun hmem => ?_⟩
    exact head_ne_underscore (N.known _ hmem) (by rw [String.toList_ofList]; rfl)
  · rw [if_neg hguard]
    simp only [needsGuard, Bool.or_eq_true, not_or, Bool.not_eq_true] at hguard
    obtain ⟨⟨hempty, hdigit⟩, hreserved⟩ := hguard
    obtain ⟨c, cs, hmend⟩ := List.exists_cons_of_ne_nil (List.isEmpty_eq_false_iff.mp hempty)
    rw [hmend] at hall hgoesOn hdigit hreserved ⊢
    refine ⟨Naming.spells_cons.mpr ⟨N.starts_of_legal c (hall c List.mem_cons_self) hdigit,
      fun d hd => hgoesOn d (List.mem_cons_of_mem c hd)⟩, fun hmem => ?_⟩
    rw [N.known _ hmem] at hreserved
    cases hreserved

theorem Naming.Legal.numbered (h : N.Legal name) (n : Nat) : N.Legal (name ++ "$" ++ toString n) := by
  obtain ⟨hspelled, -⟩ := h
  have hdigits : (toString n).toList = Nat.toDigits 10 n := String.toList_ofList
  have htext : (name ++ "$" ++ toString n).toList = name.toList ++ '$' :: Nat.toDigits 10 n := by
    rw [String.toList_append, String.toList_append, hdigits]
    simp
  refine ⟨?_, fun hmem => not_mem_dollar (N.known _ hmem) (by rw [htext]; simp)⟩
  rw [htext]
  cases hname : name.toList with
  | nil =>
    rw [hname] at hspelled
    cases hspelled
  | cons c cs =>
    rw [hname] at hspelled
    obtain ⟨hstarts, hgoesOn⟩ := Naming.spells_cons.mp hspelled
    refine Naming.spells_cons.mpr ⟨hstarts, fun d hd => ?_⟩
    rcases List.mem_append.mp hd with hd | hd
    · exact hgoesOn d hd
    · rcases List.mem_cons.mp hd with rfl | hd
      · exact N.goesOn_of_legal '$' (by decide)
      · have hdigit := Nat.isDigit_of_mem_toDigits (by omega) (by omega) hd
        exact N.goesOn_of_legal d (by simp [isLegalChar, isWordChar, Char.isAlphanum, hdigit])

/-- A name that needs no mending: something, of letters, digits, dollars and underscores, not led by a digit and not
reserved. -/
structure Usable (name : String) : Prop where
  ne_empty : name ≠ ""
  spelled : ∀ c ∈ name.toList, c.isAlphanum = true ∨ c = '$' ∨ c = '_'
  led : ∀ c ∈ name.toList.head?, c.isDigit = false
  free : isReserved name = false

theorem isLegalChar_iff {c : Char} : isLegalChar c = true ↔ c.isAlphanum = true ∨ c = '$' ∨ c = '_' := by
  rw [isLegalChar, isWordChar, Bool.or_eq_true, Bool.or_eq_true, beq_iff_eq, beq_iff_eq, or_assoc]
  exact or_congr_right or_comm

theorem usable_of_legal (h : ascii.Legal name) : Usable name := by
  obtain ⟨hspelled, hreserved⟩ := h
  cases hname : name.toList with
  | nil =>
    rw [hname] at hspelled
    cases hspelled
  | cons c cs =>
    rw [hname] at hspelled
    obtain ⟨hstarts, hgoesOn⟩ := Naming.spells_cons.mp hspelled
    obtain ⟨hc, hdigit⟩ := Bool.and_eq_true_iff.mp hstarts
    refine ⟨fun hempty => ?_, ?_, fun d hd => ?_, Bool.eq_false_iff.mpr fun h => hreserved (mem_words h)⟩
    · rw [hempty] at hname
      cases hname
    · rw [hname]
      exact List.forall_mem_cons.mpr ⟨isLegalChar_iff.mp hc, fun d hd => isLegalChar_iff.mp (hgoesOn d hd)⟩
    · rw [hname] at hd
      obtain rfl := Option.some.inj hd
      simpa using hdigit

theorem Usable.ofText_eq (h : Usable name) : ofText name = name := by
  have hmend : mend name.toList = name.toList :=
    mend_legal name.toList (List.all_eq_true.mpr fun c hc => isLegalChar_iff.mpr (h.spelled c hc))
  have hguard : needsGuard name.toList = false := by
    have hempty : name.toList.isEmpty = false := by simpa using h.ne_empty
    have hdigit : name.toList.head?.any Char.isDigit = false := by
      rw [Option.any_eq_false]
      exact h.led
    rw [needsGuard, hempty, hdigit, String.ofList_toList, h.free]
    rfl
  rw [ofText, hmend, hguard, if_neg Bool.false_ne_true, String.ofList_toList]

/-- The name made of a text needs no mending, and the texts that need none are those that are their own names. So a name
made of a name is that name. -/
theorem ofText_eq_self_iff_usable :
    (∀ text, Usable (ofText text)) ∧ (∀ name, ofText name = name ↔ Usable name) ∧
      ∀ text, ofText (ofText text) = ofText text := by
  have husable : ∀ text, Usable (ofText text) := fun text => usable_of_legal (legal_ofText ascii text)
  exact ⟨husable, fun name => ⟨fun h => h ▸ husable name, Usable.ofText_eq⟩, fun text => (husable text).ofText_eq⟩

end Treeshake.Identifier
