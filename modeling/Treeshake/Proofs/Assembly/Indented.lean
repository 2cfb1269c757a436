import Mathlib.Data.List.Induction
import Mathlib.Logic.Basic
import Treeshake.Proofs.Assembly.Changes
import Treeshake.Proofs.Draft.Places
/-!
The indentation of an assembly as a whole. Main statement: parts that are indented one by one read as the whole text
with a unit in front of each of its lines, but of those that a part goes on with from a protected range.
-/
set_option autoImplicit false

namespace Treeshake

/-- A place of a draft that is in a protected range, both ends of which are still there. -/
def Draft.Shielded (d : Draft) (place : Nat) : Prop :=
  ∃ r ∈ d.protectedRanges, r.1 < r.2 ∧
    ∃ first ∈ d.locate? r.1, ∃ last ∈ d.locate? (r.2 - 1), first ≤ place ∧ place ≤ last

instance (d : Draft) : DecidablePred d.Shielded := fun place =>
  inferInstanceAs (Decidable (∃ r ∈ d.protectedRanges, r.1 < r.2 ∧
    ∃ first ∈ d.locate? r.1, ∃ last ∈ d.locate? (r.2 - 1), first ≤ place ∧ place ≤ last))

theorem Draft.any_places_iff {d : Draft} {place : Nat} :
    ((d.places d.protectedRanges).any fun s => s.1 ≤ place && place ≤ s.2) = true ↔ d.Shielded place := by
  simp only [places, Shielded, List.any_eq_true, List.mem_filterMap, List.mem_filter, Bool.and_eq_true,
    decide_eq_true_eq]
  constructor
  · rintro ⟨s, ⟨r, ⟨hr, hlt⟩, hs⟩, hle⟩
    obtain ⟨first, hfirst, hs⟩ := Option.bind_eq_some_iff.mp hs
    obtain ⟨last, hlast, hs⟩ := Option.bind_eq_some_iff.mp hs
    obtain rfl := Option.some.inj hs
    exact ⟨r, hr, hlt, first, hfirst, last, hlast, hle⟩
  · rintro ⟨r, hr, hlt, first, hfirst, last, hlast, hle⟩
    refine ⟨(first, last), ⟨r, ⟨hr, hlt⟩, ?_⟩, hle⟩
    rw [Option.mem_def] at hfirst hlast
    rw [hfirst, hlast]
    rfl

namespace Assembly

/-- A character of a text that is put together, with the number of the part that it is of and its place there, if it is
of one. -/
structure Letter where
  char : Char
  home : Option (Nat × Nat) := none
  deriving DecidableEq, Repr

def bareLetters (cs : List Char) : List Letter := cs.map ({ char := · })

def lettersOf (k : Nat) : Nat → List Char → List Letter
  | _, [] => []
  | place, c :: cs => ⟨c, some (k, place)⟩ :: lettersOf k (place + c.utf8Size) cs

def partLetters (separator : String) : Nat → List Part → List Letter
  | _, [] => []
  | k, p :: ps =>
    bareLetters (if k = 0 then "" else p.separator.getD separator).toList ++ lettersOf k 0 p.draft.text.toList ++
      partLetters separator (k + 1) ps

def letters (a : Assembly) : List Letter :=
  bareLetters a.opening.toList ++ partLetters a.separator 0 a.parts ++ bareLetters a.closing.toList

/-- A part goes on from one letter to another, and the first is in a protected range. -/
def Continues (a : Assembly) (b c : Letter) : Prop :=
  match b.home, c.home with
  | some (k, place), some (k', _) => k = k' ∧ ∃ p ∈ a.parts[k]?, p.draft.Shielded place
  | _, _ => False

instance (a : Assembly) (b c : Letter) : Decidable (a.Continues b c) := by
  unfold Continues
  split <;> infer_instance

/-- A letter is the first of a line that is not empty, and that nothing continues. -/
def Starts (a : Assembly) (previous : Option Letter) (c : Letter) : Prop :=
  c.char ≠ '\n' ∧ ∀ b ∈ previous, b.char = '\n' ∧ ¬a.Continues b c

instance (a : Assembly) (previous : Option Letter) (c : Letter) : Decidable (a.Starts previous c) :=
  inferInstanceAs (Decidable (_ ∧ _))

def indentedFrom (a : Assembly) (unit : List Char) (previous : Option Letter) (cs : List Letter) : List Char :=
  ((previous :: cs.map some).zip cs).flatMap fun x => (if a.Starts x.1 x.2 then unit else []) ++ [x.2.char]

/-- The whole text of an assembly, indented. -/
def indentedWhole (a : Assembly) (unit : String) : String :=
  String.ofList (a.indentedFrom unit.toList none a.letters)

def opens (previous : Option Letter) : Bool := previous.all (·.char == '\n')

variable {a : Assembly} {unit : List Char} {previous : Option Letter}

@[simp] theorem map_char_bareLetters (cs : List Char) : (bareLetters cs).map (·.char) = cs := by
  simp [bareLetters, Function.comp_def]

@[simp] theorem map_char_lettersOf (k place : Nat) (cs : List Char) : (lettersOf k place cs).map (·.char) = cs := by
  induction cs generalizing place with
  | nil => rfl
  | cons c cs ih => exact congrArg (c :: ·) (ih _)

theorem map_char_letters (a : Assembly) : a.letters.map (·.char) = a.text.toList := by
  have hparts : ∀ (k : Nat) (ps : List Part), (partLetters a.separator k ps).map (·.char) =
      (String.join (partTexts a.separator (k == 0) ps)).toList := by
    intro k ps
    induction ps generalizing k with
    | nil => simp [partLetters, partTexts]
    | cons p ps ih => simp [partLetters, partTexts, ih]
  simp [letters, text, hparts]

@[simp] theorem indentedFrom_nil : a.indentedFrom unit previous [] = [] := rfl

theorem indentedFrom_cons (c : Letter) (cs : List Letter) : a.indentedFrom unit previous (c :: cs) =
    (if a.Starts previous c then unit else []) ++ c.char :: a.indentedFrom unit (some c) cs := by
  rw [indentedFrom, List.map_cons, List.zip_cons_cons, List.flatMap_cons, List.append_assoc, List.singleton_append]
  rfl

theorem indentedFrom_append (xs ys : List Letter) : a.indentedFrom unit previous (xs ++ ys) =
    a.indentedFrom unit previous xs ++ a.indentedFrom unit (xs.getLast?.or previous) ys := by
  induction xs generalizing previous with
  | nil => rfl
  | cons x xs ih =>
    have hlast : (x :: xs).getLast?.or previous = xs.getLast?.or (some x) := by
      rw [List.getLast?_cons]
      cases xs.getLast? <;> rfl
    rw [List.cons_append, indentedFrom_cons, indentedFrom_cons, ih, hlast, List.append_assoc, List.cons_append]

theorem getLast?_indentedFrom (xs : List Letter) :
    (a.indentedFrom unit previous xs).getLast? = (xs.map (·.char)).getLast? := by
  induction xs using List.reverseRecOn with
  | nil => rfl
  | append_singleton xs x _ =>
    rw [indentedFrom_append, indentedFrom_cons, indentedFrom_nil, List.map_append, List.map_singleton,
      List.getLast?_concat, ← List.append_assoc, List.getLast?_concat]

theorem starts_iff {c : Letter} (h : ∀ b ∈ previous, ¬a.Continues b c) :
    a.Starts previous c ↔ opens previous = true ∧ c.char ≠ '\n' := by
  rw [Starts, and_comm, opens, Option.all_eq_true]
  refine and_congr_left fun _ => forall₂_congr fun b hb => ?_
  rw [beq_iff_eq]
  exact and_iff_left (h b hb)

theorem not_continues_bare (b : Letter) (c : Char) : ¬a.Continues b { char := c } := by
  unfold Continues
  split <;> simp_all

theorem indentedFrom_bareLetters (cs : List Char) : a.indentedFrom unit previous (bareLetters cs) =
    Text.indentLines unit (opens previous) cs := by
  induction cs generalizing previous with
  | nil => rfl
  | cons c cs ih =>
    have hrest : a.indentedFrom unit (some { char := c }) (bareLetters cs) = Text.indentLines unit (c == '\n') cs := ih
    have hcons : bareLetters (c :: cs) = { char := c } :: bareLetters cs := rfl
    rw [hcons, indentedFrom_cons, Text.indentLines, hrest]
    refine congrArg (· ++ _) (if_congr ?_ rfl rfl)
    rw [starts_iff fun b _ => not_continues_bare b c, Bool.and_eq_true, bne_iff_ne]

theorem indentLines_of_breaks {cs : List Char} (h : ∀ c ∈ cs, c = '\n') (atStart : Bool) :
    Text.indentLines unit atStart cs = cs := by
  induction cs generalizing atStart with
  | nil => rfl
  | cons c cs ih =>
    obtain ⟨rfl, hcs⟩ := List.forall_mem_cons.mp h
    rw [Text.indentLines, ih hcs, bne_self_eq_false, Bool.and_false]
    rfl

theorem text_indent_cells {k place : Nat} {p : Part} {cells : List Cell} {isProtected : Nat → Bool} {due : Bool}
    (hp : a.parts[k]? = some p) (hprotected : ∀ place, isProtected place = true ↔ p.draft.Shielded place)
    (hdue : ∀ c, c ≠ '\n' → (due = true ↔ a.Starts previous ⟨c, some (k, place)⟩)) (hreturn : '\r' ∉ Cell.text cells) :
    Cell.text (Cell.indent (Cell.fresh unit) isProtected due place cells) =
      a.indentedFrom unit previous (lettersOf k place (Cell.text cells)) := by
  induction cells generalizing due place previous with
  | nil => rfl
  | cons c cells ih =>
    have htext : Cell.text (c :: cells) = c.char :: Cell.text cells := rfl
    rw [htext, List.mem_cons, not_or] at hreturn
    have hbreak : Text.isBreak c.char = (c.char == '\n') := by
      rw [Text.isBreak, beq_eq_false_iff_ne.mpr (Ne.symm hreturn.1), Bool.or_false]
    have hnext : ∀ d, d ≠ '\n' → ((Text.isBreak c.char && !isProtected place) = true ↔
        a.Starts (some ⟨c.char, some (k, place)⟩) ⟨d, some (k, place + c.char.utf8Size)⟩) := by
      intro d hd
      have hcontinues : a.Continues ⟨c.char, some (k, place)⟩ ⟨d, some (k, place + c.char.utf8Size)⟩ ↔
          p.draft.Shielded place := by
        simp [Continues, hp]
      simp only [Starts, hcontinues, Option.mem_some_iff, forall_eq', hbreak, Bool.and_eq_true, beq_iff_eq,
        Bool.not_eq_true', ← Bool.not_eq_true, hprotected, ne_eq, hd, not_false_eq_true, true_and]
    have hhere : (due && !Text.isBreak c.char) = true ↔ a.Starts previous ⟨c.char, some (k, place)⟩ := by
      rw [hbreak, Bool.and_eq_true, Bool.not_eq_true', beq_eq_false_iff_ne]
      constructor
      · rintro ⟨h, hne⟩
        exact (hdue _ hne).mp h
      · intro h
        exact ⟨(hdue _ h.1).mpr h, h.1⟩
    rw [Cell.indent, htext, lettersOf, indentedFrom_cons, ← ih hnext hreturn.2]
    by_cases hstarts : a.Starts previous ⟨c.char, some (k, place)⟩
    · rw [if_pos hstarts, if_pos (hhere.mpr hstarts)]
      simp [Cell.text, Cell.fresh, Function.comp_def]
    · rw [if_neg hstarts, if_neg (mt hhere.mp hstarts)]
      rfl

/-- Separators are line breaks only, or empty. -/
structure Separated (a : Assembly) : Prop where
  all : ∀ c ∈ a.separator.toList, c = '\n'
  own : ∀ p ∈ a.parts, ∀ s ∈ p.separator, ∀ c ∈ s.toList, c = '\n'

-- Decided on the characters of each separator, since characters are finitely many and all of them could be tried.
instance (a : Assembly) : Decidable a.Separated :=
  decidable_of_iff ((a.separator.toList.all fun c => c = '\n') = true ∧
      ∀ p ∈ a.parts, ∀ s ∈ p.separator, (s.toList.all fun c => c = '\n') = true) <| by
    simp only [List.all_eq_true, decide_eq_true_eq]
    exact ⟨fun h => ⟨h.1, h.2⟩, fun h => ⟨h.all, h.own⟩⟩

theorem Separated.breaks (h : a.Separated) {p : Part} (hp : p ∈ a.parts) (k : Nat) :
    ∀ c ∈ (if k = 0 then "" else p.separator.getD a.separator).toList, c = '\n' := by
  split
  · exact List.forall_mem_nil _
  · cases hs : p.separator with
    | none => exact h.all
    | some s => exact h.own p hp s hs

theorem opens_bareLetters {cs : List Char} (h : ∀ c ∈ cs, c = '\n') :
    opens ((bareLetters cs).getLast?.or previous) = (opens previous || cs.getLast? == some '\n') := by
  cases hlast : cs.getLast? with
  | none =>
    obtain rfl := List.getLast?_eq_none_iff.mp hlast
    exact (Bool.or_false _).symm
  | some c =>
    rw [bareLetters, List.getLast?_map, hlast, h c (List.mem_of_getLast? hlast)]
    exact (Bool.or_true _).symm

theorem exists_getLast? {s : String} (h : s ≠ "") : ∃ c, s.toList.getLast? = some c :=
  Option.ne_none_iff_exists'.mp fun hnone => h (String.toList_eq_nil_iff.mp (List.getLast?_eq_none_iff.mp hnone))

theorem getLast?_lettersOf (k place : Nat) {cs : List Char} {c : Char} (h : cs.getLast? = some c) :
    ∃ place', (lettersOf k place cs).getLast? = some ⟨c, some (k, place')⟩ := by
  induction cs generalizing place with
  | nil => cases h
  | cons d cs ih =>
    cases cs with
    | nil =>
      cases h
      exact ⟨place, rfl⟩
    | cons e cs =>
      rw [List.getLast?_cons_cons] at h
      rw [lettersOf, lettersOf, List.getLast?_cons_cons]
      exact ih _ h

def Earlier (k : Nat) (previous : Option Letter) : Prop := ∀ b ∈ previous, ∀ home ∈ b.home, home.1 < k

theorem earlier_none (k : Nat) : Earlier k none := fun _ hb => nomatch hb

theorem earlier_of_part (k place : Nat) (c : Char) : Earlier (k + 1) (some ⟨c, some (k, place)⟩) := by
  intro b hb home hhome
  cases hb
  cases hhome
  exact Nat.lt_succ_self k

theorem Earlier.bareLetters {k : Nat} (h : Earlier k previous) (cs : List Char) :
    Earlier k ((bareLetters cs).getLast?.or previous) := by
  intro b hb home hhome
  rcases Option.or_eq_some_iff.mp hb with hb | ⟨-, hb⟩
  · obtain ⟨c, -, rfl⟩ := List.mem_map.mp (List.mem_of_getLast? hb)
    cases hhome
  · exact h b hb home hhome

theorem Earlier.not_continues {k place : Nat} (h : Earlier k previous) (c : Char) :
    ∀ b ∈ previous, ¬a.Continues b ⟨c, some (k, place)⟩ := by
  intro b hb hcontinues
  unfold Continues at hcontinues
  split at hcontinues
  · next k' place' _ _ hhome heq =>
    obtain ⟨rfl, -⟩ := Prod.mk.inj (Option.some.inj heq)
    have hlt : k' < k := h b hb (k', place') hhome
    exact Nat.ne_of_lt hlt hcontinues.1
  · exact hcontinues

/-- A part that is indented reads as its letters indented, whatever is in front of it. -/
theorem toList_text_indent (unit : String) {k : Nat} {p : Part} (hp : a.parts[k]? = some p)
    (hpast : Earlier k previous) (hreturn : '\r' ∉ p.draft.text.toList) :
    (p.draft.indent unit p.draft.protectedRanges (opens previous)).text.toList =
      a.indentedFrom unit.toList previous (lettersOf k 0 p.draft.text.toList) := by
  rw [Draft.toList_text] at hreturn ⊢
  rw [Draft.toList_text]
  refine text_indent_cells hp (fun _ => Draft.any_places_iff) (fun c hc => ?_) hreturn
  rw [starts_iff (hpast.not_continues c)]
  exact (and_iff_left hc).symm

theorem exists_last_letter (unit : String) {k : Nat} {p : Part} (hp : a.parts[k]? = some p)
    (hpast : Earlier k previous) (hreturn : '\r' ∉ p.draft.text.toList) (hfull : p.draft.text ≠ "") :
    ∃ b, (lettersOf k 0 p.draft.text.toList).getLast? = some b ∧ Earlier (k + 1) (some b) ∧
      endsLine (p.draft.indent unit p.draft.protectedRanges (opens previous)).text = opens (some b) := by
  obtain ⟨c, hc⟩ := exists_getLast? hfull
  obtain ⟨place, hlast⟩ := getLast?_lettersOf k 0 hc
  refine ⟨_, hlast, earlier_of_part k place c, ?_⟩
  rw [endsLine, toList_text_indent unit hp hpast hreturn, getLast?_indentedFrom, map_char_lettersOf, hc]
  rfl

/-- Parts that are indented one by one read as all that follows a letter in front of them, indented as a whole. What is
carried from part to part is only whether a line starts there; the letter in front is carried in the proof. -/
theorem toList_join_indentParts (unit : String) (done : List Part) {ps : List Part} (first : Bool)
    (previous : Option Letter) (hparts : a.parts = done ++ ps)
    (hfirst : first = true ↔ done.length = 0) (hpast : Earlier done.length previous) (hseparated : a.Separated)
    (hfull : ∀ p ∈ ps, p.draft.text ≠ "") (hreturn : ∀ p ∈ ps, '\r' ∉ p.draft.text.toList) :
    (String.join (partTexts a.separator first (indentParts a.separator unit first (opens previous) ps))).toList =
      a.indentedFrom unit.toList previous (partLetters a.separator done.length ps) := by
  induction ps generalizing done first previous with
  | nil => rfl
  | cons p ps ih =>
    obtain ⟨hnonempty, hfull⟩ := List.forall_mem_cons.mp hfull
    obtain ⟨hplain, hreturn⟩ := List.forall_mem_cons.mp hreturn
    have hp : a.parts[done.length]? = some p := by
      rw [hparts, List.getElem?_append_right (Nat.le_refl _), Nat.sub_self]
      rfl
    have hseparator : (if first = true then "" else p.separator.getD a.separator) =
        if done.length = 0 then "" else p.separator.getD a.separator := if_congr hfirst rfl rfl
    have hbreaks := hseparated.breaks (List.mem_of_getElem? hp) done.length
    rw [indentParts, partTexts, partLetters]
    dsimp only
    have hstart : (opens previous || !first && endsLine (p.separator.getD a.separator)) =
        opens ((bareLetters (if done.length = 0 then "" else p.separator.getD a.separator).toList).getLast?.or
          previous) := by
      rw [opens_bareLetters hbreaks, ← hseparator]
      cases first <;> rfl
    rw [hstart, hseparator]
    generalize (if done.length = 0 then "" else p.separator.getD a.separator) = separator at hbreaks ⊢
    have hbare := hpast.bareLetters separator.toList
    generalize hbefore : (bareLetters separator.toList).getLast?.or previous = before at hbare ⊢
    have hdraft := toList_text_indent unit hp hbare hplain
    obtain ⟨b, hlast, hearlier, hends⟩ := exists_last_letter unit hp hbare hplain hnonempty
    have hbehind := ih (done ++ [p]) false (some b) (by rw [hparts, List.append_assoc, List.singleton_append]) (by simp)
      (by simpa using hearlier) hfull hreturn
    rw [List.length_append, List.length_singleton] at hbehind
    calc (String.join (separator :: (p.draft.indent unit p.draft.protectedRanges (opens before)).text :: _)).toList
        = separator.toList ++ (a.indentedFrom unit.toList before (lettersOf done.length 0 p.draft.text.toList) ++
            a.indentedFrom unit.toList (some b) (partLetters a.separator (done.length + 1) ps)) := by
          rw [String.join_cons, String.join_cons, String.toList_append, String.toList_append, hdraft, hends, hbehind]
      _ = _ := by
          rw [List.append_assoc, indentedFrom_append, hbefore, indentedFrom_append, hlast, Option.some_or,
            indentedFrom_bareLetters, indentLines_of_breaks hbreaks]

theorem mem_text_of_part {p : Part} (hp : p ∈ a.parts) {c : Char} (hc : c ∈ p.draft.text.toList) :
    c ∈ a.text.toList := by
  have hparts : ∀ (first : Bool) (ps : List Part), p ∈ ps →
      c ∈ (String.join (partTexts a.separator first ps)).toList := by
    intro first ps hp
    induction ps generalizing first with
    | nil => cases hp
    | cons q ps ih =>
      rw [partTexts, String.join_cons, String.join_cons, String.toList_append, String.toList_append]
      rcases List.mem_cons.mp hp with rfl | hp
      · exact List.mem_append_right _ (List.mem_append_left _ hc)
      · exact List.mem_append_right _ (List.mem_append_right _ (ih false hp))
  rw [text, String.toList_append, String.toList_append]
  exact List.mem_append_left _ (List.mem_append_right _ (hparts true a.parts hp))

theorem toList_opening_indent {unit : String} (h : a.opening.toList.head? ≠ some '\n') :
    (a.indent unit).opening.toList = a.indentedFrom unit.toList none (bareLetters a.opening.toList) := by
  rw [indentedFrom_bareLetters, indent]
  dsimp only
  cases hopening : a.opening.toList with
  | nil =>
    rw [String.toList_eq_nil_iff.mp hopening]
    rfl
  | cons c cs =>
    rw [hopening, List.head?_cons, ne_eq, Option.some.injEq] at h
    have hempty : a.opening.isEmpty = false := Bool.eq_false_iff.mpr fun hnone => by
      rw [String.isEmpty_iff.mp hnone] at hopening
      cases hopening
    rw [hempty, if_neg Bool.false_ne_true, String.toList_append, String.toList_ofList, Text.indentLines,
      Text.indentLines, Bool.false_and, if_neg Bool.false_ne_true, bne_iff_ne.mpr h]
    rfl

theorem opens_opening (a : Assembly) :
    (a.opening.isEmpty || endsLine a.opening) = opens ((bareLetters a.opening.toList).getLast?.or none) := by
  by_cases hempty : a.opening = ""
  · rw [hempty]
    rfl
  · obtain ⟨c, hc⟩ := exists_getLast? hempty
    rw [Bool.eq_false_iff.mpr (mt String.isEmpty_iff.mp hempty), endsLine, bareLetters, List.getLast?_map, hc]
    rfl

theorem closing_trimStart (h : a.closing = "") : a.trimStart.closing = "" := by
  unfold trimStart
  dsimp only
  split
  · exact h
  · rw [h]
    exact ite_self _

theorem closing_trimEnd (h : a.closing = "") : a.trimEnd.closing = "" := by
  unfold trimEnd
  dsimp only
  rw [h]
  split
  · rfl
  · rfl

theorem closing_trim (h : a.closing = "") : a.trim.closing = "" := closing_trimEnd (closing_trimStart h)

theorem closing_indent (h : a.closing = "") (unit : String) : (a.indent unit).closing = "" := by
  rw [indent, h]
  rfl

theorem closing_add {b : Assembly} {d : Draft} {filename : Option String} (ha : a.closing = "")
    (h : a.add d filename = .ok b) : b.closing = "" := by
  unfold add at h
  split at h
  · exact Except.ok.inj h ▸ ha
  · split at h
    · exact Except.ok.inj h ▸ ha
    · split at h
      · exact Except.ok.inj h ▸ ha
      · cases h

theorem text_indent {unit : String} (hclosing : a.closing = "") (hopening : a.opening.toList.head? ≠ some '\n')
    (hseparated : a.Separated) (hfull : ∀ p ∈ a.parts, p.draft.text ≠ "") (hreturn : '\r' ∉ a.text.toList) :
    (a.indent unit).text = a.indentedWhole unit := by
  have hparts := toList_join_indentParts unit [] true ((bareLetters a.opening.toList).getLast?.or none) rfl (by simp)
    ((earlier_none 0).bareLetters _) hseparated hfull fun p hp hr => hreturn (mem_text_of_part hp hr)
  rw [← opens_opening] at hparts
  have hend := closing_indent hclosing unit
  refine String.toList_inj.mp ?_
  rw [indentedWhole, String.toList_ofList, letters, hclosing, text, hend, String.toList_append, String.toList_append,
    toList_opening_indent hopening]
  change _ ++ (String.join (partTexts a.separator true (indentParts a.separator unit true _ a.parts))).toList ++ [] = _
  have hnone : bareLetters "".toList = [] := rfl
  rw [hparts, List.append_nil, hnone, List.append_nil, indentedFrom_append]
  rfl

theorem closing_apply {b : Assembly} {c : Change} (ha : a.closing = "") (h : c.apply a = .ok b) : b.closing = "" := by
  cases c with
  | add source edits filename => exact closing_add ha h
  | append | prepend => exact Except.ok.inj h ▸ ha
  | indent unit => exact Except.ok.inj h ▸ closing_indent ha unit
  | trim => exact Except.ok.inj h ▸ closing_trim ha
  | trimStart => exact Except.ok.inj h ▸ closing_trimStart ha
  | trimEnd => exact Except.ok.inj h ▸ closing_trimEnd ha

theorem closing_change (ha : a.closing = "") (cs : List Change) : (a.change cs).closing = "" := by
  induction cs generalizing a with
  | nil => exact ha
  | cons c cs ih =>
    cases h : c.apply a with
    | error e => simpa [change, h, Except.toOption] using ih ha
    | ok b => simpa [change, h, Except.toOption] using ih (closing_apply ha h)

/-- The text of an assembly, indented, is the text before with a unit in front of every line that is not empty, but of a
line that a part goes on with from a protected range. -/
theorem indent_reads_as_whole (separator unit : String) (changes : List Change)
    (hopening : (change { separator } changes).opening.toList.head? ≠ some '\n')
    (hseparated : (change { separator } changes).Separated)
    (hfull : ∀ p ∈ (change { separator } changes).parts, p.draft.text ≠ "")
    (hreturn : '\r' ∉ (change { separator } changes).text.toList) :
    let a := change { separator } changes
    a.letters.map (·.char) = a.text.toList ∧ (a.indent unit).text = a.indentedWhole unit :=
  ⟨map_char_letters _, text_indent (closing_change rfl changes) hopening hseparated hfull hreturn⟩

theorem indent_reads_as_whole_template :
    let a := change { separator := "\n\n" } [
      .add "a = `x\ny`;\nb" [.protect 4 8, .overwrite 0 1 "name" false] (some "x.js"), .append "\n", .add "c" [] none,
      .prepend "// d\n"]
    a.text = "// d\nname = `x\ny`;\nb\n\n\nc" ∧ a.letters.map (·.char) = a.text.toList ∧
      (a.indent "  ").text = a.indentedWhole "  " ∧
      a.indentedWhole "  " = "  // d\n  name = `x\ny`;\n  b\n\n\n  c" := by
  intro a
  obtain ⟨hletters, hwhole⟩ := indent_reads_as_whole "\n\n" "  "
    [.add "a = `x\ny`;\nb" [.protect 4 8, .overwrite 0 1 "name" false] (some "x.js"), .append "\n", .add "c" [] none,
      .prepend "// d\n"]
    (by decide +kernel) (by decide +kernel) (by decide +kernel) (by decide +kernel)
  exact ⟨by decide +kernel, hletters, hwhole, by decide +kernel⟩

/-- Behind a part without text the line that it stands in is forgotten. -/
example :
    let a := change { separator := "" } [.append "a\n", .append "", .append "b"]
    (a.indent "  ").text = "  a\nb" ∧ a.indentedWhole "  " = "  a\n  b" := by
  decide +kernel

end Assembly

end Treeshake
