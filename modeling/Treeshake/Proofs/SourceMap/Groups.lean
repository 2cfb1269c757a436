import Treeshake.Proofs.SourceMap.Vlq
/-!
Groups of digits. Main statement: the texts that can be read are those that fall into groups of at most
thirteen digits, of which only the last does not go on; every list of numbers but the least is read back from
its text.
-/
set_option autoImplicit false

namespace Treeshake.SourceMap.Vlq

def Continues (c : Char) : Prop := ∃ d, Base64.digit? c = some d ∧ 32 ≤ d

def Ends (c : Char) : Prop := ∃ d, Base64.digit? c = some d ∧ d < 32

def IsGroup (cs : List Char) : Prop :=
  ∃ init last, cs = init ++ [last] ∧ init.length ≤ 12 ∧ (∀ c ∈ init, Continues c) ∧ Ends last

/-- The five lower bits of each digit at their places, the first digit at `shift` bits. What is shifted out of
the word is lost. -/
def amount : Nat → List Char → UInt64
  | _, [] => 0
  | shift, c :: cs =>
    ((((Base64.digit? c).getD 0) % 32).toUInt64 <<< shift.toUInt64) + amount (shift + 5) cs

/-- The rest of a group that stands at `shift` bits, and the groups behind it; at no bits there may be none. -/
def Continued (shift : Nat) (cs : List Char) : Prop :=
  (shift = 0 ∧ cs = []) ∨ ∃ (init : List Char) (last : Char) (groups : List (List Char)),
    cs = init ++ last :: groups.flatten ∧ shift + 5 * init.length ≤ 60 ∧ (∀ c ∈ init, Continues c) ∧ Ends last ∧
      ∀ g ∈ groups, IsGroup g

variable {segment : String} {shift : Nat} {value : UInt64} {c : Char} {cs rest : List Char} {ns : List Int64}

theorem read_continues {d : Nat} (hd : Base64.digit? c = some d) (h : 32 ≤ d) (hs : shift ≤ 60) :
    read segment shift value (c :: cs) =
      read segment (shift + 5) (value + ((d % 32).toUInt64 <<< shift.toUInt64)) cs := by
  rw [read, hd]
  simp only [if_neg (Nat.not_lt.mpr hs), if_pos h]

theorem read_ends {d : Nat} (hd : Base64.digit? c = some d) (h : d < 32) (hs : shift ≤ 60) :
    read segment shift value (c :: cs) =
      (read segment 0 0 cs).map (unfold (value + ((d % 32).toUInt64 <<< shift.toUInt64)) :: ·) := by
  rw [read, hd]
  simp only [if_neg (Nat.not_lt.mpr hs), if_neg (Nat.not_le.mpr h)]

theorem read_group {init : List Char} {last : Char} (hinit : ∀ c ∈ init, Continues c) (hlast : Ends last)
    (hs : shift + 5 * init.length ≤ 60) : read segment shift value (init ++ last :: rest) =
      (read segment 0 0 rest).map (unfold (value + amount shift (init ++ [last])) :: ·) := by
  induction init generalizing shift value with
  | nil =>
    obtain ⟨d, hd, h⟩ := hlast
    have hs : shift ≤ 60 := hs
    simp only [List.nil_append, read_ends hd h hs, amount, hd, Option.getD_some, UInt64.add_zero]
  | cons c init ih =>
    obtain ⟨d, hd, h⟩ := hinit c List.mem_cons_self
    rw [List.length_cons] at hs
    rw [List.cons_append, read_continues hd h (by omega),
      ih (fun c hc => hinit c (List.mem_cons_of_mem _ hc)) (by omega)]
    simp only [List.cons_append, amount, hd, Option.getD_some, UInt64.add_assoc]

theorem read_groups {groups : List (List Char)} (h : ∀ g ∈ groups, IsGroup g) :
    read segment 0 0 groups.flatten = .ok (groups.map fun g => unfold (amount 0 g)) := by
  induction groups with
  | nil => rfl
  | cons g groups ih =>
    obtain ⟨init, last, rfl, hlength, hinit, hlast⟩ := h g List.mem_cons_self
    rw [List.flatten_cons, List.append_assoc, List.singleton_append,
      read_group hinit hlast (by omega), ih fun g hg => h g (List.mem_cons_of_mem _ hg), UInt64.zero_add]
    rfl

theorem continued_of_read (h : read segment shift value cs = .ok ns) : Continued shift cs := by
  induction cs generalizing shift value ns with
  | nil =>
    rw [read] at h
    split at h
    · next hs => exact .inl ⟨hs, rfl⟩
    · cases h
  | cons c cs ih =>
    cases hd : Base64.digit? c with
    | none =>
      simp only [read, hd] at h
      cases h
    | some d =>
      rcases Nat.lt_or_ge 60 shift with hs | hs
      · simp only [read, hd, if_pos hs] at h
        cases h
      · rcases Nat.lt_or_ge d 32 with hlt | hge
        · rw [read_ends hd hlt hs] at h
          -- the group ends here, so what follows starts a new one
          have hrest : ∃ ns, read segment 0 0 cs = .ok ns := by
            cases hrun : read segment 0 0 cs with
            | error e =>
              rw [hrun] at h
              cases h
            | ok ns => exact ⟨ns, rfl⟩
          obtain ⟨ns', hrest⟩ := hrest
          rcases ih hrest with ⟨-, rfl⟩ | ⟨init, last, groups, rfl, hlength, hinit, hlast, hgroups⟩
          · exact .inr ⟨[], c, [], rfl, hs, List.forall_mem_nil _, ⟨d, hd, hlt⟩, List.forall_mem_nil _⟩
          · refine .inr ⟨[], c, (init ++ [last]) :: groups, by simp, hs, List.forall_mem_nil _, ⟨d, hd, hlt⟩, ?_⟩
            exact List.forall_mem_cons.mpr ⟨⟨init, last, rfl, by omega, hinit, hlast⟩, hgroups⟩
        · rw [read_continues hd hge hs] at h
          rcases ih h with ⟨hzero, -⟩ | ⟨init, last, groups, rfl, hlength, hinit, hlast, hgroups⟩
          · omega
          · refine .inr ⟨c :: init, last, groups, rfl, ?_, ?_, hlast, hgroups⟩
            · rw [List.length_cons]
              omega
            · exact List.forall_mem_cons.mpr ⟨⟨d, hd, hge⟩, hinit⟩

theorem groups_of_decode {text : String} (h : decode text = .ok ns) :
    ∃ groups : List (List Char), (∀ g ∈ groups, IsGroup g) ∧ text.toList = groups.flatten := by
  rcases continued_of_read h with ⟨-, hnil⟩ | ⟨init, last, groups, htext, hlength, hinit, hlast, hgroups⟩
  · exact ⟨[], nofun, hnil⟩
  · refine ⟨(init ++ [last]) :: groups, ?_, by simpa using htext⟩
    exact List.forall_mem_cons.mpr ⟨⟨init, last, rfl, by omega, hinit, hlast⟩, hgroups⟩

/-- Numbers other than the least are read back from their text. A text can be read if and only if it falls into
groups; each group is one number, and the last of its digits is shifted by at most sixty bits. -/
theorem codec_of_groups :
    (∀ ns : List Int64, (∀ n ∈ ns, n ≠ Int64.minValue) → decode (String.ofList (encode ns)) = .ok ns) ∧
    (∀ text : String, (∃ ns, decode text = .ok ns) ↔
      ∃ groups : List (List Char), (∀ g ∈ groups, IsGroup g) ∧ text.toList = groups.flatten) ∧
    ∀ groups : List (List Char), (∀ g ∈ groups, IsGroup g) →
      decode (String.ofList groups.flatten) = .ok (groups.map fun g => unfold (amount 0 g)) ∧
      ∀ g ∈ groups, 5 * (g.length - 1) ≤ 60 := by
  refine ⟨decode_encode, fun text => ⟨fun ⟨ns, h⟩ => groups_of_decode h, ?_⟩, fun groups h => ⟨?_, fun g hg => ?_⟩⟩
  · rintro ⟨groups, h, htext⟩
    refine ⟨groups.map fun g => unfold (amount 0 g), ?_⟩
    rw [decode, htext]
    exact read_groups h
  · rw [decode, String.toList_ofList]
    exact read_groups h
  · obtain ⟨init, last, rfl, hlength, -, -⟩ := h g hg
    rw [List.length_append, List.length_singleton]
    omega

def longest : List Char := List.replicate 12 'g' ++ ['B']

theorem isGroup_longest : IsGroup longest := by
  refine ⟨List.replicate 12 'g', 'B', rfl, by simp, fun c hc => ?_, 1, by decide +kernel, by decide⟩
  obtain rfl := List.eq_of_mem_replicate hc
  exact ⟨32, by decide +kernel, Nat.le_refl 32⟩

theorem codec_of_groups_longest :
    (∀ n ∈ [Int64.maxValue, -1], n ≠ Int64.minValue) ∧
      decode (String.ofList (encode [Int64.maxValue, -1])) = .ok [Int64.maxValue, -1] ∧
    (∀ g ∈ [longest], IsGroup g) ∧ decode (String.ofList [longest].flatten) = .ok [576460752303423488] := by
  have hnumbers : ∀ n ∈ [Int64.maxValue, -1], n ≠ Int64.minValue :=
    List.forall_mem_cons.mpr ⟨by decide, List.forall_mem_singleton.mpr (by decide)⟩
  have hgroups : ∀ g ∈ [longest], IsGroup g := fun g hg => List.mem_singleton.mp hg ▸ isGroup_longest
  have hread := (codec_of_groups.2.2 [longest] hgroups).1
  have hamount : unfold (amount 0 longest) = 576460752303423488 := by decide +kernel
  exact ⟨hnumbers, codec_of_groups.1 _ hnumbers, hgroups, hread.trans (congrArg (Except.ok [·]) hamount)⟩

end Treeshake.SourceMap.Vlq
