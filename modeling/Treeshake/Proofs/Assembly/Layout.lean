import Mathlib.Algebra.Group.Nat.Defs
import Mathlib.Data.List.Induction
import Treeshake.Assembly
/-!
Lines laid out from marked text. Joining lines one behind the other is laying out the marked texts they
come from as one. Main statement: the last segment up to a character is the character's own mark, or else
the last one of the open line in front of it.
-/
set_option autoImplicit false

namespace Treeshake

namespace Text

theorem lastLine_append_singleton (cs : List Char) (c : Char) :
    lastLine (cs ++ [c]) = if c = '\n' then [] else lastLine cs ++ [c] := by
  by_cases h : c = '\n' <;> simp [lastLine, h]

theorem breaks_le_size (cs : List Char) : breaks cs ≤ size cs := by
  induction cs with
  | nil => simp [breaks]
  | cons c cs ih =>
    have := c.utf8Size_pos
    simp only [breaks, List.count_cons, size] at *
    split <;> omega

theorem units_singleton_pos (c : Char) : 0 < units [c] := by
  simp only [units]
  split <;> omega

theorem units_singleton_le (c : Char) : units [c] ≤ c.utf8Size := by
  simp only [units, Char.utf8Size, Char.toNat, UInt32.le_iff_toNat_le]
  change (if c.val.toNat < 65536 then 1 else 2) + 0 ≤ if c.val.toNat ≤ 127 then 1
    else if c.val.toNat ≤ 2047 then 2 else if c.val.toNat ≤ 65535 then 3 else 4
  repeat' split
  all_goals omega

theorem units_le_size (cs : List Char) : units cs ≤ size cs := by
  induction cs with
  | nil => simp [units]
  | cons c cs ih =>
    have hc := units_singleton_le c
    simp only [units, size] at *
    omega

end Text

namespace Assembly

theorem columnAfter_append_singleton (column : Nat) (cs : List Char) (c : Char) :
    columnAfter column (cs ++ [c]) =
      if c = '\n' then 0 else columnAfter column cs + Text.units [c] := by
  by_cases hc : c = '\n'
  · simp [columnAfter, Text.lastLine_append_singleton, hc, Text.units]
  · by_cases hn : '\n' ∈ cs <;>
      simp [columnAfter, Text.lastLine_append_singleton, hc, hn, Ne.symm hc, Nat.add_assoc]

@[simp] theorem columnAfter_nil (column : Nat) : columnAfter column [] = column := by
  simp [columnAfter, Text.units]

theorem columnAfter_append (column : Nat) (a b : List Char) :
    columnAfter column (a ++ b) = columnAfter (columnAfter column a) b := by
  induction b using List.reverseRecOn with
  | nil => simp
  | append_singleton b c ih =>
    rw [← List.append_assoc, columnAfter_append_singleton, columnAfter_append_singleton, ih]

theorem columnAfter_cons (column : Nat) (c : Char) (cs : List Char) :
    columnAfter column (c :: cs) =
      if c = '\n' then columnAfter 0 cs else columnAfter (column + Text.units [c]) cs := by
  have hc := columnAfter_append_singleton column [] c
  have h := columnAfter_append column [c] cs
  rw [List.nil_append, columnAfter_nil] at hc
  rw [← List.singleton_append, h, hc]
  split <;> rfl

theorem columnAfter_zero (cs : List Char) : columnAfter 0 cs = Text.units (Text.lastLine cs) := by
  induction cs using List.reverseRecOn with
  | nil => rfl
  | append_singleton cs c ih =>
    rw [columnAfter_append_singleton, Text.lastLine_append_singleton, ih]
    split <;> simp [Text.units]

theorem columnAfter_le (column : Nat) (cs : List Char) :
    columnAfter column cs ≤ column + Text.units cs := by
  induction cs using List.reverseRecOn with
  | nil => simp
  | append_singleton cs c ih =>
    rw [columnAfter_append_singleton, Text.units_append]
    split <;> omega

/-- Text whose characters may start a segment; the column of a mark does not count. -/
abbrev Marked := List (Char × Option SourceMap.Segment)

def spelled (xs : Marked) : List Char := xs.map (·.1)

@[simp] theorem spelled_append (xs ys : Marked) : spelled (xs ++ ys) = spelled xs ++ spelled ys := by
  simp [spelled]

def mark (column : Nat) (m : Option SourceMap.Segment) : List SourceMap.Segment :=
  (m.map fun s => { s with column := column.toUInt32 }).toList

/-- The lines of marked text that starts at a column. -/
def layout : Nat → Marked → SourceMap.Lines
  | _, [] => [[]]
  | column, (c, m) :: xs =>
    if c = '\n' then mark column m :: layout 0 xs
    else (layout (column + Text.units [c]) xs).modifyHead (mark column m ++ ·)

theorem layout_ne_nil (column : Nat) (xs : Marked) : layout column xs ≠ [] := by
  induction xs generalizing column with
  | nil => simp [layout]
  | cons x xs ih =>
    rw [layout]
    split
    · simp
    · simpa using ih _

theorem exists_layout (column : Nat) (xs : Marked) :
    ∃ l ls, layout column xs = l :: ls := List.exists_cons_of_ne_nil (layout_ne_nil column xs)

@[simp] theorem length_layout (column : Nat) (xs : Marked) :
    (layout column xs).length = Text.breaks (spelled xs) + 1 := by
  induction xs generalizing column with
  | nil => simp [layout, spelled, Text.breaks]
  | cons x xs ih =>
    rw [layout]
    split <;> simp_all [spelled, Text.breaks]

theorem glue_nil_left (lines : SourceMap.Lines) (h : lines ≠ []) : glue [[]] lines = lines := by
  obtain ⟨l, ls, rfl⟩ := List.exists_cons_of_ne_nil h
  rfl

theorem glue_cons (l : List SourceMap.Segment) (ls lines : SourceMap.Lines) (h : ls ≠ []) :
    glue (l :: ls) lines = l :: glue ls lines := by
  obtain ⟨m, ms, rfl⟩ := List.exists_cons_of_ne_nil h
  cases lines <;> simp [glue]

theorem glue_modifyHead (here : List SourceMap.Segment) (ls lines : SourceMap.Lines) (h : ls ≠ [])
    (hl : lines ≠ []) :
    glue (ls.modifyHead (here ++ ·)) lines = (glue ls lines).modifyHead (here ++ ·) := by
  obtain ⟨l, ls, rfl⟩ := List.exists_cons_of_ne_nil h
  obtain ⟨n, ns, rfl⟩ := List.exists_cons_of_ne_nil hl
  cases ls with
  | nil => simp [glue]
  | cons m ms => simp [glue_cons]

theorem layout_append (column : Nat) (xs ys : Marked) :
    layout column (xs ++ ys) =
      glue (layout column xs) (layout (columnAfter column (spelled xs)) ys) := by
  induction xs generalizing column with
  | nil => simp [layout, glue_nil_left, layout_ne_nil, spelled]
  | cons x xs ih =>
    obtain ⟨c, m⟩ := x
    have hcol := columnAfter_cons column c (spelled xs)
    by_cases hc : c = '\n'
    · simp [layout, hc, ih, glue_cons, layout_ne_nil, spelled] at *
      rw [hcol]
    · simp [layout, hc, ih, glue_modifyHead, layout_ne_nil, spelled] at *
      rw [hcol]

theorem moveFirst_layout (n column : Nat) (xs : Marked) :
    moveFirst n (layout column xs) = layout (column + n) xs := by
  have hmark : ∀ (c : Nat) m, (mark c m).map
      (fun s => { s with column := s.column + n.toUInt32 }) = mark (c + n) m := by
    intro c m
    cases m <;> simp [mark]
  induction xs generalizing column with
  | nil => rfl
  | cons x xs ih =>
    obtain ⟨c, m⟩ := x
    by_cases hc : c = '\n'
    · simp [layout, hc, moveFirst, hmark]
    · have := ih (column + Text.units [c])
      rw [Nat.add_right_comm] at this
      obtain ⟨l, ls, hl⟩ := exists_layout (column + Text.units [c]) xs
      simp [layout, hc, hl, moveFirst, hmark, ← this]

def unmarked (text : String) : Marked := text.toList.map fun c => (c, none)

@[simp] theorem spelled_unmarked (text : String) : spelled (unmarked text) = text.toList := by
  simp [unmarked, spelled, Function.comp_def]

theorem layout_unmarked (column : Nat) (text : String) :
    layout column (unmarked text) = bareLines text := by
  unfold unmarked bareLines
  induction text.toList generalizing column with
  | nil => rfl
  | cons c cs ih =>
    by_cases hc : c = '\n'
    · simp [layout, hc, mark, ih, Text.breaks, List.replicate_succ]
    · simp [layout, hc, mark, ih, Text.breaks, List.replicate_succ]

/-- Joined lines of marked texts are the lines of the texts put together. -/
theorem joinLines_layout {α : Type} (text : α → String) (marked : α → Marked)
    (h : ∀ x, spelled (marked x) = (text x).toList) (column : Nat) (xs : List α) :
    joinLines column (xs.map fun x => (text x, layout 0 (marked x))) =
      layout column (xs.flatMap marked) := by
  induction xs generalizing column with
  | nil => rfl
  | cons x xs ih =>
    rw [List.map_cons, joinLines, ih, moveFirst_layout, Nat.zero_add, List.flatMap_cons,
      layout_append, h]

theorem mark_column {column : Nat} {m : Option SourceMap.Segment} {s : SourceMap.Segment}
    (h : s ∈ mark column m) (hc : column < 2 ^ 32) : s.column.toNat = column := by
  simp only [mark, Option.mem_toList, Option.map_eq_some_iff] at h
  obtain ⟨t, -, rfl⟩ := h
  exact UInt32.toNat_ofNat_of_lt' hc

theorem mem_layout {column : Nat} {xs : Marked} {l : List SourceMap.Segment}
    {s : SourceMap.Segment} (hl : l ∈ layout column xs) (hs : s ∈ l) :
    ∃ x ∈ xs, ∃ t at_, x.2 = some t ∧ s = { t with column := at_ } := by
  have hmark : ∀ (at_ : Nat) m, s ∈ mark at_ m →
      ∃ t c, m = some t ∧ s = { t with column := c } := by
    intro at_ m h
    simp only [mark, Option.mem_toList, Option.map_eq_some_iff] at h
    obtain ⟨t, rfl, rfl⟩ := h
    exact ⟨t, at_.toUInt32, rfl, rfl⟩
  induction xs generalizing column l with
  | nil =>
    simp only [layout, List.mem_singleton] at hl
    simp [hl] at hs
  | cons x xs ih =>
    obtain ⟨c, m⟩ := x
    have htail : ∀ {at_ : Nat} {k}, k ∈ layout at_ xs → s ∈ k →
        ∃ x ∈ (c, m) :: xs, ∃ t at_, x.2 = some t ∧ s = { t with column := at_ } := by
      intro at_ k hk hsk
      obtain ⟨x, hx, h⟩ := ih hk hsk
      exact ⟨x, List.mem_cons_of_mem _ hx, h⟩
    have hhead : ∀ {at_ : Nat}, s ∈ mark at_ m →
        ∃ x ∈ (c, m) :: xs, ∃ t at_, x.2 = some t ∧ s = { t with column := at_ } :=
      fun h => ⟨(c, m), List.mem_cons_self, hmark _ m h⟩
    rw [layout] at hl
    split at hl
    · rcases List.mem_cons.mp hl with rfl | hl
      · exact hhead hs
      · exact htail hl hs
    · obtain ⟨k, ks, hk⟩ := exists_layout (column + Text.units [c]) xs
      rw [hk, List.modifyHead_cons] at hl
      rcases List.mem_cons.mp hl with rfl | hl
      · rcases List.mem_append.mp hs with hs | hs
        · exact hhead hs
        · exact htail (hk ▸ List.mem_cons_self) hs
      · exact htail (hk ▸ List.mem_cons_of_mem _ hl) hs

theorem units_spelled_cons (c : Char) (m : Option SourceMap.Segment) (xs : Marked) :
    Text.units (spelled ((c, m) :: xs)) = Text.units [c] + Text.units (spelled xs) := by
  rw [← Text.units_append]
  rfl

theorem layout_increasing (column : Nat) (xs : Marked) (h : column + Text.units (spelled xs) < 2 ^ 32) :
    (∀ l ∈ layout column xs, l.Pairwise fun s t => s.column < t.column) ∧
      ∀ l ls, layout column xs = l :: ls → ∀ s ∈ l, column ≤ s.column.toNat := by
  induction xs generalizing column with
  | nil => simp [layout]
  | cons x xs ih =>
    obtain ⟨c, m⟩ := x
    have hpos := Text.units_singleton_pos c
    rw [units_spelled_cons] at h
    have hmark : ∀ s ∈ mark column m, s.column.toNat = column :=
      fun s hs => mark_column hs (by omega)
    have hsingle : (mark column m).Pairwise fun s t => s.column < t.column := by
      cases m <;> simp [mark]
    rw [layout]
    split
    · obtain ⟨hlines, -⟩ := ih 0 (by omega)
      refine ⟨fun l hl => ?_, fun l ls hl s hs => ?_⟩
      · rcases List.mem_cons.mp hl with rfl | hl
        · exact hsingle
        · exact hlines l hl
      · obtain ⟨rfl, -⟩ := List.cons.inj hl
        exact Nat.le_of_eq (hmark s hs).symm
    · obtain ⟨hlines, hfirst⟩ := ih (column + Text.units [c]) (by omega)
      obtain ⟨k, ks, hk⟩ := exists_layout (column + Text.units [c]) xs
      rw [hk] at hlines
      have hright := hfirst k ks hk
      rw [hk, List.modifyHead_cons]
      refine ⟨fun l hl => ?_, fun l ls hl s hs => ?_⟩
      · rcases List.mem_cons.mp hl with rfl | hl
        · refine List.pairwise_append.mpr ⟨hsingle, hlines k List.mem_cons_self, fun s hs t ht => ?_⟩
          have := hmark s hs
          have := hright t ht
          rw [UInt32.lt_iff_toNat_lt]
          omega
        · exact hlines l (List.mem_cons_of_mem _ hl)
      · obtain ⟨rfl, -⟩ := List.cons.inj hl
        rcases List.mem_append.mp hs with hs | hs
        · exact Nat.le_of_eq (hmark s hs).symm
        · have := hright s hs
          omega

def openLine (xs : Marked) : List SourceMap.Segment := ((layout 0 xs).getLast?).getD []

/-- The column that the text has reached. -/
def reached (xs : Marked) : Nat := columnAfter 0 (spelled xs)

theorem getElem?_glue (ls lines : SourceMap.Lines) (h : ls ≠ []) (hl : lines ≠ []) :
    (glue ls lines)[ls.length - 1]? = some (ls.getLast?.getD [] ++ lines.head?.getD []) := by
  induction ls with
  | nil => exact absurd rfl h
  | cons l ls ih =>
    obtain ⟨m, ms, rfl⟩ := List.exists_cons_of_ne_nil hl
    cases ls with
    | nil => simp [glue]
    | cons k ks =>
      have := ih (by simp)
      simp [glue_cons] at *
      exact this

theorem openLine_append_singleton (xs : Marked) (c : Char) (m : Option SourceMap.Segment) :
    openLine (xs ++ [(c, m)]) = if c = '\n' then [] else openLine xs ++ mark (reached xs) m := by
  have hlast : ∀ ls : SourceMap.Lines, ls ≠ [] → ∀ here : List SourceMap.Segment,
      (glue ls [here, []]).getLast? = some [] ∧
        (glue ls [here]).getLast? = some (ls.getLast?.getD [] ++ here) := by
    intro ls hne here
    induction ls with
    | nil => exact absurd rfl hne
    | cons l ls ih =>
      cases ls with
      | nil => simp [glue]
      | cons k ks =>
        obtain ⟨h₁, h₂⟩ := ih (by simp)
        simp [glue_cons, List.getLast?_cons, h₁, h₂]
  obtain ⟨h₁, h₂⟩ := hlast (layout 0 xs) (layout_ne_nil 0 xs) (mark (reached xs) m)
  rw [openLine, layout_append]
  by_cases hc : c = '\n'
  · simpa [layout, hc, reached] using congrArg (·.getD []) h₁
  · simpa [layout, hc, reached, openLine] using congrArg (·.getD []) h₂

theorem openLine_lt (xs : Marked) (h : Text.units (spelled xs) < 2 ^ 32) :
    ∀ s ∈ openLine xs, s.column.toNat < reached xs := by
  induction xs using List.reverseRecOn with
  | nil => simp [openLine, layout]
  | append_singleton xs x ih =>
    obtain ⟨c, m⟩ := x
    rw [spelled_append, Text.units_append] at h
    have hreached := columnAfter_append_singleton 0 (spelled xs) c
    have hpos := Text.units_singleton_pos c
    have hle := columnAfter_le 0 (spelled xs)
    intro s hs
    rw [openLine_append_singleton] at hs
    split at hs
    · simp at hs
    · next hc =>
      have hr : reached (xs ++ [(c, m)]) = reached xs + Text.units [c] := by
        simpa [reached, spelled, hc] using hreached
      rcases List.mem_append.mp hs with hs | hs
      · have := ih (by omega) s hs
        omega
      · have := mark_column hs (by simp only [reached]; omega)
        omega

theorem getElem?_layout_append (xs ys : Marked) : (layout 0 (xs ++ ys))[Text.breaks (spelled xs)]? =
    some (openLine xs ++ (layout (reached xs) ys).head?.getD []) := by
  have hget := getElem?_glue (layout 0 xs) (layout (reached xs) ys) (layout_ne_nil 0 xs) (layout_ne_nil _ _)
  rwa [length_layout, Nat.add_sub_cancel, reached, ← layout_append, ← reached] at hget

/-- The last segment up to a character is its own mark, or the last that the open line has. -/
theorem exists_line (xs ys : Marked) (c : Char) (m : Option SourceMap.Segment)
    (h : Text.units (spelled (xs ++ (c, m) :: ys)) < 2 ^ 32) :
    ∃ l, (layout 0 (xs ++ (c, m) :: ys))[Text.breaks (spelled xs)]? = some l ∧
      (l.filter fun s => s.column.toNat ≤ reached xs).getLast? =
        (openLine xs ++ mark (reached xs) m).getLast? := by
  rw [spelled_append, Text.units_append, units_spelled_cons] at h
  have hpos := Text.units_singleton_pos c
  have hle := columnAfter_le 0 (spelled xs)
  refine ⟨_, getElem?_layout_append xs ((c, m) :: ys), ?_⟩
  have hleft : (openLine xs).filter (fun s => s.column.toNat ≤ reached xs) = openLine xs := by
    refine List.filter_eq_self.mpr fun s hs => ?_
    have := openLine_lt xs (by omega) s hs
    simpa using Nat.le_of_lt this
  have hhere : (mark (reached xs) m).filter (fun s => s.column.toNat ≤ reached xs) =
      mark (reached xs) m := by
    refine List.filter_eq_self.mpr fun s hs => ?_
    have := mark_column hs (by simp only [reached]; omega)
    simpa using Nat.le_of_eq this
  rw [List.filter_append, hleft, layout]
  split
  · simp [hhere]
  · obtain ⟨k, ks, hk⟩ := exists_layout (reached xs + Text.units [c]) ys
    have hright : k.filter (fun s => s.column.toNat ≤ reached xs) = [] := by
      refine List.filter_eq_nil_iff.mpr fun s hs => ?_
      have := (layout_increasing (reached xs + Text.units [c]) ys
        (by simp only [reached]; omega)).2 k ks hk s hs
      simp only [decide_eq_true_eq]
      omega
    simp [hk, hhere, hright]

end Assembly

end Treeshake
