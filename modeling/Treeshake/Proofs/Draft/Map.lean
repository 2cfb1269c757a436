import Treeshake.Proofs.Assembly.Layout
import Treeshake.Proofs.Draft.Edits
/-!
The segments of one draft. A surviving character that gets no segment goes on where the character before
it ended, so the segment in front of both leads to it. Main statement: the last segment up to a surviving
character leads to its offset, and every segment points into the first text.
-/
set_option autoImplicit false

namespace Treeshake.Draft

open Assembly

theorem position_append (a b : List Char) :
    position (a ++ b) (Text.size a) = (Text.breaks a, Text.units (Text.lastLine a)) := by
  simp [position, Text.before?_size_append]

theorem units_lastLine_le (cs : List Char) : Text.units (Text.lastLine cs) ≤ Text.size cs := by
  have h := columnAfter_le 0 cs
  have := Text.units_le_size cs
  rw [columnAfter_zero] at h
  omega

namespace Legend

def marks (g : Legend) : Option Nat → List Cell → Marked
  | _, [] => []
  | last, c :: cs =>
    (c.char, g.segment? 0 last c) ::
      g.marks (if c.char = '\n' then none else c.origin.map (· + c.char.utf8Size)) cs

@[simp] theorem spelled_marks (g : Legend) (last : Option Nat) (cells : List Cell) :
    spelled (g.marks last cells) = Cell.text cells := by
  induction cells generalizing last with
  | nil => rfl
  | cons c cs ih => simpa [marks, spelled, Cell.text] using ih _

theorem segment?_of_origin {g : Legend} {column : Nat} {last : Option Nat} {c : Cell} {o : Nat}
    (ho : c.origin = some o) :
    g.segment? column last c =
      if g.hires || last != some o || g.anchors.contains o then some (g.segment column o none)
      else none := by
  simp only [segment?, ho]

theorem mark_segment? (g : Legend) (column : Nat) (last : Option Nat) (c : Cell) :
    mark column (g.segment? 0 last c) = (g.segment? column last c).toList := by
  unfold segment?
  split
  · rfl
  · rfl
  · split <;> rfl

theorem lines_eq_layout (g : Legend) (column : Nat) (last : Option Nat) (cells : List Cell) :
    g.lines column last cells = layout column (g.marks last cells) := by
  induction cells generalizing column last with
  | nil => rfl
  | cons c cs ih =>
    by_cases hc : c.char = '\n'
    · simp [lines, marks, layout, hc, ih, mark_segment?]
    · simp [lines, marks, layout, hc, ih, mark_segment?]

/-- Counting on from the segment to a column of its line comes to the offset. -/
def Leads (g : Legend) (s : SourceMap.Segment) (column offset : Nat) : Prop :=
  s.source = g.index ∧ s.column.toNat ≤ column ∧
    s.sourceLine.toNat = (position g.source offset).1 ∧
    s.sourceColumn.toNat + (column - s.column.toNat) = (position g.source offset).2

theorem leads_next {g : Legend} {s : SourceMap.Segment} {column : Nat} {a b : List Char} {c : Char}
    (hs : g.source = a ++ c :: b) (hc : c ≠ '\n') (h : g.Leads s column (Text.size a)) :
    g.Leads s (column + Text.units [c]) (Text.size a + c.utf8Size) := by
  obtain ⟨hindex, hle, hline, hcol⟩ := h
  have hsplit : g.source = (a ++ [c]) ++ b := by simp [hs]
  have hsize : Text.size (a ++ [c]) = Text.size a + c.utf8Size := by simp [Text.size]
  rw [hs, position_append] at hline hcol
  have hbreaks : Text.breaks (a ++ [c]) = Text.breaks a := by simp [Text.breaks, hc]
  rw [Leads, hsplit, ← hsize, position_append, hbreaks, Text.lastLine_append_singleton, if_neg hc,
    Text.units_append]
  exact ⟨hindex, by omega, hline, by omega⟩

theorem leads_segment {g : Legend} {column : Nat} {a b : List Char} (hs : g.source = a ++ b)
    (hsize : Text.size g.source < 2 ^ 32) (hc : column < 2 ^ 32) (name : Option String) :
    g.Leads (g.segment column (Text.size a) name) column (Text.size a) := by
  have hle := units_lastLine_le a
  have hb := Text.breaks_le_size a
  rw [hs, Text.size_append] at hsize
  rw [Leads, segment, hs, position_append]
  simp only [Nat.toUInt32_eq, UInt32.toNat_ofNat', Nat.mod_eq_of_lt hc]
  rw [Nat.mod_eq_of_lt (by omega), Nat.mod_eq_of_lt (by omega)]
  simp

/-- What the open line says about the offset behind the last character, if that survives. -/
def Follows (g : Legend) (before : Marked) (last : Option Nat) : Prop :=
  ∀ stop, last = some stop →
    ∃ s, (openLine before).getLast? = some s ∧ g.Leads s (reached before) stop

theorem leads_mark {g : Legend} {before : Marked} {last : Option Nat} {c : Cell} {a b : List Char}
    (hs : g.source = a ++ c.char :: b) (ho : c.origin = some (Text.size a))
    (hsize : Text.size g.source < 2 ^ 32) (hunits : reached before < 2 ^ 32)
    (h : g.Follows before last) :
    ∃ s, (openLine before ++ mark (reached before) (g.segment? 0 last c)).getLast? = some s ∧
      g.Leads s (reached before) (Text.size a) := by
  rw [mark_segment?, segment?_of_origin ho]
  by_cases hseg : (g.hires || last != some (Text.size a) || g.anchors.contains (Text.size a)) = true
  · refine ⟨g.segment (reached before) (Text.size a) none, ?_, leads_segment hs hsize hunits none⟩
    rw [if_pos hseg]
    simp
  · have hlast : last = some (Text.size a) := by
      simp only [Bool.or_eq_true, not_or, bne_iff_ne, ne_eq, Classical.not_not] at hseg
      exact hseg.1.2
    obtain ⟨s, hget, hlead⟩ := h _ hlast
    refine ⟨s, ?_, hlead⟩
    rw [if_neg hseg]
    simp [hget]

/-- The run of cells: whatever stands in front, the last segment up to a survivor leads to it. -/
theorem leads {g : Legend} (hsize : Text.size g.source < 2 ^ 32) {u v : List Cell} {c : Cell}
    {o : Nat} (ho : c.origin = some o)
    (hcells : ∀ x ∈ u ++ c :: v, x.origin.isSome = true → x ∈ Cell.settled 0 g.source)
    (before : Marked) (last : Option Nat) (h : g.Follows before last)
    (hunits : Text.units (spelled before) + Text.units (Cell.text u) < 2 ^ 32) :
    ∃ m xs ys, g.marks last (u ++ c :: v) = xs ++ (c.char, m) :: ys ∧ spelled xs = Cell.text u ∧
      ∃ s, (openLine (before ++ xs) ++ mark (reached (before ++ xs)) m).getLast? = some s ∧
        g.Leads s (reached (before ++ xs)) o := by
  have hreached := columnAfter_le 0 (spelled before)
  induction u generalizing before last with
  | nil =>
    obtain ⟨a, b, hs, ha⟩ := Cell.mem_settled (hcells c (by simp) (by simp [ho]))
    rw [ho, Nat.zero_add, Option.some.injEq] at ha
    subst ha
    refine ⟨_, [], _, rfl, rfl, ?_⟩
    simpa using leads_mark hs ho hsize (by simp only [reached]; omega) h
  | cons d u ih =>
    have htext : Text.units (Cell.text (d :: u)) = Text.units [d.char] + Text.units (Cell.text u) := by
      rw [← Text.units_append]
      rfl
    have hstep : Text.units (spelled (before ++ [(d.char, g.segment? 0 last d)])) =
        Text.units (spelled before) + Text.units [d.char] := by
      simp [spelled]
    obtain ⟨m, xs, ys, hmarks, hxs, hlead⟩ := ih (fun x hx => hcells x (by simp [hx]))
      (before ++ [(d.char, g.segment? 0 last d)])
      (if d.char = '\n' then none else d.origin.map (· + d.char.utf8Size)) (by
        intro stop hstop
        by_cases hd : d.char = '\n'
        · simp [hd] at hstop
        · simp only [hd, if_false, Option.map_eq_some_iff] at hstop
          obtain ⟨o', ho', rfl⟩ := hstop
          obtain ⟨a, b, hs, ha⟩ := Cell.mem_settled (hcells d (by simp) (by simp [ho']))
          rw [Nat.zero_add] at ha
          obtain rfl : o' = Text.size a := Option.some.inj (ho'.symm.trans ha)
          obtain ⟨s, hget, hlead⟩ := leads_mark hs ha hsize (by simp only [reached]; omega) h
          have hr : reached (before ++ [(d.char, g.segment? 0 last d)]) =
              reached before + Text.units [d.char] := by
            simpa [reached, spelled, hd] using columnAfter_append_singleton 0 (spelled before) d.char
          rw [openLine_append_singleton, if_neg hd, hr]
          exact ⟨s, hget, leads_next hs hd hlead⟩)
      (by omega) (columnAfter_le 0 _)
    refine ⟨m, (d.char, g.segment? 0 last d) :: xs, ys, ?_, ?_, ?_⟩
    · simp [marks, hmarks]
    · simpa [spelled, Cell.text] using hxs
    · simpa using hlead

def Inside (g : Legend) (s : SourceMap.Segment) : Prop :=
  s.source = g.index ∧ (∀ n, s.name = some n → n.toNat < g.names.length) ∧
    ∃ a b, g.source = a ++ b ∧ s.sourceLine.toNat = Text.breaks a ∧
      s.sourceColumn.toNat = Text.units (Text.lastLine a)

theorem inside_segment {g : Legend} {column : Nat} {a b : List Char} (hs : g.source = a ++ b)
    (hsize : Text.size g.source < 2 ^ 32) (name : Option String) :
    g.Inside (g.segment column (Text.size a) name) := by
  obtain ⟨-, -, hline, hcol⟩ := leads_segment hs hsize (show 0 < 2 ^ 32 by omega) name
  rw [hs, position_append] at hline hcol
  refine ⟨rfl, fun n hn => ?_, a, b, hs, ?_, ?_⟩
  · simp only [segment, Option.map_eq_some_iff, Option.bind_eq_some_iff] at hn
    obtain ⟨k, ⟨name, -, hk⟩, rfl⟩ := hn
    obtain ⟨hlt, -⟩ := List.idxOf?_eq_some_iff.mp hk
    have := Nat.mod_le k (2 ^ 32)
    simp only [Nat.toUInt32_eq, UInt32.toNat_ofNat']
    omega
  · exact hline
  · simpa [segment] using hcol

theorem inside_marks {g : Legend} (hsize : Text.size g.source < 2 ^ 32) {cells : List Cell}
    (hcells : ∀ x ∈ cells, x.origin.isSome = true → x ∈ Cell.settled 0 g.source)
    {last : Option Nat} (hlast : ∀ stop, last = some stop → ∃ a b, g.source = a ++ b ∧ stop = Text.size a)
    {x : Char × Option SourceMap.Segment} (hx : x ∈ g.marks last cells) {s : SourceMap.Segment}
    (hs : x.2 = some s) : g.Inside s := by
  induction cells generalizing last with
  | nil => simp [marks] at hx
  | cons c cs ih =>
    have horigin : ∀ o, c.origin = some o →
        ∃ a b, g.source = a ++ c.char :: b ∧ o = Text.size a := by
      intro o ho
      obtain ⟨a, b, hsource, ha⟩ := Cell.mem_settled (hcells c (by simp) (by simp [ho]))
      rw [ho, Nat.zero_add, Option.some.injEq] at ha
      exact ⟨a, b, hsource, ha⟩
    rcases List.mem_cons.mp hx with rfl | hx
    · cases ho : c.origin with
      | none =>
        cases last with
        | none => simp [segment?, ho] at hs
        | some stop =>
          obtain ⟨a, b, hsource, rfl⟩ := hlast stop rfl
          simp only [segment?, ho, Option.some.injEq] at hs
          exact hs ▸ inside_segment hsource hsize _
      | some o =>
        obtain ⟨a, b, hsource, rfl⟩ := horigin o ho
        simp only [segment?_of_origin ho] at hs
        split at hs
        · exact Option.some.inj hs ▸ inside_segment hsource hsize none
        · cases hs
    · refine ih (fun y hy => hcells y (List.mem_cons_of_mem _ hy)) (fun stop hstop => ?_) hx
      split at hstop
      · cases hstop
      · obtain ⟨o, ho, rfl⟩ := Option.map_eq_some_iff.mp hstop
        obtain ⟨a, b, hsource, rfl⟩ := horigin o ho
        exact ⟨a ++ [c.char], b, by simp [hsource], by simp [Text.size]⟩

end Legend

end Treeshake.Draft
