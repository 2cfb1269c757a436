import Treeshake.Proofs.Draft.Commute
import Treeshake.Proofs.Draft.Whole
/-!
Ranges that no edit touches. Main statement: whatever is inserted, overwritten or removed elsewhere, in whatever order,
a range of the first text that is left alone is sliced as it was.
-/
set_option autoImplicit false

namespace Treeshake

namespace Edit

/-- Whether an edit leaves a range of the first text alone: it takes no byte of it away, and puts nothing between two
of its bytes. -/
def Leaves (start stop : Nat) : Edit → Prop
  | .append _ | .prepend _ | .anchor _ | .protect _ _ => True
  | .insert offset _ => ¬(start < offset ∧ offset < stop)
  | .overwrite first last _ _ | .remove first last =>
    ∀ offset, first ≤ offset → offset < last → ¬(start ≤ offset ∧ offset < stop)
  | _ => False

theorem in_front_or_behind {first last start stop : Nat} (hlt : first < last) (hrange : start < stop)
    (h : ∀ offset, first ≤ offset → offset < last → ¬(start ≤ offset ∧ offset < stop)) :
    last ≤ start ∨ stop ≤ first := by
  have hfirst := h first (Nat.le_refl _) hlt
  have hstart := fun hle : first ≤ start => h start hle
  omega

end Edit

namespace Draft

variable {d d' : Draft} {e : Edit} {start : Nat} {text : List Char}

theorem framed_of_avoids (htext : text ≠ []) (h : Cell.Framed start text d.cells) (hpart : e.Local)
    (havoids : e.Avoids 0 start (start + Text.size text) d.length) (hok : e.apply d = .ok d') :
    Cell.Framed start text d'.cells := by
  have hcells : d'.cells = e.cut d.length d.cells := by rw [apply_eq hpart hok]
  exact hcells ▸ Edit.framed_cut htext h havoids

/-- An edit that leaves a text alone that stands whole in a draft leaves it whole. -/
theorem framed_apply (hd : d.Intact) (htext : text ≠ []) (h : Cell.Framed start text d.cells)
    (hleaves : e.Leaves start (start + Text.size text)) (hok : e.apply d = .ok d') :
    Cell.Framed start text d'.cells := by
  obtain ⟨a, b, ha, hb, hcells⟩ := id h
  have hsize := Text.size_pos htext
  cases e with
  | append new =>
    refine Except.ok.inj hok ▸ ⟨a, b ++ Cell.fresh new.toList, ha, hb.append (Cell.startFrom_fresh _), ?_⟩
    rw [append, hcells]
    simp only [List.append_assoc]
  | prepend new =>
    refine Except.ok.inj hok ▸ ⟨Cell.fresh new.toList ++ a, b, (Cell.endBy_fresh _).append ha, hb, ?_⟩
    rw [prepend, hcells]
    simp only [List.append_assoc]
  | insert offset new =>
    have hlength : offset ≤ d.length := by
      rcases insert_eq_ok hok with ⟨hend, -⟩ | ⟨hlt, -⟩
      · exact Nat.le_of_eq hend
      · exact Nat.le_of_lt hlt
    refine framed_of_avoids (e := .insert offset new) htext h trivial ?_ hok
    by_cases hfront : offset ≤ start
    · exact .inl ⟨Nat.zero_le _, hfront⟩
    · exact .inr ⟨Nat.not_lt.mp fun hin => hleaves ⟨Nat.not_le.mp hfront, hin⟩, hlength⟩
  | overwrite first last new storeName =>
    obtain ⟨hlt, hlength, -⟩ := overwrite_eq_ok hd hok
    refine framed_of_avoids (e := .overwrite first last new storeName) htext h trivial ?_ hok
    rcases Edit.in_front_or_behind hlt (Nat.lt_add_of_pos_right hsize) hleaves with hfront | hbehind
    · exact .inl ⟨Nat.zero_le _, hfront⟩
    · exact .inr ⟨hbehind, hlength⟩
  | remove first last =>
    obtain ⟨hle, hlength, -⟩ := remove_eq_ok hok
    rcases Nat.lt_or_eq_of_le hle with hlt | rfl
    · refine framed_of_avoids (e := .remove first last) htext h trivial ?_ hok
      rcases Edit.in_front_or_behind hlt (Nat.lt_add_of_pos_right hsize) hleaves with hfront | hbehind
      · exact .inl ⟨Nat.zero_le _, hfront⟩
      · exact .inr ⟨hbehind, hlength⟩
    · -- an empty range may lie within the text, but nothing comes from it
      have hnone : ¬d.cells.any (·.within first first) = true := by simp [Cell.within_of_le (Nat.le_refl first)]
      have hcells : d'.cells = d.cells := by
        rw [apply_eq (e := .remove first first) trivial hok]
        exact if_neg hnone
      exact hcells ▸ h
  | anchor | protect => exact Except.ok.inj hok ▸ h
  | _ => exact hleaves.elim

theorem framed_edit {edits : List Edit} (hd : d.Intact) (htext : text ≠ []) (h : Cell.Framed start text d.cells)
    (hleaves : ∀ e ∈ edits, e.Leaves start (start + Text.size text)) :
    Cell.Framed start text (d.edit edits).cells := by
  induction edits generalizing d with
  | nil => exact h
  | cons e es ih =>
    obtain ⟨he, hleaves⟩ := List.forall_mem_cons.mp hleaves
    cases hok : e.apply d with
    | error fault => exact edit_of_error hok es ▸ ih hd h hleaves
    | ok d' => exact edit_of_ok hok es ▸ ih (intact_apply hd hok) (framed_apply hd htext h he hok) hleaves

theorem slice_framed (htext : text ≠ []) (h : Cell.Framed start text d.cells) :
    d.slice start (start + Text.size text) = .ok (String.ofList text) := by
  obtain ⟨a, b, ha, hb, hcells⟩ := h
  obtain ⟨c, rest, hfront, hc⟩ := Cell.settled_first htext start
  obtain ⟨x, e, hname, hback, he⟩ := Cell.settled_last htext start
  have hpos := e.char.utf8Size_pos
  have hsize : start + Text.size text = start + Text.size x + e.char.utf8Size := by
    rw [hname, Text.size_append]
    simp [Text.size, Nat.add_assoc]
  have hfirst : c.covers start = true := Cell.covers_origin (k := 0) hc c.char.utf8Size_pos
  have hlast : e.covers (start + Text.size text - 1) = true := by
    rw [hsize, Nat.add_sub_assoc hpos]
    exact Cell.covers_origin he (by omega)
  have hbefore := ha.covers (Nat.le_refl start)
  have hstart : d.cells = a ++ c :: (rest ++ b) := by rw [hcells, hfront, List.append_assoc, List.cons_append]
  have hend : c :: (rest ++ b) = Cell.settled start x ++ e :: b := by
    rw [← List.cons_append, ← hfront, hback, List.append_assoc]
    rfl
  have hinner : ∀ c ∈ Cell.settled start x, c.covers (start + Text.size text - 1) = false :=
    (Cell.endBy_settled x).covers (by omega)
  have hinnerFront : ∀ c ∈ a ++ Cell.settled start x, c.covers (start + Text.size text - 1) = false := fun c hc =>
    (List.mem_append.mp hc).elim (ha.covers (by omega) c) (hinner c)
  have hcellFirst : d.cellAt? start = some c :=
    List.find?_eq_some_iff_append.mpr ⟨hfirst, a, _, hstart, by simpa using hbefore⟩
  have hcellLast : d.cellAt? (start + Text.size text - 1) = some e :=
    List.find?_eq_some_iff_append.mpr ⟨hlast, a ++ Cell.settled start x, b, by rw [hstart, hend, List.append_assoc],
      by simpa using hinnerFront⟩
  have hstarts : c.startsAt start = true := by rw [Cell.startsAt, hc, beq_self_eq_true]
  have hends : e.endsAt (start + Text.size text) = true := by
    rw [Cell.endsAt, he, Option.any_some, hsize, beq_self_eq_true]
  have hkept : Cell.upTo (·.covers (start + Text.size text - 1)) (Cell.since (·.covers start) d.cells) =
      Cell.settled start x := by
    rw [hstart, Cell.since_eq hbefore hfirst, hend, Cell.upTo_eq hinner hlast]
  have htext : Cell.text (Cell.settled start x ++ [e]) = text := by rw [← hback, Cell.text_settled]
  have hne : ¬start + Text.size text ≤ start := by omega
  simp only [slice, if_neg hne, hcellFirst, hcellLast, hstarts, hends, Bool.and_self, if_true, hkept, htext]

/-- A range of a text that no edit touches is sliced from the edited text as it was, however the others are placed and
ordered. -/
theorem untouched_range_sliced (source : String) {start stop : Nat} {text : List Char}
    (hslice : Text.slice? start stop source.toList = some text) (hrange : start < stop) (edits : List Edit)
    (hleaves : ∀ e ∈ edits, e.Leaves start stop) :
    ((ofText source).edit edits).slice start stop = .ok (String.ofList text) := by
  obtain ⟨x, y, hsource, rfl, rfl⟩ := Text.slice?_eq_some hslice
  have htext : text ≠ [] := by
    rintro rfl
    exact Nat.lt_irrefl _ hrange
  have hframed : Cell.Framed (Text.size x) text (ofText source).cells := by
    refine ⟨Cell.settled 0 x, Cell.settled (Text.size x + Text.size text) y, ?_, Cell.startFrom_settled y, ?_⟩
    · exact (Cell.endBy_settled x).mono (Nat.le_of_eq (Nat.zero_add _))
    · rw [ofText, hsource, Cell.settled_append, Cell.settled_append, Text.size_append, Nat.zero_add, Nat.zero_add]
  exact slice_framed htext (framed_edit (intact_ofText source) htext hframed hleaves)

theorem untouched_range_sliced_between :
    let d := (ofText "abcdefghijkl").edit
      [.overwrite 1 3 "XX" false, .remove 5 7, .insert 9 "__", .prepend "<", .insert 3 "+", .remove 4 4]
    d.text = "<aXX+dehi__jkl" ∧ d.slice 3 5 = .ok "de" := by
  have hslice : Text.slice? 3 5 "abcdefghijkl".toList = some ['d', 'e'] := by decide +kernel
  refine ⟨by decide +kernel, untouched_range_sliced "abcdefghijkl" hslice (by decide) _ ?_⟩
  simp only [List.forall_mem_cons, Edit.Leaves]
  refine ⟨by omega, by omega, by omega, trivial, by omega, by omega, List.forall_mem_nil _⟩

end Draft

end Treeshake
