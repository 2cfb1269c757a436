import Mathlib.Data.List.TakeWhile
import Treeshake.Proofs.Draft.Commute
/-!
Parts of a draft. Main statement: where a range can be sliced it can be snipped, and the part has the text of the slice
and, around it, what was put in in front of all that is left of the text before the range, or behind it, and so at the
other end.
-/
set_option autoImplicit false

namespace Treeshake

namespace Cell

variable {p q : Cell → Bool} {cells : List Cell}

theorem upTo_congr (h : ∀ c ∈ cells, p c = q c) : upTo p cells = upTo q cells := by
  induction cells with
  | nil => rfl
  | cons c cells ih =>
    obtain ⟨hc, hcells⟩ := List.forall_mem_cons.mp h
    have hrest := ih hcells
    rw [upTo, upTo] at hrest ⊢
    rw [List.takeWhile_cons, List.takeWhile_cons, hc, hrest]

theorem behind_congr (h : ∀ c ∈ cells, p c = q c) : behind p cells = behind q cells :=
  congrArg List.reverse (upTo_congr fun c hc => h c (List.mem_reverse.mp hc))

theorem any_congr (h : ∀ c ∈ cells, p c = q c) : cells.any p = cells.any q := by
  rw [Bool.eq_iff_iff, List.any_eq_true, List.any_eq_true]
  exact exists_congr fun c => and_congr_right fun hc => by rw [h c hc]

theorem not_of_mem_upTo {c : Cell} (hc : c ∈ upTo p cells) : p c = false := by
  simpa using List.mem_takeWhile_imp hc

theorem not_of_mem_behind {c : Cell} (hc : c ∈ behind p cells) : p c = false := by
  simpa using List.mem_takeWhile_imp (List.mem_reverse.mp hc)

/-- What stands in front of the first and behind the last of the cells that come from the first text; all, if none
does. -/
def fringe (cells : List Cell) : List Cell :=
  if cells.any (·.origin.isSome) then upTo (·.origin.isSome) cells ++ behind (·.origin.isSome) cells else cells

theorem origin_of_mem_fringe {c : Cell} (hc : c ∈ fringe cells) : c.origin = none := by
  rw [← Option.not_isSome_iff_eq_none, Bool.not_eq_true]
  rw [fringe] at hc
  split at hc
  · exact (List.mem_append.mp hc).elim not_of_mem_upTo not_of_mem_behind
  · next hnone => exact Bool.eq_false_iff.mpr fun hsome => hnone (List.any_eq_true.mpr ⟨c, hc, hsome⟩)

theorem cut_remove {first last stop : Nat} (h : ∀ c ∈ cells, c.within first last = c.origin.isSome) :
    (Edit.remove first last).cut stop cells = fringe cells := by
  rw [Edit.cut, fringe, any_congr h, upTo_congr h, behind_congr h]

/-- Around a cell of the first text stand others that end in front of it and start behind it. -/
theorem bounds_of_pairwise {a b : List Cell} {c : Cell} {o : Nat} (hp : (a ++ c :: b).Pairwise Precedes)
    (ho : c.origin = some o) : EndBy o a ∧ StartFrom (o + c.char.utf8Size) b := by
  obtain ⟨-, hbehind, hfront⟩ := List.pairwise_append.mp hp
  exact ⟨fun x hx o' ho' => hfront x hx c List.mem_cons_self o' o ho' ho,
    fun x hx o' ho' => (List.pairwise_cons.mp hbehind).1 x hx o o' ho ho'⟩

theorem StartFrom.cons {c : Cell} {o : Nat} (h : StartFrom o cells) (ho : c.origin = some o) :
    StartFrom o (c :: cells) :=
  List.forall_mem_cons.mpr ⟨fun _ ho' => Nat.le_of_eq (Option.some.inj (ho.symm.trans ho')), h⟩

theorem endBy_singleton {c : Cell} {o : Nat} (ho : c.origin = some o) : EndBy (o + c.char.utf8Size) [c] :=
  List.forall_mem_singleton.mpr fun _ ho' => by rw [Option.some.inj (ho.symm.trans ho')]

theorem EndBy.within_eq {start : Nat} (h : EndBy start cells) : ∀ c ∈ cells, c.within 0 start = c.origin.isSome := by
  intro c hc
  cases ho : c.origin with
  | none => simp [Cell.within, ho]
  | some o =>
    have hend := h c hc o ho
    have hpos := c.char.utf8Size_pos
    exact within_iff.mpr ⟨o, ho, Nat.zero_le o, by omega⟩

theorem StartFrom.within_eq {stop last : Nat} (h : StartFrom stop cells) (hlast : EndBy last cells) :
    ∀ c ∈ cells, c.within stop last = c.origin.isSome := by
  intro c hc
  cases ho : c.origin with
  | none => simp [Cell.within, ho]
  | some o =>
    have hend := hlast c hc o ho
    have hpos := c.char.utf8Size_pos
    exact within_iff.mpr ⟨o, ho, h c hc o ho, by omega⟩

/-- Cells in three parts: what ends in front of a range, what is in the range or was put in there, and what starts
behind it. -/
structure Parted (start stop : Nat) (cells a m z : List Cell) : Prop where
  split : cells = a ++ m ++ z
  ahead : EndBy start a
  onward : StartFrom start (m ++ z)
  upTo : EndBy stop (a ++ m)
  behind : StartFrom stop z

end Cell

namespace Draft

variable {d d' : Draft} {start stop : Nat} {text : String}

theorem Intact.endBy (hd : d.Intact) : Cell.EndBy d.length d.cells := by
  intro c hc o ho
  obtain ⟨x, y, hxy, hx⟩ := Cell.mem_settled (hd.mem_settled hc (by simp [ho]))
  rw [ho, Nat.zero_add, Option.some.injEq] at hx
  rw [length, hxy, Text.size_append, hx, Text.size]
  omega

theorem slice_eq_ok (hd : d.Intact) (hlt : start < stop) (h : d.slice start stop = .ok text) :
    ∃ a m z, Cell.Parted start stop d.cells a m z ∧ text = String.ofList (Cell.text m) ∧
      Cell.upTo (·.covers start) d.cells = a ∧ Cell.behind (·.covers (stop - 1)) d.cells = z ∧ stop ≤ d.length := by
  rw [slice, if_neg (Nat.not_le.mpr hlt)] at h
  split at h
  · cases h
  · cases h
  next first last hfirst hlast =>
  split at h
  case isFalse => cases h
  case isTrue hends =>
  obtain ⟨hstarts, hends⟩ := Bool.and_eq_true_iff.mp hends
  obtain ⟨a, b, m, z, hcells, hspan, ha, hz⟩ := exists_between hd hlt hfirst hlast hstarts
  have hstart : first.origin = some start := by simpa [Cell.startsAt] using hstarts
  obtain ⟨o, ho, hend⟩ : ∃ o, last.origin = some o ∧ o + last.char.utf8Size = stop := by
    obtain ⟨o, ho, hend⟩ := (Option.any_eq_true _ _).mp hends
    exact ⟨o, ho, eq_of_beq hend⟩
  have hsplit : d.cells = a ++ m ++ last :: z := by
    rw [hcells, hspan, List.append_assoc, List.append_assoc, List.append_assoc, List.singleton_append]
  have hb : first :: b = m ++ [last] ++ z := by
    rw [List.append_assoc a] at hspan
    exact List.append_cancel_left hspan
  obtain ⟨hahead, honward⟩ := Cell.bounds_of_pairwise (hcells ▸ hd.pairwise) hstart
  obtain ⟨hinner, hbehind⟩ := Cell.bounds_of_pairwise (hsplit ▸ hd.pairwise) ho
  rw [hend] at hbehind
  have hall : Cell.StartFrom start (m ++ [last] ++ z) := hb ▸ (honward.mono (Nat.le_add_right ..)).cons hstart
  have hupTo : Cell.EndBy stop (a ++ (m ++ [last])) := by
    rw [← List.append_assoc, ← hend]
    exact (hinner.mono (Nat.le_add_right ..)).append (Cell.endBy_singleton ho)
  refine ⟨a, m ++ [last], z, ⟨hcells.trans hspan, hahead, hall, hupTo, hbehind⟩, ?_, ha, hz, ?_⟩
  · -- up to the last cell nothing covers the last byte of the range
    have hpos := last.char.utf8Size_pos
    have hm : Cell.EndBy o m := fun c hc => hinner c (List.mem_append_right _ hc)
    have hwhole := (Cell.upTo_append_since (·.covers start) d.cells).trans hcells
    rw [ha] at hwhole
    have hsince : Cell.since (·.covers start) d.cells = first :: b := List.append_cancel_left hwhole
    rw [← Except.ok.inj h, hsince, hb, List.append_assoc, List.singleton_append,
      Cell.upTo_eq (hm.covers (by omega)) (List.find?_some hlast)]
  · have hlength := hd.endBy last (List.mem_of_find?_eq_some hlast) o ho
    exact hend ▸ hlength

theorem exists_remove {first last : Nat} (hle : first ≤ last) (hlength : last ≤ d.length) :
    ∃ d', d.remove first last = .ok d' ∧ d'.source = d.source ∧
      d'.cells = (Edit.remove first last).cut d.length d.cells := by
  rw [remove, if_neg (Nat.not_lt.mpr hle), if_neg (Nat.not_lt.mpr hlength), Edit.cut]
  split
  · exact ⟨_, rfl, rfl, rfl⟩
  · exact ⟨_, rfl, rfl, rfl⟩

theorem exists_snip {a m z : List Cell} (hd : d.Intact) (hparted : Cell.Parted start stop d.cells a m z)
    (hlt : start < stop) (hlength : stop ≤ d.length) :
    ∃ d', d.snip start stop = .ok d' ∧ d'.cells = Cell.fringe a ++ m ++ Cell.fringe z := by
  obtain ⟨d₁, h₁, hsource, hfirst⟩ := exists_remove (d := d) (Nat.zero_le start) (by omega)
  have hlength₁ : d₁.length = d.length := by rw [length, length, hsource]
  obtain ⟨d', h₂, -, hsecond⟩ := exists_remove (d := d₁) hlength (Nat.le_of_eq hlength₁.symm)
  refine ⟨d', by rw [snip, h₁]; exact h₂, ?_⟩
  have hahead : d₁.cells = Cell.fringe a ++ m ++ z := by
    have hinside : (Edit.remove 0 start).Inside 0 start := ⟨Nat.le_refl _, Nat.le_refl _⟩
    rw [hfirst, hparted.split, List.append_assoc, Edit.cut_ahead hparted.onward hinside (by simp),
      Cell.cut_remove hparted.ahead.within_eq, ← List.append_assoc]
  have hkept : Cell.EndBy stop (Cell.fringe a ++ m) := by
    refine Cell.EndBy.append (fun c hc o ho => ?_) fun c hc => hparted.upTo c (List.mem_append_right _ hc)
    rw [Cell.origin_of_mem_fringe hc] at ho
    cases ho
  have hinside : (Edit.remove stop d.length).Inside stop d.length := ⟨Nat.le_refl _, Nat.le_refl _⟩
  have hlast : Cell.EndBy d.length z := fun c hc =>
    hd.endBy c (hparted.split ▸ List.mem_append_right _ hc)
  rw [hsecond, hlength₁, hahead, Edit.cut_behind hkept hinside, Cell.cut_remove (hparted.behind.within_eq hlast)]

/-- In an edited draft a range that can be sliced can be snipped, and the text of the part is that of the slice, with
what was put in at both ends of what is in front of the slice and of what is behind it. So they agree just if nothing
was put in there. -/
theorem snip_agrees_with_slice (source : String) (edits : List Edit) {start stop : Nat} {text : String}
    (hlt : start < stop) (h : ((ofText source).edit edits).slice start stop = .ok text) :
    let d := (ofText source).edit edits
    let ahead := Cell.fringe (Cell.upTo (·.covers start) d.cells)
    let behind := Cell.fringe (Cell.behind (·.covers (stop - 1)) d.cells)
    ∃ d', d.snip start stop = .ok d' ∧
      d'.text = String.ofList (Cell.text ahead) ++ text ++ String.ofList (Cell.text behind) ∧
      (∀ c ∈ ahead ++ behind, c.origin = none) ∧ (d'.text = text ↔ ahead = [] ∧ behind = []) := by
  intro d ahead behind
  have hd : d.Intact := intact_edit (intact_ofText source) edits
  obtain ⟨a, m, z, hparted, rfl, ha, hz, hlength⟩ := slice_eq_ok hd hlt h
  obtain ⟨d', hsnip, hkept⟩ := exists_snip hd hparted hlt hlength
  have hahead : ahead = Cell.fringe a := congrArg Cell.fringe ha
  have hbehind : behind = Cell.fringe z := congrArg Cell.fringe hz
  rw [hahead, hbehind]
  have htext : d'.text = String.ofList (Cell.text (Cell.fringe a)) ++ String.ofList (Cell.text m) ++
      String.ofList (Cell.text (Cell.fringe z)) := by
    rw [Draft.text, hkept]
    simp only [Cell.text, List.map_append, String.ofList_append]
  refine ⟨d', hsnip, htext, fun c hc => (List.mem_append.mp hc).elim Cell.origin_of_mem_fringe
    Cell.origin_of_mem_fringe, fun h => ?_, fun hnone => ?_⟩
  · rw [htext] at h
    have hsizes := congrArg (fun s => s.toList.length) h
    simp only [String.toList_append, String.toList_ofList, List.length_append, Cell.text, List.length_map] at hsizes
    exact ⟨List.eq_nil_of_length_eq_zero (by omega), List.eq_nil_of_length_eq_zero (by omega)⟩
  · rw [htext, hnone.1, hnone.2]
    simp [Cell.text]

theorem snip_agrees_with_slice_appended :
    let d := (ofText "abcdefgh").edit [.insert 4 "_", .remove 1 2, .append "!"]
    2 < 6 ∧ d.slice 2 6 = .ok "cd_ef" ∧
      ∃ d', d.snip 2 6 = .ok d' ∧ d'.text = "" ++ "cd_ef" ++ "!" := by
  intro d
  have hslice : d.slice 2 6 = .ok "cd_ef" := by decide +kernel
  obtain ⟨d', hsnip, htext, -, -⟩ := snip_agrees_with_slice "abcdefgh"
    [.insert 4 "_", .remove 1 2, .append "!"] (by decide) hslice
  refine ⟨by decide, hslice, d', hsnip, htext.trans ?_⟩
  decide +kernel

/-- What is put in in front of everything, or in place of what stands in front of a range, is no part of the slice but
of what is snipped. -/
theorem snip_keeps_prepended :
    let d := (ofText "abc").edit [.prepend "X"]
    let e := (ofText "abc").edit [.overwrite 0 1 "XX" false]
    d.slice 1 3 = .ok "bc" ∧ (∃ d', d.snip 1 3 = .ok d' ∧ d'.text = "Xbc") ∧
      e.slice 1 3 = .ok "bc" ∧ ∃ e', e.snip 1 3 = .ok e' ∧ e'.text = "XXbc" :=
  ⟨by decide +kernel, ⟨_, rfl, by decide +kernel⟩, by decide +kernel, _, rfl, by decide +kernel⟩

end Draft

end Treeshake
