import Treeshake.Proofs.Draft.Cells
/-!
Edits of drafts. Main statement: whatever was edited, what survives of the first text are some of its
characters, each with its offset, in their order.
-/
set_option autoImplicit false

namespace Treeshake

/-- The changes a draft can undergo. `keep` makes the draft the part of it that a range left. -/
inductive Edit where
  | append (text : String)
  | prepend (text : String)
  | insert (offset : Nat) (text : String)
  | overwrite (start stop : Nat) (text : String) (storeName : Bool)
  | remove (start stop : Nat)
  | keep (start stop : Nat)
  | indent (unit : String) (ranges : List (Nat × Nat)) (atStart : Bool)
  | trim
  | trimLines
  | anchor (offset : Nat)
  | protect (start stop : Nat)
  deriving DecidableEq, Repr

def Edit.apply (d : Draft) : Edit → Except EditFault Draft
  | .append text => .ok (d.append text)
  | .prepend text => .ok (d.prepend text)
  | .insert offset text => d.insert offset text
  | .overwrite start stop text storeName => d.overwrite start stop text storeName
  | .remove start stop => d.remove start stop
  | .keep start stop => d.snip start stop
  | .indent unit ranges atStart => .ok (d.indent unit ranges atStart)
  | .trim => .ok d.trim
  | .trimLines => .ok d.trimLines
  | .anchor offset => .ok (d.anchor offset)
  | .protect start stop => .ok (d.protect start stop)

/-- Edits one after the other. One that is refused changes nothing. -/
def Draft.edit (d : Draft) : List Edit → Draft
  | [] => d
  | e :: es => ((e.apply d).toOption.getD d).edit es

namespace Draft

/-- What survives is as it was: the cells of the first text, but for those that went. -/
def Intact (d : Draft) : Prop :=
  (Cell.survivors d.cells).Sublist (Cell.settled 0 d.source.toList)

theorem intact_ofText (source : String) : (ofText source).Intact := by
  simp [Intact, ofText, Cell.survivors_settled]

theorem Intact.pairwise {d : Draft} (h : d.Intact) : d.cells.Pairwise Cell.Precedes :=
  Cell.pairwise_of_survivors ((Cell.settled_pairwise 0 d.source.toList).sublist h)

theorem Intact.mem_settled {d : Draft} (h : d.Intact) {c : Cell} (hc : c ∈ d.cells)
    (ho : c.origin.isSome = true) : c ∈ Cell.settled 0 d.source.toList :=
  h.subset (List.mem_filter.mpr ⟨hc, ho⟩)

theorem Intact.of_sublist {d d' : Draft} (h : d.Intact) (hs : d'.source = d.source)
    (hc : (Cell.survivors d'.cells).Sublist (Cell.survivors d.cells)) : d'.Intact := by
  rw [Intact, hs]
  exact hc.trans h

theorem insert_eq_ok {d d' : Draft} {offset : Nat} {text : String}
    (h : d.insert offset text = .ok d') :
    (offset = d.length ∧ d' = d.append text) ∨
    (offset < d.length ∧ ∃ a c z, d.cells = a ++ c :: z ∧ (∀ x ∈ a, x.covers offset = false) ∧
      c.covers offset = true ∧ d' = { d with cells := a ++ Cell.fresh text.toList ++ c :: z }) := by
  unfold insert at h
  split at h
  · next hl => exact .inl ⟨hl, (Except.ok.inj h).symm⟩
  · next hl =>
    split at h
    · cases h
    · next hb =>
      split at h
      · cases h
      · next hs =>
        have hany : d.cells.any (·.covers offset) = true := by
          rw [← Cell.isSome_locate?, ← Option.ne_none_iff_isSome]
          simpa [locate?] using hs
        obtain ⟨a, c, z, hcells, ha, hc⟩ := Cell.exists_first hany
        refine .inr ⟨by omega, a, c, z, hcells, ha, hc, ?_⟩
        rw [← Except.ok.inj h, hcells, Cell.upTo_eq ha hc, Cell.since_eq ha hc]

theorem exists_between {d : Draft} (hd : d.Intact) {start stop : Nat} {first last : Cell} (hlt : start < stop)
    (hfirst : d.cellAt? start = some first) (hlast : d.cellAt? (stop - 1) = some last)
    (hstarts : first.startsAt start = true) :
    ∃ a b m z, d.cells = a ++ first :: b ∧ a ++ first :: b = a ++ (m ++ [last]) ++ z ∧
      Cell.upTo (·.covers start) d.cells = a ∧ Cell.behind (·.covers (stop - 1)) d.cells = z := by
  obtain ⟨hc, a, b, hcells, ha⟩ := List.find?_eq_some_iff_append.mp hfirst
  replace ha : ∀ x ∈ a, x.covers start = false := by simpa using ha
  have hstart : first.origin = some start := by simpa [Cell.startsAt] using hstarts
  have hl : last.covers (stop - 1) = true := List.find?_some hlast
  have hmem : last ∈ d.cells := List.mem_of_find?_eq_some hlast
  have hp := hd.pairwise
  rw [hcells] at hp hmem
  obtain ⟨o, ho, hle, hlt⟩ := Cell.covers_iff.mp hl
  -- the last byte of the range cannot stand in front of its first byte
  have hq : (first :: b).any (·.covers (stop - 1)) = true := by
    rcases List.mem_append.mp hmem with hx | hx
    · have := (List.pairwise_append.mp hp).2.2 last hx first (by simp) o start ho hstart
      omega
    · exact List.any_eq_true.mpr ⟨last, hx, hl⟩
  obtain ⟨m, e, z, hspan, he, hz, hu, hbeh⟩ := Cell.exists_span ha hc hq
  obtain rfl : e = last := Cell.eq_of_covers hp (by simp [hspan]) hmem he hl
  exact ⟨a, b, m, z, hcells, hspan, hcells ▸ hu, hcells ▸ hbeh⟩

/-- Overwriting cuts out the stretch from the first byte of the range to the last. -/
theorem overwrite_eq_ok {d d' : Draft} {start stop : Nat} {text : String} {storeName : Bool}
    (hd : d.Intact) (h : d.overwrite start stop text storeName = .ok d') :
    start < stop ∧ stop ≤ d.length ∧ ∃ a m z names, d.cells = a ++ m ++ z ∧
      d' = { d with names, cells := a ++ Cell.fresh text.toList ++ z } ∧
      d.locate? start = some (Text.size (Cell.text a)) ∧
      d.locate? (stop - 1) = some (Text.size (Cell.text a) + Text.size (Cell.text m) - 1) ∧
      0 < Text.size (Cell.text m) := by
  unfold overwrite at h
  split at h
  · cases h
  · next hr =>
    split at h
    · cases h
    · next hb =>
      split at h
      · next first last hfirst hlast =>
        split at h
        · next hends =>
          rw [Bool.and_eq_true] at hends
          obtain ⟨a, b, m, z, hcells, hspan, hu, hbeh⟩ := exists_between hd (Nat.not_le.mp hr) hfirst hlast hends.1
          have hstart : first.origin = some start := by simpa [Cell.startsAt] using hends.1
          have hl : last.covers (stop - 1) = true := List.find?_some hlast
          obtain ⟨o, ho, hle, hlt⟩ := Cell.covers_iff.mp hl
          have hp := hd.pairwise
          rw [hcells] at hp
          have hend : o + last.char.utf8Size = stop := by simpa [Cell.endsAt, ho] using hends.2
          have hsize : Text.size (Cell.text (m ++ [last])) = Text.size (Cell.text m) + last.char.utf8Size := by
            simp [Cell.text, Text.size]
          have hpos := last.char.utf8Size_pos
          refine ⟨by omega, by omega, a, m ++ [last], z,
            if storeName then d.nameRange start stop else d.names, hcells.trans hspan, ?_, ?_, ?_, ?_⟩
          · rw [← Except.ok.inj h, hu, hbeh]
          · rw [locate?, hcells]
            exact Cell.locate?_of_split (k := 0) hp hstart first.char.utf8Size_pos
          · have hsplit : a ++ first :: b = (a ++ m) ++ last :: z := by simp [hspan]
            have hk : stop - 1 = o + (last.char.utf8Size - 1) := by omega
            rw [locate?, hcells, hsplit, hk, Cell.locate?_of_split (hsplit ▸ hp) ho (by omega), hsize,
              Cell.size_append, Option.some.injEq]
            omega
          · omega
        · cases h
      · cases h

/-- Removal cuts out the stretch from the first survivor of the range to the last. -/
theorem remove_eq_ok {d d' : Draft} {start stop : Nat} (h : d.remove start stop = .ok d') :
    start ≤ stop ∧ stop ≤ d.length ∧
    ((d.cells.any (·.within start stop) = false ∧ d' = d) ∨
      ∃ a m z, d.cells = a ++ m ++ z ∧ d' = { d with cells := a ++ z } ∧
        (∀ x ∈ a, x.within start stop = false) ∧ (∀ x ∈ z, x.within start stop = false) ∧
        (∃ c l, m = c :: l ∧ c.within start stop = true) ∧
        (∃ l e, m = l ++ [e] ∧ e.within start stop = true)) := by
  unfold remove at h
  split at h
  · cases h
  · next hr =>
    split at h
    · cases h
    · next hb =>
      refine ⟨by omega, by omega, ?_⟩
      split at h
      · next hany =>
        obtain ⟨a, c, b, hcells, ha, hc⟩ := Cell.exists_first hany
        obtain ⟨m, e, z, hspan, he, hz, hu, hbeh⟩ :=
          Cell.exists_span (q := (·.within start stop)) ha hc (by simp [hc])
        refine .inr ⟨a, m ++ [e], z, by rw [hcells, hspan], ?_, ha, hz, ?_, ⟨m, e, rfl, he⟩⟩
        · rw [← Except.ok.inj h, hcells, hu, hbeh]
        · rw [List.append_assoc, List.append_cancel_left_eq] at hspan
          cases m with
          | nil =>
            obtain ⟨rfl, -⟩ := List.cons.inj hspan
            exact ⟨_, [], rfl, hc⟩
          | cons f m =>
            obtain ⟨rfl, -⟩ := List.cons.inj hspan
            exact ⟨_, m ++ [e], rfl, hc⟩
      · next hnone => exact .inl ⟨Bool.eq_false_iff.mpr hnone, (Except.ok.inj h).symm⟩

theorem intact_insert {d d' : Draft} {offset : Nat} {text : String} (hd : d.Intact)
    (h : d.insert offset text = .ok d') : d'.Intact := by
  obtain ⟨-, rfl⟩ | ⟨-, a, c, z, hcells, -, -, rfl⟩ := insert_eq_ok h
  · exact hd.of_sublist rfl (by simp [append])
  · exact hd.of_sublist rfl (by simp [hcells])

theorem intact_overwrite {d d' : Draft} {start stop : Nat} {text : String} {storeName : Bool}
    (hd : d.Intact) (h : d.overwrite start stop text storeName = .ok d') : d'.Intact := by
  obtain ⟨-, -, a, m, z, names, hcells, rfl, -⟩ := overwrite_eq_ok hd h
  exact hd.of_sublist rfl (by simp [hcells])

theorem intact_remove {d d' : Draft} {start stop : Nat} (hd : d.Intact)
    (h : d.remove start stop = .ok d') : d'.Intact := by
  obtain ⟨-, -, ⟨-, rfl⟩ | ⟨a, m, z, hcells, rfl, -⟩⟩ := remove_eq_ok h
  · exact hd
  · exact hd.of_sublist rfl (by simp [hcells])

theorem snip_eq_ok {d d' : Draft} {start stop : Nat} (h : d.snip start stop = .ok d') :
    ∃ d₁, d.remove 0 start = .ok d₁ ∧ d₁.remove stop d.length = .ok d' := by
  unfold snip at h
  cases hr : d.remove 0 start with
  | error e => simp [hr, bind, Except.bind] at h
  | ok d₁ => exact ⟨d₁, rfl, by simpa [hr, bind, Except.bind] using h⟩

theorem intact_snip {d d' : Draft} {start stop : Nat} (hd : d.Intact)
    (h : d.snip start stop = .ok d') : d'.Intact := by
  obtain ⟨d₁, h₁, h₂⟩ := snip_eq_ok h
  exact intact_remove (intact_remove hd h₁) h₂

theorem intact_trimStart {d : Draft} (p : Char → Bool) (hd : d.Intact) : (d.trimStart p).Intact :=
  hd.of_sublist rfl (Cell.survivors_sublist (List.dropWhile_sublist _))

theorem intact_trimEnd {d : Draft} (p : Char → Bool) (hd : d.Intact) : (d.trimEnd p).Intact := by
  refine hd.of_sublist rfl (Cell.survivors_sublist ?_)
  have h := (List.dropWhile_sublist (p ·.char) (l := d.cells.reverse)).reverse
  rwa [List.reverse_reverse] at h

theorem intact_indent {d : Draft} (unit : String) (ranges : List (Nat × Nat)) (atStart : Bool)
    (hd : d.Intact) : (d.indent unit ranges atStart).Intact :=
  hd.of_sublist rfl (by simp [indent, Cell.survivors_indent])

theorem intact_apply {d d' : Draft} {e : Edit} (hd : d.Intact) (h : e.apply d = .ok d') :
    d'.Intact := by
  cases e with
  | append text =>
    obtain rfl := Except.ok.inj h
    exact hd.of_sublist rfl (by simp [append])
  | prepend text =>
    obtain rfl := Except.ok.inj h
    exact hd.of_sublist rfl (by simp [prepend])
  | insert offset text => exact intact_insert hd h
  | overwrite start stop text storeName => exact intact_overwrite hd h
  | remove start stop => exact intact_remove hd h
  | keep start stop => exact intact_snip hd h
  | indent unit ranges atStart => exact Except.ok.inj h ▸ intact_indent unit ranges atStart hd
  | trim => exact Except.ok.inj h ▸ intact_trimEnd _ (intact_trimStart _ hd)
  | trimLines => exact Except.ok.inj h ▸ intact_trimEnd _ (intact_trimStart _ hd)
  | anchor offset => exact Except.ok.inj h ▸ hd
  | protect start stop => exact Except.ok.inj h ▸ hd

theorem source_remove {d d' : Draft} {start stop : Nat} (h : d.remove start stop = .ok d') :
    d'.source = d.source := by
  obtain ⟨-, -, ⟨-, rfl⟩ | ⟨a, m, z, -, rfl, -⟩⟩ := remove_eq_ok h <;> rfl

theorem source_insert {d d' : Draft} {offset : Nat} {text : String} (h : d.insert offset text = .ok d') :
    d'.source = d.source := by
  obtain ⟨-, rfl⟩ | ⟨-, a, c, z, -, -, -, rfl⟩ := insert_eq_ok h <;> rfl

theorem source_overwrite {d d' : Draft} {start stop : Nat} {text : String} {storeName : Bool}
    (h : d.overwrite start stop text storeName = .ok d') : d'.source = d.source := by
  unfold overwrite at h
  split at h
  · cases h
  · split at h
    · cases h
    · split at h
      · split at h
        · exact Except.ok.inj h ▸ rfl
        · cases h
      · cases h

theorem source_apply {d d' : Draft} {e : Edit} (hd : d.Intact) (h : e.apply d = .ok d') :
    d'.source = d.source := by
  cases e with
  | insert offset text => exact source_insert h
  | overwrite start stop text storeName =>
    obtain ⟨-, -, a, m, z, names, -, rfl, -⟩ := overwrite_eq_ok hd h
    rfl
  | remove start stop => exact source_remove h
  | keep start stop =>
    obtain ⟨d₁, h₁, h₂⟩ := snip_eq_ok h
    rw [source_remove h₂, source_remove h₁]
  | _ => exact Except.ok.inj h ▸ rfl

theorem source_edit {d : Draft} (hd : d.Intact) (es : List Edit) : (d.edit es).source = d.source := by
  induction es generalizing d with
  | nil => rfl
  | cons e es ih =>
    cases h : e.apply d with
    | error f => simpa [edit, h, Except.toOption] using ih hd
    | ok d' =>
      rw [← source_apply hd h]
      simpa [edit, h, Except.toOption] using ih (intact_apply hd h)

theorem intact_edit {d : Draft} (hd : d.Intact) (es : List Edit) : (d.edit es).Intact := by
  induction es generalizing d with
  | nil => exact hd
  | cons e es ih =>
    cases h : e.apply d with
    | error f => simpa [edit, h, Except.toOption] using ih hd
    | ok d' => simpa [edit, h, Except.toOption] using ih (intact_apply hd h)

end Draft

end Treeshake
