import Mathlib.Data.List.Perm.Subperm
import Treeshake.Proofs.Draft.Accepted
import Treeshake.Proofs.Table
/-!
Texts that stay whole while a draft is edited. Main statements: edits in front of a text and behind it leave it whole,
and so does trimming, if the text starts and ends with no blank, and indentation, if its line breaks are protected.
-/
set_option autoImplicit false

namespace Treeshake

namespace Cell

variable {p : Cell → Bool} {a b : List Cell} {start stop : Nat}

theorem upTo_of_none (ha : ∀ c ∈ a, p c = false) : upTo p a = a ∧ since p a = [] := by
  have hupTo := upTo_append_of_none (b := []) ha
  have hsince := since_append_of_none (b := []) ha
  rw [List.append_nil] at hupTo hsince
  exact ⟨hupTo.trans (List.append_nil a), hsince⟩

theorem forall_of_not_any (h : ¬a.any p = true) : ∀ c ∈ a, p c = false := fun c hc =>
  Bool.eq_false_iff.mpr fun hp => h (List.any_eq_true.mpr ⟨c, hc, hp⟩)

theorem filter_within_settled (offset : Nat) (x text y : List Char) :
    (settled offset (x ++ text ++ y)).filter
        (·.within (offset + Text.size x) (offset + Text.size x + Text.size text)) =
      settled (offset + Text.size x) text := by
  have hnone : ∀ {cells : List Cell} {q : Cell → Bool}, (∀ c ∈ cells, q c = false) → cells.filter q = [] :=
    fun h => List.filter_eq_nil_iff.mpr fun c hc => Bool.eq_false_iff.mp (h c hc)
  have hin : ∀ c ∈ settled (offset + Text.size x) text,
      c.within (offset + Text.size x) (offset + Text.size x + Text.size text) = true := by
    intro c hc
    obtain ⟨u, v, rfl, ho⟩ := mem_settled hc
    have := c.char.utf8Size_pos
    refine within_iff.mpr ⟨_, ho, Nat.le_add_right .., ?_⟩
    rw [Text.size_append, Text.size]
    omega
  rw [settled_append, settled_append, List.filter_append, List.filter_append, Text.size_append, ← Nat.add_assoc,
    hnone ((endBy_settled x).within (Nat.le_refl _) _), hnone ((startFrom_settled y).within (Nat.le_refl _) _),
    List.filter_eq_self.mpr hin, List.nil_append, List.append_nil]

theorem nodup_settled (offset : Nat) (text : List Char) : (settled offset text).Nodup := by
  refine (settled_pairwise offset text).imp_of_mem fun {c d} hc hd h heq => ?_
  obtain ⟨x, y, -, ho⟩ := mem_settled hc
  have := h _ _ ho (heq ▸ ho)
  have := c.char.utf8Size_pos
  omega

theorem locate?_settled {start k : Nat} {cs : List Char} (hk : k < Text.size cs) :
    locate? (start + k) (settled start cs) = some k := by
  induction cs generalizing start k with
  | nil => cases hk
  | cons c cs ih =>
    rw [Text.size] at hk
    rw [settled]
    by_cases hin : k < c.utf8Size
    · have hcovers : (⟨c, some start⟩ : Cell).covers (start + k) = true :=
        covers_iff.mpr ⟨start, rfl, Nat.le_add_right .., Nat.add_lt_add_left hin start⟩
      rw [locate?_of_covers _ hcovers rfl, Nat.add_sub_cancel_left]
    · have hnot : (⟨c, some start⟩ : Cell).covers (start + k) = false := by
        refine Bool.eq_false_iff.mpr fun hcovers => ?_
        obtain ⟨o, ho, -, hlt⟩ := covers_iff.mp hcovers
        obtain rfl := Option.some.inj ho
        exact hin (Nat.lt_of_add_lt_add_left hlt)
      have hplace : start + k = start + c.utf8Size + (k - c.utf8Size) := by omega
      rw [locate?_of_not_covers _ hnot, hplace, ih (by omega), Option.map_some, Option.some_inj]
      dsimp only
      omega

theorem locate?_whole {a b : List Cell} {start k : Nat} {cs : List Char}
    (hp : (a ++ settled start cs ++ b).Pairwise Precedes) (hk : k < Text.size cs) :
    locate? (start + k) (a ++ settled start cs ++ b) = some (Text.size (text a) + k) := by
  have hthere : locate? (start + k) (settled start cs) = some k := locate?_settled hk
  have hnone : locate? (start + k) a = none := by
    cases hfound : locate? (start + k) a with
    | none => rfl
    | some place =>
      rw [locate?_eq_none_of_append (hp.sublist (List.sublist_append_left ..)) hfound] at hthere
      cases hthere
  rw [List.append_assoc, locate?_append, hnone, locate?_append, hthere, Option.none_or, Option.some_or, Option.map_some]

/-- Cells that hold a text whole, between what comes from in front of it and what comes from behind it. -/
def Framed (start : Nat) (text : List Char) (cells : List Cell) : Prop :=
  ∃ a b, EndBy start a ∧ StartFrom (start + Text.size text) b ∧ cells = a ++ settled start text ++ b

theorem Framed.whole {start : Nat} {text : List Char} {cells : List Cell} (h : Framed start text cells) :
    settled start text <:+: cells := by
  obtain ⟨a, b, -, -, rfl⟩ := h
  exact ⟨a, b, rfl⟩

section
variable (unit : List Cell) (isProtected : Nat → Bool)

theorem indent_append (due : Bool) (place : Nat) (a : List Cell) : ∃ due', ∀ b,
    indent unit isProtected due place (a ++ b) =
      indent unit isProtected due place a ++ indent unit isProtected due' (place + Text.size (text a)) b := by
  induction a generalizing due place with
  | nil => exact ⟨due, fun _ => rfl⟩
  | cons c a ih =>
    obtain ⟨due', h⟩ := ih (Text.isBreak c.char && !isProtected place) (place + c.char.utf8Size)
    refine ⟨due', fun b => ?_⟩
    have hplace : place + Text.size (text (c :: a)) = place + c.char.utf8Size + Text.size (text a) :=
      (Nat.add_assoc ..).symm
    rw [List.cons_append, indent, indent, h, hplace, List.append_assoc, List.cons_append]

theorem indent_protected {cells : List Cell} {place : Nat}
    (h : ∀ x c y, cells = x ++ c :: y → Text.isBreak c.char = true → isProtected (place + Text.size (text x)) = true)
    (b : List Cell) : indent unit isProtected false place (cells ++ b) =
      cells ++ indent unit isProtected false (place + Text.size (text cells)) b := by
  induction cells generalizing place with
  | nil => rfl
  | cons c cells ih =>
    have hdue : (Text.isBreak c.char && !isProtected place) = false := by
      cases hbreak : Text.isBreak c.char with
      | false => rfl
      | true =>
        rw [show isProtected place = true from h [] c cells rfl hbreak]
        rfl
    have hplace : place + Text.size (text (c :: cells)) = place + c.char.utf8Size + Text.size (text cells) :=
      (Nat.add_assoc ..).symm
    rw [List.cons_append, indent, hdue, ih fun x d y hsplit hbreak => ?_, hplace]
    · rfl
    · have hnext := h (c :: x) d y (congrArg (c :: ·) hsplit) hbreak
      have hx : place + Text.size (text (c :: x)) = place + c.char.utf8Size + Text.size (text x) :=
        (Nat.add_assoc ..).symm
      rwa [hx] at hnext

theorem indent_whole {a b : List Cell} {start place : Nat} {c : Char} {cs : List Char} (due : Bool)
    (hc : Text.isBreak c = false)
    (h : ∀ x d y, cs = x ++ d :: y → Text.isBreak d = true →
      isProtected (place + Text.size (text a) + c.utf8Size + Text.size x) = true) :
    settled start (c :: cs) <:+: indent unit isProtected due place (a ++ settled start (c :: cs) ++ b) := by
  obtain ⟨due', hsplit⟩ := indent_append unit isProtected due place a
  have hrest : indent unit isProtected false (place + Text.size (text a) + c.utf8Size)
      (settled (start + c.utf8Size) cs ++ b) = settled (start + c.utf8Size) cs ++
        indent unit isProtected false (place + Text.size (text a) + c.utf8Size + Text.size cs) b := by
    rw [indent_protected unit isProtected fun x d y hcells hbreak => ?_, text_settled]
    have hcs := congrArg text hcells
    rw [text_settled, text, List.map_append, List.map_cons] at hcs
    exact h _ _ _ hcs hbreak
  have hhead : settled start (c :: cs) ++ b = ⟨c, some start⟩ :: (settled (start + c.utf8Size) cs ++ b) := rfl
  rw [List.append_assoc, hsplit, hhead, indent]
  simp only [hc, Bool.false_and]
  rw [hrest, ← List.append_assoc, ← List.cons_append]
  exact ⟨_, _, List.append_assoc ..⟩

end

end Cell

namespace Edit

variable {first start stop last : Nat} {text : List Char} {cells : List Cell} {e : Edit} {es : List Edit}

/-- An edit in front of a range of the first text, or behind it. -/
def Avoids (first start stop last : Nat) (e : Edit) : Prop := e.Inside first start ∨ e.Inside stop last

section
variable (htext : text ≠ []) (h : Cell.Framed start text cells)
include htext h

theorem framed_insert {offset : Nat} (hoffset : offset ≤ start) (new : String) :
    Cell.Framed start text ((Edit.insert offset new).cut last cells) := by
  obtain ⟨a, b, ha, hb, rfl⟩ := h
  have hrest : Cell.StartFrom start (Cell.settled start text ++ b) :=
    (Cell.startFrom_settled text).append (hb.mono (Nat.le_add_right ..))
  have hfresh : Cell.StartFrom (start + Text.size text) (b ++ Cell.fresh new.toList) :=
    hb.append (Cell.startFrom_fresh _)
  have hkept : Cell.EndBy start ((Edit.insert offset new).cut last a) :=
    fun c hc o ho => ha c (mem_cut hc (by rw [ho]; rfl)) o ho
  rw [cut] at hkept ⊢
  split at hkept
  · next hend =>
    rw [if_pos hend]
    exact ⟨a, _, ha, hfresh, List.append_assoc ..⟩
  · next hend =>
    rw [if_neg hend, List.append_assoc a]
    by_cases hany : a.any (·.covers offset) = true
    · refine ⟨_, b, hkept, hb, ?_⟩
      rw [Cell.upTo_append_of_any hany, Cell.since_append_of_any hany]
      simp only [List.append_assoc]
    · have hnone := Cell.forall_of_not_any hany
      rw [Cell.upTo_append_of_none hnone, Cell.since_append_of_none hnone]
      rcases Nat.lt_or_ge offset start with hlt | hge
      · -- nothing holds the byte, so the text goes to the end
        obtain ⟨hupTo, hsince⟩ := Cell.upTo_of_none (hrest.covers hlt)
        refine ⟨a, _, ha, hfresh, ?_⟩
        rw [hupTo, hsince, List.append_nil]
        simp only [List.append_assoc]
      · obtain ⟨c, cs, rfl⟩ := List.exists_cons_of_ne_nil htext
        obtain rfl : offset = start := Nat.le_antisymm hoffset hge
        have hc : (⟨c, some offset⟩ : Cell).covers offset = true :=
          Cell.covers_iff.mpr ⟨offset, rfl, Nat.le_refl _, Nat.lt_add_of_pos_right c.utf8Size_pos⟩
        have hhead : Cell.settled offset (c :: cs) ++ b =
            [] ++ ⟨c, some offset⟩ :: (Cell.settled (offset + c.utf8Size) cs ++ b) := rfl
        refine ⟨a ++ Cell.fresh new.toList, b, ha.append (Cell.endBy_fresh _), hb, ?_⟩
        rw [hhead, Cell.upTo_eq (List.forall_mem_nil _) hc, Cell.since_eq (List.forall_mem_nil _) hc]
        simp only [List.append_assoc, List.append_nil]
        rfl

theorem framed_cut_front (hfront : e.Inside first start) : Cell.Framed start text (e.cut last cells) := by
  obtain ⟨a, b, ha, hb, rfl⟩ := id h
  have hrest : Cell.StartFrom start (Cell.settled start text ++ b) :=
    (Cell.startFrom_settled text).append (hb.mono (Nat.le_add_right ..))
  have hkept : Cell.EndBy start (e.cut last a) := fun c hc o ho => ha c (mem_cut hc (by rw [ho]; rfl)) o ho
  cases e with
  | insert offset new => exact framed_insert htext h hfront.2 new
  | overwrite | remove =>
    refine ⟨_, b, hkept, hb, ?_⟩
    rw [List.append_assoc, List.append_assoc, cut_ahead hrest hfront nofun]
  | anchor | protect => exact h
  | _ => exact hfront.elim

/-- An edit in front of a text or behind it leaves the text whole. -/
theorem framed_cut (he : e.Avoids first start (start + Text.size text) last) :
    Cell.Framed start text (e.cut last cells) := by
  rcases he with hfront | hbehind
  · exact framed_cut_front htext h hfront
  · obtain ⟨a, b, ha, hb, rfl⟩ := h
    have hends : Cell.EndBy (start + Text.size text) (a ++ Cell.settled start text) :=
      (ha.mono (Nat.le_add_right ..)).append (Cell.endBy_settled text)
    exact ⟨a, _, ha, startFrom_cut hb, cut_behind hends hbehind⟩

end

theorem framed_cuts (htext : text ≠ []) (h : Cell.Framed start text cells)
    (hes : ∀ e ∈ es, e.Avoids first start (start + Text.size text) last) :
    Cell.Framed start text (cuts last cells es) := by
  induction es generalizing cells with
  | nil => exact h
  | cons e es ih =>
    obtain ⟨he, hes⟩ := List.forall_mem_cons.mp hes
    exact ih (framed_cut htext h he) hes

end Edit

namespace Draft

variable {d : Draft} {start stop : Nat} {x text y : List Char}

theorem Bare.stretch_of_live (h : d.Bare) (hsource : d.source.toList = x ++ text ++ y)
    (hlive : ∀ k, Text.size x ≤ k → k < Text.size x + Text.size text → d.Live k) :
    d.stretch (Text.size x) (Text.size x + Text.size text) = Cell.settled (Text.size x) text := by
  have hsettled := Cell.filter_within_settled 0 x text y
  rw [Nat.zero_add, ← hsource] at hsettled
  have hsub : (d.stretch (Text.size x) (Text.size x + Text.size text)).Sublist (Cell.settled (Text.size x) text) :=
    hsettled ▸ h.filter _
  have hall : Cell.settled (Text.size x) text ⊆ d.stretch (Text.size x) (Text.size x + Text.size text) := by
    intro c hc
    have hmem : c ∈ (Cell.settled 0 d.source.toList).filter
        (·.within (Text.size x) (Text.size x + Text.size text)) := hsettled ▸ hc
    obtain ⟨hfirst, hwithin⟩ := List.mem_filter.mp hmem
    obtain ⟨o, ho, hle, hlt⟩ := Cell.within_iff.mp hwithin
    have hlength : Text.size x + Text.size text ≤ d.length := by
      rw [length, hsource, Text.size_append, Text.size_append]
      exact Nat.le_add_right ..
    have hthere := hlive o hle hlt (Nat.lt_of_lt_of_le hlt hlength)
    rw [locate?, Cell.isSome_locate?] at hthere
    obtain ⟨c', hc', hcovers⟩ := List.any_eq_true.mp hthere
    -- of the cells of the first text, one alone holds the byte
    have hsame : c' = c := Cell.eq_of_covers (Cell.settled_pairwise 0 _) (h.subset hc') hfirst hcovers
      (Cell.covers_iff.mpr ⟨o, ho, Nat.le_refl _, Nat.lt_add_of_pos_right c.char.utf8Size_pos⟩)
    exact List.mem_filter.mpr ⟨hsame ▸ hc', hwithin⟩
  exact hsub.eq_of_length_le (List.subperm_of_subset (Cell.nodup_settled _ _) hall).length_le

theorem protectedRanges_apply {d' : Draft} {e : Edit} (hd : d.Intact) (h : e.apply d = .ok d') :
    d.protectedRanges ⊆ d'.protectedRanges := by
  have hremove : ∀ {d d' : Draft} {start stop : Nat}, d.remove start stop = .ok d' →
      d'.protectedRanges = d.protectedRanges := fun h => by
    obtain ⟨-, -, ⟨-, rfl⟩ | ⟨_, _, _, -, rfl, -⟩⟩ := remove_eq_ok h <;> rfl
  cases e with
  | insert offset text =>
    obtain ⟨-, rfl⟩ | ⟨-, _, _, _, -, -, -, rfl⟩ := insert_eq_ok h <;> exact List.Subset.refl _
  | overwrite start stop text storeName =>
    obtain ⟨-, -, _, _, _, _, -, rfl, -⟩ := overwrite_eq_ok hd h
    exact List.Subset.refl _
  | remove start stop => exact hremove h ▸ List.Subset.refl _
  | keep start stop =>
    obtain ⟨d₁, h₁, h₂⟩ := snip_eq_ok h
    exact (hremove h₂).trans (hremove h₁) ▸ List.Subset.refl _
  | protect start stop => exact Except.ok.inj h ▸ List.subset_append_left _ _
  | _ => exact Except.ok.inj h ▸ List.Subset.refl _

theorem protects_revise {d' : Draft} {es : List Edit} (hd : d.Intact) (h : d.revise es = .ok d') :
    d'.Intact ∧ d.protectedRanges ⊆ d'.protectedRanges ∧
      ∀ start stop, .protect start stop ∈ es → (start, stop) ∈ d'.protectedRanges := by
  induction es generalizing d with
  | nil =>
    obtain rfl := Except.ok.inj h
    exact ⟨hd, List.Subset.refl _, nofun⟩
  | cons e es ih =>
    rw [revise, List.foldlM_cons] at h
    obtain ⟨d₁, hfirst, h⟩ := bind_eq_ok.mp h
    obtain ⟨hintact, hrest, hes⟩ := ih (intact_apply hd hfirst) h
    refine ⟨hintact, List.Subset.trans (protectedRanges_apply hd hfirst) hrest, fun start stop hmem => ?_⟩
    rcases List.mem_cons.mp hmem with rfl | hmem
    · refine hrest ?_
      obtain rfl := Except.ok.inj hfirst
      exact List.mem_append_right _ (List.mem_singleton_self _)
    · exact hes start stop hmem

theorem isBreak_of_not_blank {c : Char} (h : Text.isBlank c = false) : Text.isBreak c = false := by
  refine Bool.eq_false_iff.mpr fun hbreak => ?_
  rw [Text.isBreak, Bool.or_eq_true, beq_iff_eq, beq_iff_eq] at hbreak
  rcases hbreak with rfl | rfl <;> exact absurd h (by decide)

theorem dropWhile_append_cons {α : Type} {p : α → Bool} {c : α} (hc : p c = false) (a b : List α) :
    (a ++ c :: b).dropWhile p = a.dropWhile p ++ c :: b := by
  induction a with
  | nil => exact List.dropWhile_cons_of_neg (Bool.eq_false_iff.mp hc)
  | cons d a ih =>
    rw [List.cons_append, List.dropWhile_cons, List.dropWhile_cons, ih]
    split <;> rfl

theorem whole_trimStart {p : Char → Bool} {c : Char} {cs : List Char} (hc : p c = false)
    (h : Cell.settled start (c :: cs) <:+: d.cells) : Cell.settled start (c :: cs) <:+: (d.trimStart p).cells := by
  obtain ⟨a, b, hcells⟩ := h
  have hkept : (d.trimStart p).cells = a.dropWhile (p ·.char) ++ (Cell.settled start (c :: cs) ++ b) := by
    rw [trimStart, ← hcells, List.append_assoc]
    exact dropWhile_append_cons (p := fun x : Cell => p x.char) (c := ⟨c, some start⟩) hc a _
  exact ⟨_, b, (List.append_assoc ..).trans hkept.symm⟩

theorem whole_trimEnd {p : Char → Bool} {c : Char} {cs : List Char} (hc : p c = false)
    (h : Cell.settled start (cs ++ [c]) <:+: d.cells) : Cell.settled start (cs ++ [c]) <:+: (d.trimEnd p).cells := by
  obtain ⟨a, b, hcells⟩ := h
  have hend : Cell.settled start (cs ++ [c]) = Cell.settled start cs ++ [⟨c, some (start + Text.size cs)⟩] :=
    Cell.settled_append ..
  have hreverse : d.cells.reverse =
      b.reverse ++ ⟨c, some (start + Text.size cs)⟩ :: (a ++ Cell.settled start cs).reverse := by
    rw [← hcells, hend]
    simp
  refine ⟨a, (b.reverse.dropWhile (p ·.char)).reverse, ?_⟩
  rw [trimEnd, hreverse]
  dsimp only
  rw [dropWhile_append_cons (p := fun x : Cell => p x.char) (c := ⟨c, some (start + Text.size cs)⟩) hc, hend]
  simp

theorem mem_places {a b : List Cell} {ranges : List (Nat × Nat)} {i j : Nat} (hd : d.Intact)
    (hcells : d.cells = a ++ Cell.settled start text ++ b) (hij : i < j) (hj : j ≤ Text.size text)
    (hrange : (start + i, start + j) ∈ ranges) :
    (Text.size (Cell.text a) + i, Text.size (Cell.text a) + (j - 1)) ∈ d.places ranges := by
  have hp := hd.pairwise
  rw [hcells] at hp
  refine List.mem_filterMap.mpr ⟨_, List.mem_filter.mpr ⟨hrange, decide_eq_true (by omega)⟩, ?_⟩
  have hfirst := Cell.locate?_whole hp (k := i) (by omega)
  have hlast := Cell.locate?_whole hp (k := j - 1) (by omega)
  rw [locate?, locate?, hcells, Nat.add_sub_assoc (by omega), hfirst, hlast]
  rfl

/-- A draft holds a text between two marks of one byte that are no blanks, the first at an offset of the first text, as
it was there, and protects its line breaks if a unit that is put behind line breaks is not empty. -/
structure Guards (unit : String) (start : Nat) (first : Char) (inner : List Char) (last : Char) (d : Draft) : Prop where
  intact : d.Intact
  whole : Cell.settled start (first :: inner ++ [last]) <:+: d.cells
  marks : first.utf8Size = 1 ∧ Text.isBlank first = false ∧ Text.isBlank last = false
  breaks : unit ≠ "" → (∃ c ∈ inner, Text.isBreak c = true) →
    (start + 1, start + 1 + Text.size inner) ∈ d.protectedRanges

namespace Guards

variable {unit : String} {first last : Char} {inner : List Char}

theorem trimStart (h : d.Guards unit start first inner last) :
    (d.trimStart Text.isBlank).Guards unit start first inner last :=
  ⟨intact_trimStart _ h.intact, whole_trimStart h.marks.2.1 h.whole, h.marks, h.breaks⟩

theorem trimEnd (h : d.Guards unit start first inner last) :
    (d.trimEnd Text.isBlank).Guards unit start first inner last :=
  ⟨intact_trimEnd _ h.intact, whole_trimEnd h.marks.2.2 h.whole, h.marks, h.breaks⟩

theorem indent (h : d.Guards unit start first inner last) (atStart : Bool) :
    (d.indent unit d.protectedRanges atStart).Guards unit start first inner last := by
  refine ⟨intact_indent _ _ _ h.intact, ?_, h.marks, h.breaks⟩
  obtain ⟨hone, hblank, hblank'⟩ := h.marks
  obtain ⟨a, b, hcells⟩ := h.whole
  rw [Draft.indent]
  dsimp only
  by_cases hunit : unit = ""
  · rw [hunit, show Cell.fresh "".toList = [] from rfl, Cell.indent_nil]
    exact h.whole
  · rw [← hcells]
    refine Cell.indent_whole _ _ _ (isBreak_of_not_blank hblank) fun x c y hsplit hbreak => ?_
    -- the last mark is no line break, so the break stands in front of it
    obtain ⟨y, rfl⟩ : ∃ y', inner = x ++ c :: y' := by
      rcases concat_split hsplit with ⟨-, hlast, -⟩ | ⟨y', -, hinner⟩
      · rw [← hlast, isBreak_of_not_blank hblank'] at hbreak
        cases hbreak
      · exact ⟨y', hinner⟩
    have hpos := c.utf8Size_pos
    have hin : Text.size x + c.utf8Size ≤ Text.size (x ++ c :: y) := by
      rw [Text.size_append, Text.size]
      omega
    have hsize : Text.size (first :: (x ++ c :: y) ++ [last]) = 1 + Text.size (x ++ c :: y) + Text.size [last] := by
      rw [Text.size_append, ← hone]
      rfl
    have hrange := h.breaks hunit ⟨c, List.mem_append_right _ List.mem_cons_self, hbreak⟩
    rw [Nat.add_assoc] at hrange
    refine List.any_eq_true.mpr ⟨_, mem_places h.intact hcells.symm (by omega) (by omega) hrange, ?_⟩
    rw [Bool.and_eq_true, decide_eq_true_eq, decide_eq_true_eq]
    omega

end Guards

end Draft

end Treeshake
