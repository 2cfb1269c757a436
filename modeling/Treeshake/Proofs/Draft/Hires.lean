import Treeshake.Proofs.Draft.Map
import Treeshake.Proofs.Draft.Places
import Treeshake.Proofs.SourceMap.Collapse
/-!
Detailed maps of drafts. Every surviving character starts a segment of its own there, and the segments of a line
are sorted, so looking for the place where the character now stands finds the place where it stood. Main
statement: through the detailed maps of drafts, each of the text that the one before it left, the place of a
character that survives all of them leads to where it stood in the first text.
-/
set_option autoImplicit false

namespace Treeshake

open Assembly

theorem Text.split_unique {x y a b : List Char} {c d : Char} (h : x ++ c :: y = a ++ d :: b)
    (hsize : size x = size a) : x = a ∧ c = d := by
  have hprefix := before?_size_append x (c :: y)
  rw [h, hsize, before?_size_append] at hprefix
  obtain rfl := Option.some.inj hprefix
  exact ⟨rfl, (List.cons.inj (List.append_cancel_left h)).1⟩

namespace SourceMap

/-- A place, by line and column, is where a text ends. -/
def Behind (at_ : UInt32 × UInt32) (x : List Char) : Prop :=
  at_.1.toNat = Text.breaks x ∧ at_.2.toNat = Text.units (Text.lastLine x)

theorem placeIn_append {left right : List Segment} {s : Segment} (hleft : ∀ t ∈ left, t.column < s.column)
    (hs : s.source = 0) :
    placeIn s.column (left ++ s :: right) = .ok (some (s.sourceLine, s.sourceColumn)) := by
  induction left with
  | nil => rw [List.nil_append, placeIn, if_neg (UInt32.lt_irrefl _), if_pos rfl, if_pos hs]
  | cons t left ih =>
    have ht := UInt32.lt_iff_toNat_lt.mp (hleft t List.mem_cons_self)
    rw [List.cons_append, placeIn, if_neg, if_neg]
    · exact ih fun u hu => hleft u (List.mem_cons_of_mem _ hu)
    · rintro h
      rw [h] at ht
      omega
    · rw [UInt32.lt_iff_toNat_lt]
      omega

theorem exists_placeIn (column : UInt32) {line : List Segment} (hline : ∀ s ∈ line, s.source = 0) :
    ∃ found, placeIn column line = .ok found := by
  induction line with
  | nil => exact ⟨none, rfl⟩
  | cons s line ih =>
    rw [placeIn]
    split
    · exact ⟨none, rfl⟩
    · split
      · rw [if_pos (hline s List.mem_cons_self)]
        exact ⟨_, rfl⟩
      · exact ih fun t ht => hline t (List.mem_cons_of_mem _ ht)

theorem exists_placeThrough {chain : List Lines} (hchain : ∀ lines ∈ chain, ∀ line ∈ lines, ∀ s ∈ line, s.source = 0)
    (at_ : UInt32 × UInt32) : ∃ found, placeThrough chain at_ = .ok found := by
  induction chain generalizing at_ with
  | nil => exact ⟨some at_, rfl⟩
  | cons lines chain ih =>
    have hplace : ∃ found, place lines at_ = .ok found := by
      rw [place]
      split
      · exact ⟨none, rfl⟩
      · next line hline =>
        exact exists_placeIn at_.2 (hchain lines List.mem_cons_self line (List.mem_of_getElem? hline))
    obtain ⟨found, hfound⟩ := hplace
    rw [placeThrough_cons, hfound]
    cases found with
    | none => exact ⟨none, rfl⟩
    | some next => exact ih (fun l hl => hchain l (List.mem_cons_of_mem _ hl)) next

end SourceMap

namespace Draft

open SourceMap

namespace Legend

theorem exists_marks_append (g : Legend) (last : Option Nat) (u w : List Cell) :
    ∃ last', g.marks last (u ++ w) = g.marks last u ++ g.marks last' w := by
  induction u generalizing last with
  | nil => exact ⟨last, rfl⟩
  | cons c u ih =>
    obtain ⟨last', h⟩ := ih (if c.char = '\n' then none else c.origin.map (· + c.char.utf8Size))
    exact ⟨last', by rw [List.cons_append, marks, marks, h, List.cons_append]⟩

theorem exists_head_layout (column : Nat) (c : Char) (m : Option Segment) (xs : Marked) :
    ∃ right, (layout column ((c, m) :: xs)).head?.getD [] = mark column m ++ right := by
  rw [layout]
  split
  · exact ⟨[], (List.append_nil _).symm⟩
  · obtain ⟨l, ls, hl⟩ := exists_layout (column + Text.units [c]) xs
    exact ⟨l, by rw [hl]; rfl⟩

theorem source_marks {g : Legend} {last : Option Nat} {cells : List Cell} {x : Char × Option Segment}
    (hx : x ∈ g.marks last cells) {s : Segment} (hs : x.2 = some s) : s.source = g.index := by
  induction cells generalizing last with
  | nil => cases hx
  | cons c cells ih =>
    rcases List.mem_cons.mp hx with rfl | hx
    · replace hs : g.segment? 0 last c = some s := hs
      unfold segment? at hs
      split at hs
      · exact Option.some.inj hs ▸ rfl
      · cases hs
      · split at hs
        · exact Option.some.inj hs ▸ rfl
        · cases hs
    · exact ih hx

end Legend

def detail (d : Draft) : Lines := d.mapLines true 0 d.mapNames

theorem detail_eq (d : Draft) : d.detail =
    layout 0 (Legend.marks ⟨d.source.toList, 0, true, d.anchors, d.names, d.mapNames⟩ none d.cells) :=
  Legend.lines_eq_layout _ 0 none d.cells

theorem decoded_map {d : Draft} {o : MapOptions} (ho : o.hires = true) : (d.map o).decoded = .ok d.detail := by
  refine decoded_encodeMappings ?_ ?_
  · rw [map, ho]
    rfl
  · rw [detail_eq]
    exact layout_ne_nil 0 _

theorem source_detail {d : Draft} {line : List Segment} (hline : line ∈ d.detail) {s : Segment}
    (hs : s ∈ line) : s.source = 0 := by
  rw [detail_eq] at hline
  obtain ⟨x, hx, t, at_, ht, rfl⟩ := mem_layout hline hs
  have hsource : t.source = 0 := Legend.source_marks hx ht
  exact hsource

/-- On the line of a surviving character stands its segment, behind those of the characters before it. -/
theorem Legend.exists_line_of_origin {g : Legend} (hg : g.hires = true) {u v : List Cell} {c : Cell} {o : Nat}
    (ho : c.origin = some o) (hu : Text.units (Cell.text u) < 2 ^ 32) :
    ∃ left right, (layout 0 (g.marks none (u ++ c :: v)))[Text.breaks (Cell.text u)]? =
        some (left ++ g.segment (Text.units (Text.lastLine (Cell.text u))) o none :: right) ∧
      ∀ t ∈ left, t.column.toNat < Text.units (Text.lastLine (Cell.text u)) := by
  obtain ⟨last, hmarks⟩ := g.exists_marks_append none u (c :: v)
  have hsegment : g.segment? 0 last c = some (g.segment 0 o none) := by
    rw [segment?_of_origin ho, hg]
    exact if_pos rfl
  have hreached : reached (g.marks none u) = Text.units (Text.lastLine (Cell.text u)) := by
    rw [reached, spelled_marks, columnAfter_zero]
  have hget := getElem?_layout_append (g.marks none u) (g.marks last (c :: v))
  rw [← hmarks, marks, hsegment, spelled_marks, hreached] at hget
  obtain ⟨right, hright⟩ := exists_head_layout (Text.units (Text.lastLine (Cell.text u))) c.char
    (some (g.segment 0 o none)) (g.marks (if c.char = '\n' then none else c.origin.map (· + c.char.utf8Size)) v)
  rw [hright] at hget
  refine ⟨openLine (g.marks none u), right, hget, fun t ht => ?_⟩
  rw [← hreached]
  exact openLine_lt (g.marks none u) (by rwa [spelled_marks]) t ht

/-- The place where a surviving character now stands leads to the place where it stood. -/
theorem place_detail {d : Draft} (hsource : Text.size d.source.toList < 2 ^ 32)
    (htext : Text.size d.text.toList < 2 ^ 32) {u v : List Cell} {c : Cell} {a b : List Char}
    (hcells : d.cells = u ++ c :: v) (ho : c.origin = some (Text.size a))
    (ha : d.source.toList = a ++ b) {at_ : UInt32 × UInt32} (hat : Behind at_ (Cell.text u)) :
    ∃ at₀, place d.detail at_ = .ok (some at₀) ∧ Behind at₀ a := by
  obtain ⟨hline, hcolumn⟩ := hat
  let g : Legend := ⟨d.source.toList, 0, true, d.anchors, d.names, d.mapNames⟩
  have hunits : Text.units (Cell.text u) < 2 ^ 32 := by
    rw [toList_text, hcells, Cell.size_append] at htext
    have hle := Text.units_le_size (Cell.text u)
    omega
  have hle := columnAfter_le 0 (Cell.text u)
  rw [columnAfter_zero] at hle
  obtain ⟨left, right, hget, hleft⟩ := g.exists_line_of_origin (v := v) rfl ho hunits
  obtain ⟨-, -, hrow, hcol⟩ := g.leads_segment ha hsource
    (show Text.units (Text.lastLine (Cell.text u)) < 2 ^ 32 by omega) none
  let s := g.segment (Text.units (Text.lastLine (Cell.text u))) (Text.size a) none
  have hs : s.column.toNat = Text.units (Text.lastLine (Cell.text u)) :=
    UInt32.toNat_ofNat_of_lt' (show _ < 2 ^ 32 by omega)
  have hplace : place d.detail at_ = .ok (some (s.sourceLine, s.sourceColumn)) := by
    have hat : at_.2 = s.column := UInt32.toNat_inj.mp (hcolumn.trans hs.symm)
    rw [place, detail_eq, hcells, hline, hget, hat]
    refine placeIn_append (fun t ht => ?_) rfl
    rw [UInt32.lt_iff_toNat_lt, hs]
    exact hleft t ht
  have hposition : position g.source (Text.size a) = (Text.breaks a, Text.units (Text.lastLine a)) := by
    rw [← position_append a b, ← ha]
  rw [hposition] at hrow hcol
  refine ⟨_, hplace, hrow, ?_⟩
  rwa [hs, Nat.sub_self, Nat.add_zero] at hcol

theorem Intact.locate?_start {d : Draft} (hd : d.Intact) {a b : List Char} {c : Char}
    (ha : d.source.toList = a ++ c :: b) {place : Nat} (h : d.locate? (Text.size a) = some place) :
    ∃ u v, d.cells = u ++ ⟨c, some (Text.size a)⟩ :: v ∧ place = Text.size (Cell.text u) := by
  obtain ⟨u, cell, v, o, hcells, -, ho, hle, hlt, hplace⟩ := Cell.exists_of_locate? h
  have hmem : cell ∈ d.cells := by
    rw [hcells]
    exact List.mem_append_right _ List.mem_cons_self
  obtain ⟨x, y, hxy, hx⟩ := Cell.mem_settled (hd.mem_settled hmem (Option.isSome_of_eq_some ho))
  obtain rfl : o = Text.size x := (Option.some.inj (ho.symm.trans hx)).trans (Nat.zero_add _)
  have hsplit : x ++ cell.char :: y = a ++ c :: b := hxy.symm.trans ha
  -- the character starts where its cell does, since no other character holds that byte
  have hsize : Text.size x = Text.size a := by
    rcases Nat.lt_or_ge (Text.size x) (Text.size a) with hxa | hxa
    · have := Text.not_inside hsplit hxa
      omega
    · omega
  obtain ⟨rfl, hchar⟩ := Text.split_unique hsplit hsize
  refine ⟨u, v, ?_, by omega⟩
  rw [hcells, ← hchar, ← ho]

/-- A text is revised by drafts, each of the text that the one before it left. -/
inductive Revises : String → List Draft → String → Prop
  | nil (text : String) : Revises text [] text
  | cons {d : Draft} {drafts : List Draft} {last : String} (hd : d.Intact) (rest : Revises d.text drafts last) :
    Revises d.source (d :: drafts) last

/-- Where the byte at an offset of the first text stands in the last, if it survives all drafts. -/
def carried? : List Draft → Nat → Option Nat
  | [], offset => some offset
  | d :: drafts, offset => (d.locate? offset).bind (carried? drafts)

/-- The place of a character that survives all drafts leads through their maps to where it stood at first. -/
theorem Revises.placeThrough {text last : String} {drafts : List Draft} (h : Revises text drafts last)
    (hsize : ∀ d ∈ drafts, Text.size d.source.toList < 2 ^ 32 ∧ Text.size d.text.toList < 2 ^ 32)
    {a b : List Char} {c : Char} (ha : text.toList = a ++ c :: b) {place : Nat}
    (hcarried : carried? drafts (Text.size a) = some place) :
    ∃ x y, last.toList = x ++ c :: y ∧ place = Text.size x ∧ ∀ at_, Behind at_ x →
      ∃ at₀, SourceMap.placeThrough (drafts.map detail).reverse at_ = .ok (some at₀) ∧ Behind at₀ a := by
  induction h generalizing a b with
  | nil text => exact ⟨a, b, ha, (Option.some.inj hcarried).symm, fun at_ hat => ⟨at_, rfl, hat⟩⟩
  | @cons d drafts last hd _ ih =>
    obtain ⟨next, hnext, hcarried⟩ := Option.bind_eq_some_iff.mp hcarried
    obtain ⟨u, v, hcells, rfl⟩ := hd.locate?_start ha hnext
    have htext : d.text.toList = Cell.text u ++ c :: Cell.text v := by simp [toList_text, hcells, Cell.text]
    obtain ⟨hdsource, hdtext⟩ := hsize d List.mem_cons_self
    obtain ⟨x, y, hlast, hplace, hthrough⟩ :=
      ih (fun e he => hsize e (List.mem_cons_of_mem _ he)) htext hcarried
    refine ⟨x, y, hlast, hplace, fun at_ hat => ?_⟩
    obtain ⟨at₁, hat₁, hbehind⟩ := hthrough at_ hat
    obtain ⟨at₀, hat₀, hbehind₀⟩ := place_detail hdsource hdtext hcells rfl ha hbehind
    refine ⟨at₀, ?_, hbehind₀⟩
    rw [List.map_cons, List.reverse_cons, placeThrough_append]
    exact bind_eq_ok.mpr ⟨some at₁, hat₁, bind_eq_ok.mpr ⟨some at₀, hat₀, rfl⟩⟩

end Draft

end Treeshake
