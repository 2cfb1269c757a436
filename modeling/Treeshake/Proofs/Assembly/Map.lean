import Treeshake.Proofs.Assembly.Changes
import Treeshake.Proofs.Draft.Map
import Treeshake.Proofs.SourceMap.Mappings
import Treeshake.Proofs.Draft.Places
/-!
The source map of an assembly. Main statement: its mappings decode to one line for each line of the text,
and the last segment up to a character that comes from a file leads to the place where it stood.
-/
set_option autoImplicit false

namespace Treeshake.Assembly

open Draft

/-- What the text of an assembly is put together from. -/
inductive Stretch where
  | bare (text : String)
  | part (p : Part)

def partStretches (separator : String) : Bool → List Part → List Stretch
  | _, [] => []
  | first, p :: ps =>
    .bare (if first then "" else p.separator.getD separator) :: .part p
      :: partStretches separator false ps

def stretches (a : Assembly) : List Stretch :=
  .bare a.opening :: partStretches a.separator true a.parts ++ [.bare a.closing]

def Stretch.text : Stretch → String
  | .bare text => text
  | .part p => p.draft.text

/-- The characters with the filename and the offset that each comes from. -/
def Stretch.characters : Stretch → List (Char × Option (String × Nat))
  | .bare text => text.toList.map (·, none)
  | .part p => p.draft.cells.map fun c => (c.char, p.filename.bind fun f => c.origin.map (f, ·))

def characters (a : Assembly) : List (Char × Option (String × Nat)) :=
  a.stretches.flatMap Stretch.characters

def legend (a : Assembly) (hires : Bool) (index : Nat) (p : Part) : Legend :=
  ⟨p.draft.source.toList, index.toUInt32, hires, p.draft.anchors, p.draft.names, a.mapNames⟩

def Stretch.marked (a : Assembly) (hires : Bool) : Stretch → Marked
  | .bare text => unmarked text
  | .part p =>
    match p.filename.bind fun f => a.filenames.idxOf? f with
    | some index => (a.legend hires index p).marks none p.draft.cells
    | none => unmarked p.draft.text

def marked (a : Assembly) (hires : Bool) : Marked := a.stretches.flatMap (Stretch.marked a hires)

theorem text_characters (s : Stretch) : s.characters.map (·.1) = s.text.toList := by
  cases s with
  | bare text => simp [Stretch.characters, Stretch.text, Function.comp_def]
  | part p => simp [Stretch.characters, Stretch.text, toList_text, Cell.text, Function.comp_def]

theorem spelled_marked (a : Assembly) (hires : Bool) (s : Stretch) :
    spelled (s.marked a hires) = s.text.toList := by
  cases s with
  | bare text => exact spelled_unmarked text
  | part p =>
    simp only [Stretch.marked, Stretch.text]
    split
    · rw [Legend.spelled_marks, toList_text]
    · exact spelled_unmarked p.draft.text

theorem text_stretches (a : Assembly) :
    a.text.toList = a.stretches.flatMap (·.text.toList) := by
  have hparts : ∀ (first : Bool) (ps : List Part),
      (String.join (partTexts a.separator first ps)).toList =
        (partStretches a.separator first ps).flatMap (·.text.toList) := by
    intro first ps
    induction ps generalizing first with
    | nil => simp [partTexts, partStretches]
    | cons p ps ih => simp [partTexts, partStretches, Stretch.text, ih]
  simp [text, stretches, hparts, Stretch.text]

theorem characters_spell (a : Assembly) : a.characters.map (·.1) = a.text.toList := by
  rw [text_stretches, characters, List.map_flatMap]
  simp only [text_characters]

theorem marked_spell (a : Assembly) (hires : Bool) : spelled (a.marked hires) = a.text.toList := by
  simp only [text_stretches, ← spelled_marked a hires]
  exact List.map_flatMap

theorem partLines_eq (a : Assembly) (hires : Bool) (p : Part) :
    a.partLines hires p = layout 0 ((Stretch.part p).marked a hires) := by
  cases h : p.filename.bind fun f => a.filenames.idxOf? f with
  | none => simp only [partLines, Stretch.marked, h, layout_unmarked]
  | some index =>
    simp only [partLines, Stretch.marked, h]
    exact Legend.lines_eq_layout _ _ _ _

theorem pieces_eq (a : Assembly) (hires : Bool) :
    a.pieces hires = a.stretches.map fun s => (s.text, layout 0 (s.marked a hires)) := by
  have hbare : ∀ text, bare text =
      ((Stretch.bare text).text, layout 0 ((Stretch.bare text).marked a hires)) := by
    intro text
    simp [bare, Stretch.text, Stretch.marked, layout_unmarked]
  have hparts : ∀ (first : Bool) (ps : List Part), a.partPieces hires first ps =
      (partStretches a.separator first ps).map fun s => (s.text, layout 0 (s.marked a hires)) := by
    intro first ps
    induction ps generalizing first with
    | nil => rfl
    | cons p ps ih => simp [partPieces, partStretches, hbare, partLines_eq, ih, Stretch.text]
  simp [pieces, stretches, hbare, hparts]

/-- The lines of the map are the whole text laid out with its marks. -/
theorem lines_eq_layout (a : Assembly) (hires : Bool) :
    joinLines 0 (a.pieces hires) = layout 0 (a.marked hires) := by
  rw [pieces_eq, joinLines_layout Stretch.text (Stretch.marked a hires) (spelled_marked a hires)]
  rfl

theorem mem_stretches {a : Assembly} {p : Part} (h : .part p ∈ a.stretches) : p ∈ a.parts := by
  have hparts : ∀ (first : Bool) (ps : List Part),
      .part p ∈ partStretches a.separator first ps → p ∈ ps := by
    intro first ps
    induction ps generalizing first with
    | nil => simp [partStretches]
    | cons q ps ih =>
      intro h
      simp only [partStretches, List.mem_cons, reduceCtorEq, Stretch.part.injEq, false_or] at h
      rcases h with rfl | h
      · simp
      · exact List.mem_cons_of_mem _ (ih _ h)
  simp only [stretches, List.cons_append, List.mem_cons, List.mem_append, reduceCtorEq, false_or,
    List.not_mem_nil, or_false] at h
  exact hparts _ _ h

theorem exists_index {sources : List (String × String)} {f text : String}
    (h : sources.lookup f = some text) :
    ∃ index, (sources.map (·.1)).idxOf? f = some index ∧ sources[index]? = some (f, text) := by
  induction sources with
  | nil => simp at h
  | cons s ss ih =>
    obtain ⟨g, t⟩ := s
    by_cases hg : f = g
    · subst hg
      simp at h
      exact ⟨0, by simp [List.idxOf?_cons], by simp [h]⟩
    · have hb : (f == g) = false := beq_eq_false_iff_ne.mpr hg
      simp only [List.lookup_cons, hb] at h
      obtain ⟨index, hi, hs⟩ := ih h
      refine ⟨index + 1, ?_, by simpa using hs⟩
      simp [List.idxOf?_cons, beq_eq_false_iff_ne.mpr (Ne.symm hg), hi]

theorem exists_stretch {α β : Type} {f : α → List β} {xs : List α} {u v : List β} {y : β}
    (h : xs.flatMap f = u ++ y :: v) :
    ∃ before x after u' v', xs = before ++ x :: after ∧ f x = u' ++ y :: v' ∧
      u = before.flatMap f ++ u' := by
  induction xs generalizing u with
  | nil => simp at h
  | cons x xs ih =>
    rw [List.flatMap_cons] at h
    rcases List.append_eq_append_iff.mp h with ⟨w, rfl, hw⟩ | ⟨w, hx, hw⟩
    · obtain ⟨before, z, after, u', v', rfl, hz, rfl⟩ := ih hw
      exact ⟨x :: before, z, after, u', v', rfl, hz, by simp⟩
    · cases w with
      | nil =>
        obtain ⟨before, z, after, u', v', rfl, hz, hu⟩ := ih (u := []) (by simpa using hw.symm)
        refine ⟨x :: before, z, after, u', v', rfl, hz, ?_⟩
        simp at hx
        simp [← hx, hu]
      | cons d w =>
        obtain ⟨rfl, -⟩ := List.cons.inj hw
        exact ⟨[], x, xs, u, w, rfl, hx, by simp⟩

theorem Sound.inside {a : Assembly} (ha : a.Sound) (hires : Bool)
    (hsources : ∀ s ∈ a.sources, Text.size s.2.toList < 2 ^ 32) {l : List SourceMap.Segment}
    {s : SourceMap.Segment} (hl : l ∈ layout 0 (a.marked hires)) (hs : s ∈ l) :
    (∀ n, s.name = some n → n.toNat < a.mapNames.length) ∧
      ∃ (index : Nat) (f text : String) (x y : List Char), a.sources[index]? = some (f, text) ∧
        s.source = index.toUInt32 ∧ text.toList = x ++ y ∧ s.sourceLine.toNat = Text.breaks x ∧
        s.sourceColumn.toNat = Text.units (Text.lastLine x) := by
  obtain ⟨x, hx, t, at_, ht, rfl⟩ := mem_layout hl hs
  obtain ⟨st, hst, hx⟩ := List.mem_flatMap.mp hx
  have hbare : ∀ text, x ∉ unmarked text := by
    intro text hmem
    obtain ⟨c, -, rfl⟩ := List.mem_map.mp hmem
    cases ht
  cases st with
  | bare text => exact absurd hx (hbare text)
  | part p =>
    obtain ⟨hi, hf⟩ := ha p (mem_stretches hst)
    cases hb : p.filename.bind fun f => a.filenames.idxOf? f with
    | none =>
      simp only [Stretch.marked, hb] at hx
      exact absurd hx (hbare _)
    | some index =>
      simp only [Stretch.marked, hb] at hx
      obtain ⟨f, hp, hindex⟩ := Option.bind_eq_some_iff.mp hb
      obtain ⟨index', hindex', hget⟩ := exists_index (hf f hp)
      obtain rfl : index = index' := Option.some.inj (hindex.symm.trans hindex')
      have hsize := hsources _ (List.mem_of_getElem? hget)
      obtain ⟨hsource, hname, u, v, htext, hline, hcol⟩ :=
        Legend.inside_marks (g := a.legend hires index p) hsize (fun c hc => hi.mem_settled hc)
          (by simp) hx ht
      exact ⟨hname, index, f, p.draft.source, u, v, hget, hsource, htext, hline, hcol⟩

theorem exists_cell {a : Assembly} {before after : List (Char × Option (String × Nat))} {c : Char}
    {f : String} {offset : Nat} (h : a.characters = before ++ (c, some (f, offset)) :: after) :
    ∃ us p vs u v, a.stretches = us ++ .part p :: vs ∧ p.filename = some f ∧
      p.draft.cells = u ++ ⟨c, some offset⟩ :: v ∧
      before.map (·.1) = us.flatMap (·.text.toList) ++ Cell.text u := by
  obtain ⟨us, st, vs, u, v, hst, hcut, rfl⟩ := exists_stretch h
  cases st with
  | bare text =>
    have : (c, some (f, offset)) ∈ (Stretch.bare text).characters := by simp [hcut]
    simp [Stretch.characters] at this
  | part p =>
    obtain ⟨u, w, hcells, rfl, hw⟩ := List.map_eq_append_iff.mp hcut
    obtain ⟨d, v, rfl, hd, -⟩ := List.map_eq_cons_iff.mp hw
    obtain ⟨hchar, horigin⟩ := Prod.mk.inj hd
    obtain ⟨g, hp, hg⟩ := Option.bind_eq_some_iff.mp horigin
    obtain ⟨o, ho, hgo⟩ := Option.map_eq_some_iff.mp hg
    obtain ⟨rfl, rfl⟩ := Prod.mk.inj hgo
    refine ⟨us, p, vs, u, v, hst, hp, ?_, ?_⟩
    · rw [hcells, ← hchar, ← ho]
    · simp [List.map_flatMap, text_characters, Cell.text, Function.comp_def]

/-- The last segment up to a character that comes from a file leads to where it stood. -/
theorem Sound.leads {a : Assembly} (ha : a.Sound) (hires : Bool)
    (htext : Text.size a.text.toList < 2 ^ 32)
    (hsources : ∀ s ∈ a.sources, Text.size s.2.toList < 2 ^ 32)
    {before after : List (Char × Option (String × Nat))} {c : Char} {f : String} {offset : Nat}
    (h : a.characters = before ++ (c, some (f, offset)) :: after) :
    ∃ (index : Nat) (text : String) (x y : List Char) (line : List SourceMap.Segment)
      (s : SourceMap.Segment), a.filenames.idxOf? f = some index ∧
      a.sources[index]? = some (f, text) ∧ text.toList = x ++ c :: y ∧ offset = Text.size x ∧
      (layout 0 (a.marked hires))[Text.breaks (before.map (·.1))]? = some line ∧
      (line.filter fun s => s.column.toNat ≤ Text.units (Text.lastLine (before.map (·.1)))).getLast?
        = some s ∧
      s.source = index.toUInt32 ∧ s.sourceLine.toNat = Text.breaks x ∧
      s.sourceColumn.toNat +
          (Text.units (Text.lastLine (before.map (·.1))) - s.column.toNat) =
        Text.units (Text.lastLine x) := by
  obtain ⟨us, p, vs, u, v, hst, hp, hcells, hbefore⟩ := exists_cell h
  obtain ⟨hi, hf⟩ := ha p (mem_stretches (hst ▸ by simp))
  obtain ⟨index, hindex, hget⟩ := exists_index (hf f hp)
  have hsize := hsources _ (List.mem_of_getElem? hget)
  have hsettled := fun d hd => hi.mem_settled (c := d) hd
  obtain ⟨x, y, hsource, ho⟩ := Cell.mem_settled
    (hsettled ⟨c, some offset⟩ (by simp [hcells]) rfl)
  simp only [Nat.zero_add, Option.some.injEq] at ho
  have hmarked : a.marked hires = us.flatMap (Stretch.marked a hires) ++
      ((a.legend hires index p).marks none p.draft.cells ++ vs.flatMap (Stretch.marked a hires)) := by
    have hb : (p.filename.bind fun f => a.filenames.idxOf? f) = some index := by
      simp [hp, filenames, hindex]
    simp only [marked, hst, List.flatMap_append, List.flatMap_cons, Stretch.marked, hb]
  have hunits : Text.units (spelled (a.marked hires)) < 2 ^ 32 := by
    have := Text.units_le_size a.text.toList
    rw [marked_spell]
    omega
  rw [hcells] at hmarked hsettled
  obtain ⟨m, xs, ys, hmarks, hxs, s, hlast, hsindex, -, hline, hcol⟩ :=
    Legend.leads (g := a.legend hires index p) hsize (c := ⟨c, some offset⟩) rfl hsettled
      (us.flatMap (Stretch.marked a hires)) none (by simp [Legend.Follows]) (by
        simp only [hmarked, spelled_append, Legend.spelled_marks, Text.units_append, Cell.text,
          List.map_append] at hunits ⊢
        omega)
  -- the marked text in front of the character spells what stands in front of it
  have hspelled : spelled (us.flatMap (Stretch.marked a hires) ++ xs) = before.map (·.1) := by
    rw [hbefore, spelled_append, hxs]
    simp only [← spelled_marked a hires]
    simp [spelled, List.map_flatMap]
  have hwhole : a.marked hires = (us.flatMap (Stretch.marked a hires) ++ xs) ++
      (c, m) :: (ys ++ vs.flatMap (Stretch.marked a hires)) := by
    simp [hmarked, hmarks]
  rw [hwhole] at hunits
  obtain ⟨line, hgetline, hfilter⟩ := exists_line _ _ c m hunits
  rw [← hwhole, hspelled] at hgetline
  have hreached : reached (us.flatMap (Stretch.marked a hires) ++ xs) =
      Text.units (Text.lastLine (before.map (·.1))) := by
    rw [reached, hspelled, columnAfter_zero]
  rw [hreached] at hfilter hlast hcol
  have hposition : position (a.legend hires index p).source offset =
      (Text.breaks x, Text.units (Text.lastLine x)) := by
    rw [ho, ← position_append x (c :: y), ← hsource]
    rfl
  rw [hposition] at hline hcol
  exact ⟨index, p.draft.source, x, y, line, s, hindex, hget, hsource, ho, hgetline,
    hfilter.trans hlast, hsindex, hline, hcol⟩

/-- The index of a source counts modulo the size of its field. -/
theorem map_leads_to_sources (separator : String) (changes : List Change) (o : MapOptions)
    (htext : (change { separator } changes).text.utf8ByteSize < 2 ^ 32)
    (hsources : ∀ s ∈ (change { separator } changes).sources, s.2.utf8ByteSize < 2 ^ 32) :
    let a := change { separator } changes
    ∃ lines, (a.map o).decoded = .ok lines ∧
      lines.length = Text.breaks a.text.toList + 1 ∧
      (∀ line ∈ lines, line.Pairwise fun s t => s.column < t.column) ∧
      (∀ line ∈ lines, ∀ s ∈ line,
        s.source.toNat < (a.map o).sources.length ∧
        (∀ n, s.name = some n → n.toNat < (a.map o).names.length) ∧
        ∃ (index : Nat) (f text : String) (x y : List Char), a.sources[index]? = some (f, text) ∧
          s.source = index.toUInt32 ∧ text.toList = x ++ y ∧
          s.sourceLine.toNat = Text.breaks x ∧
          s.sourceColumn.toNat = Text.units (Text.lastLine x)) ∧
      a.characters.map (·.1) = a.text.toList ∧
      ∀ before c f offset after, a.characters = before ++ (c, some (f, offset)) :: after →
        let column := Text.units (Text.lastLine (before.map (·.1)))
        ∃ (index : Nat) (text : String) (x y : List Char) (line : List SourceMap.Segment)
          (s : SourceMap.Segment), a.filenames.idxOf? f = some index ∧
          a.sources[index]? = some (f, text) ∧ text.toList = x ++ c :: y ∧ offset = Text.size x ∧
          lines[Text.breaks (before.map (·.1))]? = some line ∧
          (line.filter fun s => s.column.toNat ≤ column).getLast? = some s ∧
          s.source = index.toUInt32 ∧ s.sourceLine.toNat = Text.breaks x ∧
          s.sourceColumn.toNat + (column - s.column.toNat) = Text.units (Text.lastLine x) := by
  simp only [Text.utf8ByteSize_eq] at htext hsources
  intro a
  have ha : a.Sound := sound_change (by simp [Sound]) changes
  have hsize : Text.size a.text.toList < 2 ^ 32 := htext
  have hdecoded : (a.map o).decoded = .ok (layout 0 (a.marked o.hires)) := by
    rw [SourceMap.decoded, map, lines_eq_layout]
    exact SourceMap.decodeMappings_encodeMappings _ (layout_ne_nil 0 _)
  have hunits : 0 + Text.units (spelled (a.marked o.hires)) < 2 ^ 32 := by
    have := Text.units_le_size a.text.toList
    rw [marked_spell]
    omega
  refine ⟨_, hdecoded, ?_, (layout_increasing 0 _ hunits).1, fun line hl s hs => ?_,
    a.characters_spell, fun before c f offset after h => ?_⟩
  · rw [length_layout, marked_spell]
  · obtain ⟨hname, index, f, text, x, y, hget, hindex, hin⟩ := ha.inside o.hires hsources hl hs
    refine ⟨?_, hname, index, f, text, x, y, hget, hindex, hin⟩
    have hlt : index < a.sources.length := (List.getElem?_eq_some_iff.mp hget).1
    have hle := Nat.mod_le index (2 ^ 32)
    have hlength : (a.map o).sources.length = a.sources.length := by simp [map, filenames]
    rw [hindex, hlength, Nat.toUInt32_eq, UInt32.toNat_ofNat']
    omega
  · exact ha.leads o.hires htext hsources h

theorem map_leads_to_sources_overwrite_indent :
    let a := change ⟨"\n", "", "", [], []⟩ [.add "var a;\nb" [.overwrite 4 5 "name" true] (some "x.js"),
      .indent "  ", .add "c" [] (some "y.js"), .prepend "// "]
    ∃ lines line s, (a.map {}).decoded = .ok lines ∧ lines.length = 3 ∧ lines[1]? = some line ∧
      (line.filter fun s => s.column.toNat ≤ 2).getLast? = some s ∧ s.source = 0 ∧
      s.sourceLine.toNat = 1 ∧ s.sourceColumn.toNat + (2 - s.column.toNat) = 0 := by
  intro a
  obtain ⟨lines, hdecoded, hlength, -, -, -, hleads⟩ := map_leads_to_sources "\n"
    [.add "var a;\nb" [.overwrite 4 5 "name" true] (some "x.js"), .indent "  ",
      .add "c" [] (some "y.js"), .prepend "// "] {} (by decide +kernel) (by decide +kernel)
  have hcut : a.characters = a.characters.take 17 ++ ('b', some ("x.js", 7)) :: a.characters.drop 18 := by
    decide +kernel
  obtain ⟨index, text, x, y, line, s, hindex, hget, htext, hx, hline, hlast, hsource, hrow, hcol⟩ :=
    hleads _ _ _ _ _ hcut
  obtain rfl : index = 0 := by
    have : a.filenames.idxOf? "x.js" = some 0 := by decide +kernel
    exact Option.some.inj (hindex.symm.trans this)
  obtain rfl : text = "var a;\nb" := by
    have : a.sources[0]? = some ("x.js", "var a;\nb") := by decide +kernel
    exact congrArg Prod.snd (Option.some.inj (hget.symm.trans this))
  obtain rfl : x = "var a;\n".toList := by
    have h := Text.before?_size_append x ('b' :: y)
    rw [← htext, ← hx] at h
    have : Text.before? 7 "var a;\nb".toList = some "var a;\n".toList := by decide +kernel
    exact Option.some.inj (h.symm.trans this)
  have hbreaks : Text.breaks ((a.characters.take 17).map (·.1)) = 1 := by decide +kernel
  have hunits : Text.units (Text.lastLine ((a.characters.take 17).map (·.1))) = 2 := by decide +kernel
  rw [hunits] at hlast hcol
  rw [hbreaks] at hline
  refine ⟨lines, line, s, hdecoded, ?_, hline, hlast, hsource, ?_, ?_⟩
  · rw [hlength]
    decide +kernel
  · rw [hrow]
    decide +kernel
  · rw [hcol]
    decide +kernel

end Treeshake.Assembly
