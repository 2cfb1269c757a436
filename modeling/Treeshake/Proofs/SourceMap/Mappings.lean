import Treeshake.Proofs.SourceMap.Vlq
import Treeshake.Proofs.Text.Pieces
import Treeshake.SourceMap.Mappings
/-!
Reading mappings back from their text. Main statement: the text of a nonempty list of lines decodes to
these lines.
-/
set_option autoImplicit false

namespace Treeshake.SourceMap

theorem Vlq.digits_lt (n : Nat) : ∀ d ∈ Vlq.digits n, d < 64 := by
  induction n using Nat.strongRecOn with
  | ind n ih =>
    intro d hd
    rw [Vlq.digits] at hd
    split at hd
    · simp at hd
      omega
    · rcases List.mem_cons.mp hd with rfl | hd
      · omega
      · exact ih (n / 32) (by omega) d hd

theorem Vlq.digits_ne_nil (n : Nat) : Vlq.digits n ≠ [] := by
  rw [Vlq.digits]
  split <;> simp

theorem Vlq.mem_encode {ns : List Int64} {c : Char} (h : c ∈ Vlq.encode ns) :
    c ∈ Base64.alphabet := by
  simp only [Vlq.encode, Vlq.encodeOne, List.mem_flatMap, List.mem_map] at h
  obtain ⟨n, -, d, hd, rfl⟩ := h
  have hlt : d < Base64.alphabet.length := by
    have := Vlq.digits_lt _ d hd
    have : Base64.alphabet.length = 64 := by decide
    omega
  rw [Base64.char, List.getD_eq_getElem?_getD, List.getElem?_eq_getElem hlt]
  exact List.getElem_mem hlt

theorem toInt_wide (n : UInt32) : (wide n).toInt = n.toNat := by
  have h : (wide n).toUInt64.toNat = n.toNat := by
    simp [wide]
  have := n.toNat_lt
  rw [Vlq.toInt_eq, h, if_pos (by omega)]

theorem narrow_wide (n : UInt32) : narrow (wide n) = n := by
  simp [narrow, wide]

/-- A difference of two fields is never the one number that has no text. -/
theorem wide_sub_ne (n m : UInt32) : wide n - wide m ≠ Int64.minValue := by
  intro h
  have := congrArg Int64.toInt h
  have hn := n.toNat_lt
  have hm := m.toNat_lt
  rw [Int64.toInt_sub, toInt_wide, toInt_wide, Int.bmod_eq_of_le (by omega) (by omega),
    Int64.toInt_minValue] at this
  omega

theorem add_sub (k x : Int64) : k + (x - k) = x := by
  rw [Int64.add_comm, Int64.sub_add_cancel]

/-- The fields of segments are all that a cursor holds. -/
def Cursor.Reached (k : Cursor) : Prop :=
  ∃ s l c n : UInt32, k = ⟨wide s, wide l, wide c, wide n⟩

theorem Cursor.reached_start : Cursor.Reached {} := ⟨0, 0, 0, 0, rfl⟩

theorem Cursor.Reached.after {k : Cursor} (h : k.Reached) (s : Segment) : (k.after s).Reached := by
  obtain ⟨a, b, c, n, rfl⟩ := h
  cases hn : s.name with
  | none => exact ⟨s.source, s.sourceLine, s.sourceColumn, n, by simp [Cursor.after, hn]⟩
  | some m => exact ⟨s.source, s.sourceLine, s.sourceColumn, m, by simp [Cursor.after, hn]⟩

theorem deltas_ne {k : Cursor} (h : k.Reached) (s : Segment) (column : UInt32) :
    ∀ n ∈ s.deltas (wide column) k, n ≠ Int64.minValue := by
  obtain ⟨a, b, c, m, rfl⟩ := h
  intro n hn
  simp only [Segment.deltas, List.mem_append, List.mem_cons, List.not_mem_nil, or_false,
    Option.mem_toList, Option.map_eq_some_iff] at hn
  rcases hn with (rfl | rfl | rfl | rfl) | ⟨_, -, rfl⟩
  all_goals apply wide_sub_ne

theorem segmentOf_deltas (s : Segment) (column : Int64) (k : Cursor) :
    ∃ delta fields, s.deltas column k = delta :: fields ∧ column + delta = wide s.column ∧
      segmentOf (column + delta) k fields = some (s, k.after s) := by
  refine ⟨_, _, rfl, add_sub _ _, ?_⟩
  obtain ⟨col, source, line, scol, name⟩ := s
  cases name with
  | none => simp [segmentOf, add_sub, narrow_wide, Cursor.after]
  | some n => simp [segmentOf, add_sub, narrow_wide, Cursor.after]

theorem encode_ne_nil {ns : List Int64} (h : ns ≠ []) : Vlq.encode ns ≠ [] := by
  obtain ⟨n, ns, rfl⟩ := List.exists_cons_of_ne_nil h
  simp [Vlq.encode, Vlq.encodeOne, Vlq.digits_ne_nil]

theorem decodeLine_encodeLine {k : Cursor} (h : k.Reached) (column : UInt32) (ss : List Segment) :
    decodeLine (wide column) k (encodeLine (wide column) k ss).1 =
        .ok (ss, (encodeLine (wide column) k ss).2) ∧
      (encodeLine (wide column) k ss).2.Reached := by
  induction ss generalizing column k with
  | nil => exact ⟨rfl, h⟩
  | cons s ss ih =>
    obtain ⟨hrest, hreach⟩ := ih (h.after s) s.column
    obtain ⟨delta, fields, hd, hcol, hseg⟩ := segmentOf_deltas s (wide column) k
    have hne : (Vlq.encode (s.deltas (wide column) k)).isEmpty = false := by
      simpa using encode_ne_nil (by simp [hd])
    have hdec := Vlq.decode_encode _ (deltas_ne h s column)
    rw [hcol] at hseg
    refine ⟨?_, hreach⟩
    simp only [encodeLine, decodeLine, hne]
    rw [hdec, hd]
    simp [bind, Except.bind, hcol, hseg, hrest, pure, Except.pure]

theorem mem_encodeLine {column : Int64} {k : Cursor} {ss : List Segment} {w : List Char}
    (h : w ∈ (encodeLine column k ss).1) : w ≠ [] ∧ ∀ c ∈ w, c ∈ Base64.alphabet := by
  induction ss generalizing column k with
  | nil => simp [encodeLine] at h
  | cons s ss ih =>
    rcases List.mem_cons.mp h with rfl | h
    · exact ⟨encode_ne_nil (by simp [Segment.deltas]), fun c hc => Vlq.mem_encode hc⟩
    · exact ih h

theorem decodeLine_splitBy {k : Cursor} (h : k.Reached) (ss : List Segment) :
    decodeLine 0 k (Text.splitBy (· == ',') (Text.joinWith ',' (encodeLine 0 k ss).1)) =
        .ok (ss, (encodeLine 0 k ss).2) ∧ (encodeLine 0 k ss).2.Reached := by
  have hzero : (0 : Int64) = wide 0 := rfl
  have hline := decodeLine_encodeLine h 0 ss
  rw [← hzero] at hline
  refine ⟨?_, hline.2⟩
  cases ss with
  | nil => rfl
  | cons s ss =>
    rw [Text.splitBy_joinWith (by decide)]
    · exact hline.1
    · simp [encodeLine]
    · refine fun w hw c hc => beq_eq_false_iff_ne.mpr ?_
      rintro rfl
      exact absurd ((mem_encodeLine hw).2 _ hc) (by decide)

theorem decodeLines_encodeLines {k : Cursor} (h : k.Reached) (lines : Lines) :
    decodeLines k (encodeLines k lines) = .ok lines := by
  induction lines generalizing k with
  | nil => rfl
  | cons l ls ih =>
    obtain ⟨hline, hreach⟩ := decodeLine_splitBy h l
    simp [encodeLines, decodeLines, hline, ih hreach, bind, Except.bind, pure, Except.pure]

theorem notMem_encodeLines {k : Cursor} {lines : Lines} {w : List Char}
    (h : w ∈ encodeLines k lines) : ';' ∉ w := by
  induction lines generalizing k with
  | nil => simp [encodeLines] at h
  | cons l ls ih =>
    rcases List.mem_cons.mp h with rfl | h
    · intro hc
      obtain hc | ⟨w, hw, hc⟩ := Text.mem_joinWith hc
      · exact absurd hc (by decide)
      · exact absurd ((mem_encodeLine hw).2 _ hc) (by decide)
    · exact ih h

theorem decodeMappings_encodeMappings (lines : Lines) (hne : lines ≠ []) :
    decodeMappings (encodeMappings lines) = .ok lines := by
  rw [decodeMappings, encodeMappings, String.toList_ofList, Text.splitBy_joinWith (by decide)]
  · exact decodeLines_encodeLines Cursor.reached_start lines
  · obtain ⟨l, ls, rfl⟩ := List.exists_cons_of_ne_nil hne
    simp [encodeLines]
  · refine fun w hw c hc => beq_eq_false_iff_ne.mpr ?_
    rintro rfl
    exact notMem_encodeLines hw hc

/-- Reading the text of lines gives these lines; no lines at all read as one empty line. -/
theorem mappings_round_trip (lines : Lines) :
    decodeMappings (encodeMappings lines) = .ok (if lines = [] then [[]] else lines) := by
  split
  · next h =>
    subst h
    rfl
  · next h => exact decodeMappings_encodeMappings lines h

end Treeshake.SourceMap
