import Mathlib.Algebra.Ring.Int.Defs
import Mathlib.Data.List.Infix
import Treeshake.Proofs.Fallible
import Treeshake.Proofs.SourceMap.Mappings
/-!
What the fields of mappings add up to. Main statement: a text of mappings has a line more than it has
semicolons, and each field of a segment that is read is the sum of that field over the segments up to it, from
the start of the line for the generated column and from the start of the text for all others, modulo 2³².
-/
set_option autoImplicit false

namespace Treeshake.Text

theorem length_splitBy (sep : Char) (cs : List Char) :
    (splitBy (· == sep) cs).length = cs.count sep + 1 := by
  induction cs with
  | nil => rfl
  | cons c cs ih =>
    rw [splitBy, List.count_cons]
    split
    · rw [List.length_cons, ih]
    · rw [List.length_modifyHead, ih, Nat.add_zero]

end Treeshake.Text

namespace Treeshake.SourceMap

/-- The numbers of the segments of a text, line by line; an empty piece between commas is no segment. -/
def numbers (mappings : String) : Except Fault (List (List (List Int64))) :=
  (Text.splitBy (· == ';') mappings.toList).mapM fun line =>
    ((Text.splitBy (· == ',') line).filter (!·.isEmpty)).mapM fun w => Vlq.decode (String.ofList w)

/-- The sum of a field over those of some segments that have at least a number of fields. -/
def total (field least : Nat) (segments : List (List Int64)) : Int :=
  ((segments.filter (least ≤ ·.length)).map fun s => (s.getD field 0).toInt).sum

def modulo32 (n : Int) : UInt32 := UInt32.ofNat (n % 2 ^ 32).toNat

/-- The last of the segments of a line up to some place, if it has a source, `before` being the segments of all
earlier lines. -/
def lastOf (before line : List (List Int64)) : Option Segment :=
  line.getLast?.bind fun s =>
    if s.length < 4 then none
    else some {
      column := modulo32 (total 0 1 line)
      source := modulo32 (total 1 4 (before ++ line))
      sourceLine := modulo32 (total 2 4 (before ++ line))
      sourceColumn := modulo32 (total 3 4 (before ++ line))
      name := if 5 ≤ s.length then some (modulo32 (total 4 5 (before ++ line))) else none }

def summed (rows : List (List (List Int64))) : Lines :=
  rows.mapIdx fun l row => row.inits.tail.filterMap (lastOf (rows.take l).flatten)

theorem total_concat (field least : Nat) (segments : List (List Int64)) (s : List Int64) :
    total field least (segments ++ [s]) =
      total field least segments + if least ≤ s.length then (s.getD field 0).toInt else 0 := by
  rw [total, total, List.filter_append, List.map_append, List.sum_append]
  by_cases h : least ≤ s.length <;> simp [h]

/-- The running sums wrap, which changes nothing of their lower half. -/
theorem narrow_ofInt (n : Int) : narrow (Int64.ofInt n) = modulo32 n := by
  have hwide : (Int64.ofInt n).toUInt64.toNat = (n % 2 ^ 64).toNat := BitVec.toNat_ofInt n
  apply UInt32.toNat_inj.mp
  rw [narrow, UInt64.toNat_toUInt32, hwide, modulo32, UInt32.toNat_ofNat']
  omega

def Cursor.behind (segments : List (List Int64)) : Cursor where
  source := Int64.ofInt (total 1 4 segments)
  line := Int64.ofInt (total 2 4 segments)
  column := Int64.ofInt (total 3 4 segments)
  name := Int64.ofInt (total 4 5 segments)

section
variable {before line : List (List Int64)} {delta : Int64} {fields : List Int64}

theorem ofInt_total_column : Int64.ofInt (total 0 1 (line ++ [delta :: fields])) =
    Int64.ofInt (total 0 1 line) + delta := by
  rw [total_concat, if_pos (by simp), Int64.ofInt_add, List.getD_cons_zero, Int64.ofInt_toInt]

theorem behind_concat_short {s : List Int64} (h : s.length < 4) :
    Cursor.behind (before ++ [s]) = Cursor.behind before := by
  have hfour : ¬4 ≤ s.length := Nat.not_le.mpr h
  have hfive : ¬5 ≤ s.length := fun h' => hfour (Nat.le_of_succ_le h')
  simp only [Cursor.behind, total_concat, if_neg hfour, if_neg hfive, Int.add_zero]

theorem ofInt_total_concat {field least : Nat} {s : List Int64} (h : least ≤ s.length) :
    Int64.ofInt (total field least (before ++ [s])) = Int64.ofInt (total field least before) + s.getD field 0 := by
  rw [total_concat, if_pos h, Int64.ofInt_add, Int64.ofInt_toInt]

theorem behind_concat (source l column : Int64) (rest : List Int64) :
    Cursor.behind (before ++ [delta :: source :: l :: column :: rest]) =
      ⟨(Cursor.behind before).source + source, (Cursor.behind before).line + l,
        (Cursor.behind before).column + column, (Cursor.behind before).name + rest.headD 0⟩ := by
  have hfour : 4 ≤ (delta :: source :: l :: column :: rest).length := by simp
  have hname : Int64.ofInt (total 4 5 (before ++ [delta :: source :: l :: column :: rest])) =
      Int64.ofInt (total 4 5 before) + rest.headD 0 := by
    cases rest with
    | nil =>
      rw [total_concat, if_neg (by simp), Int.add_zero]
      exact (Int64.add_zero _).symm
    | cons name rest => exact ofInt_total_concat (by simp)
  rw [Cursor.behind, ofInt_total_concat hfour, ofInt_total_concat hfour, ofInt_total_concat hfour, hname]
  rfl

theorem lastOf_concat (s : List Int64) : lastOf before (line ++ [s]) =
    if s.length < 4 then none
    else some {
      column := narrow (Int64.ofInt (total 0 1 (line ++ [s])))
      source := narrow (Cursor.behind (before ++ (line ++ [s]))).source
      sourceLine := narrow (Cursor.behind (before ++ (line ++ [s]))).line
      sourceColumn := narrow (Cursor.behind (before ++ (line ++ [s]))).column
      name := if 5 ≤ s.length then some (narrow (Cursor.behind (before ++ (line ++ [s]))).name) else none } := by
  rw [lastOf, List.getLast?_append, List.getLast?_singleton, Option.some_or, Option.bind_some]
  simp only [Cursor.behind, narrow_ofInt]

theorem segmentOf_sums (before line : List (List Int64)) (delta : Int64) (fields : List Int64) :
    segmentOf (Int64.ofInt (total 0 1 line) + delta) (Cursor.behind (before ++ line)) fields =
      (lastOf before (line ++ [delta :: fields])).map
        (·, Cursor.behind (before ++ (line ++ [delta :: fields]))) := by
  rw [lastOf_concat, ofInt_total_column]
  match fields with
  | [] => rfl
  | [_] => rfl
  | [_, _] => rfl
  | source :: l :: column :: rest =>
    rw [if_neg (by simp), Option.map_some, ← List.append_assoc, behind_concat, segmentOf]
    cases rest with
    | nil => rfl
    | cons name rest => simp

theorem filterMap_prefixes_cons {α β : Type} (f : List α → Option β) (a : α) (as : List α) :
    (a :: as).inits.tail.filterMap f = (f [a]).toList ++ as.inits.tail.filterMap fun l => f (a :: l) := by
  have hinits : as.inits = [] :: as.inits.tail := by cases as <;> rfl
  rw [List.inits_cons, List.tail_cons, List.filterMap_map, hinits, List.tail_cons, List.filterMap_cons]
  simp only [Function.comp_def]
  cases f [a] <;> rfl

theorem decodeLine_blank {w : List Char} (hw : w.isEmpty = true) (column : Int64) (k : Cursor)
    (ws : List (List Char)) : decodeLine column k (w :: ws) = decodeLine column k ws := by
  rw [decodeLine, if_pos hw]

theorem decodeLine_nil {w : List Char} (hw : w.isEmpty = false) (hs : Vlq.decode (String.ofList w) = .ok [])
    (column : Int64) (k : Cursor) (ws : List (List Char)) :
    decodeLine column k (w :: ws) = decodeLine column k ws := by
  rw [decodeLine, hw, hs]
  rfl

theorem decodeLine_segment {w : List Char} (hw : w.isEmpty = false)
    (hs : Vlq.decode (String.ofList w) = .ok (delta :: fields)) (column : Int64) (k : Cursor)
    (ws : List (List Char)) : decodeLine column k (w :: ws) =
      match segmentOf (column + delta) k fields with
      | none => decodeLine (column + delta) k ws
      | some (s, k') => (decodeLine (column + delta) k' ws).map fun p => (s :: p.1, p.2) := by
  rw [decodeLine, hw, hs]
  rfl

theorem decodeLine_sums_cons {w : List Char} {s : List Int64} (hw : w.isEmpty = false)
    (hs : Vlq.decode (String.ofList w) = .ok s) (ws : List (List Char)) :
    decodeLine (Int64.ofInt (total 0 1 line)) (Cursor.behind (before ++ line)) (w :: ws) =
      (decodeLine (Int64.ofInt (total 0 1 (line ++ [s]))) (Cursor.behind (before ++ (line ++ [s]))) ws).map
        fun p => ((lastOf before (line ++ [s])).toList ++ p.1, p.2) := by
  have hnone : ∀ x : Except Fault (List Segment × Cursor), x = x.map fun p => (Option.toList none ++ p.1, p.2) :=
    fun x => by cases x <;> rfl
  cases s with
  | nil =>
    have hcolumn : total 0 1 (line ++ [[]]) = total 0 1 line := by simp [total_concat]
    have hshort : ([] : List Int64).length < 4 := by decide
    rw [decodeLine_nil hw hs, hcolumn, ← List.append_assoc, behind_concat_short hshort, lastOf_concat, if_pos hshort]
    exact hnone _
  | cons delta fields =>
    rw [decodeLine_segment hw hs, segmentOf_sums, ← ofInt_total_column]
    cases hlast : lastOf before (line ++ [delta :: fields]) with
    | none =>
      have hshort : (delta :: fields).length < 4 := by
        rw [lastOf_concat] at hlast
        by_contra hlong
        rw [if_neg hlong] at hlast
        cases hlast
      rw [← List.append_assoc, behind_concat_short hshort]
      exact hnone _
    | some s => rfl

theorem decodeLine_sums (before line : List (List Int64)) (ws : List (List Char)) :
    decodeLine (Int64.ofInt (total 0 1 line)) (Cursor.behind (before ++ line)) ws =
      ((ws.filter (!·.isEmpty)).mapM fun w => Vlq.decode (String.ofList w)).map fun row =>
        (row.inits.tail.filterMap fun l => lastOf before (line ++ l), Cursor.behind (before ++ (line ++ row))) := by
  induction ws generalizing line with
  | nil => simp [decodeLine, Except.map, pure, Except.pure]
  | cons w ws ih =>
    cases hw : w.isEmpty with
    | true =>
      rw [decodeLine_blank hw, ih, List.filter_cons_of_neg (by simp [hw])]
    | false =>
      rw [List.filter_cons_of_pos (by simp [hw]), List.mapM_cons]
      cases hs : Vlq.decode (String.ofList w) with
      | error e =>
        rw [decodeLine, hw, hs]
        rfl
      | ok s =>
        rw [decodeLine_sums_cons hw hs, ih]
        cases (ws.filter (!·.isEmpty)).mapM fun w => Vlq.decode (String.ofList w) with
        | error e => rfl
        | ok row =>
          change Except.ok _ = Except.ok _
          dsimp only
          rw [filterMap_prefixes_cons]
          simp [List.append_assoc]

theorem decodeLines_sums (before : List (List Int64)) (ws : List (List Char)) : decodeLines (Cursor.behind before) ws =
    (ws.mapM fun line => ((Text.splitBy (· == ',') line).filter (!·.isEmpty)).mapM fun w =>
      Vlq.decode (String.ofList w)).map fun rows =>
        rows.mapIdx fun l row => row.inits.tail.filterMap (lastOf (before ++ (rows.take l).flatten)) := by
  induction ws generalizing before with
  | nil => rfl
  | cons w ws ih =>
    have hline := decodeLine_sums before [] (Text.splitBy (· == ',') w)
    have hzero : Int64.ofInt (total 0 1 []) = 0 := rfl
    rw [hzero, List.append_nil] at hline
    rw [decodeLines, hline, List.mapM_cons]
    cases ((Text.splitBy (· == ',') w).filter (!·.isEmpty)).mapM fun w => Vlq.decode (String.ofList w) with
    | error e => rfl
    | ok row =>
      change (decodeLines (Cursor.behind (before ++ row)) ws).bind _ = _
      rw [ih]
      cases ws.mapM fun line => ((Text.splitBy (· == ',') line).filter (!·.isEmpty)).mapM fun w =>
          Vlq.decode (String.ofList w) with
      | error e => rfl
      | ok rows =>
        change Except.ok _ = Except.ok _
        simp [List.mapIdx_cons, List.append_assoc]

end

/-- A text is read as what the fields of its segments add up to, or rejected if one of them is. It
has one line more than semicolons. -/
theorem mappings_are_sums (mappings : String) : decodeMappings mappings = (numbers mappings).map summed ∧
    ∀ lines, decodeMappings mappings = .ok lines → lines.length = mappings.toList.count ';' + 1 := by
  have hsums : decodeMappings mappings = (numbers mappings).map summed := by
    have hlines := decodeLines_sums [] (Text.splitBy (· == ';') mappings.toList)
    have hstart : Cursor.behind [] = {} := rfl
    simp only [hstart, List.nil_append] at hlines
    exact hlines
  refine ⟨hsums, fun lines h => ?_⟩
  rw [hsums] at h
  cases hrows : numbers mappings with
  | error e =>
    rw [hrows] at h
    cases h
  | ok rows =>
    rw [hrows] at h
    rw [← Except.ok.inj h, summed, List.length_mapIdx, ← Text.length_splitBy]
    exact (mapM_eq_ok.mp hrows).length_eq.symm

-- twice the greatest number leaves the range of the running sum
example : (decodeMappings "+///////////PAAA,+///////////PAAA").toOption =
    some [[⟨4294967295, 0, 0, 0, none⟩, ⟨4294967294, 0, 0, 0, none⟩]] := by decide +kernel

end Treeshake.SourceMap
