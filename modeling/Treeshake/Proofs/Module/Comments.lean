import Treeshake.Module.Basic
import Treeshake.Proofs.Draft.Accepted
/-!
What is stripped of a text before its statements are read. Main statement: a byte is gone from the draft if and only if
it belongs to a comment that names a source map.
-/
set_option autoImplicit false

namespace Treeshake

namespace Module

def InMapComment (code : List Char) (k : Nat) : Prop := ∃ c ∈ mapComments 0 0 code, c.1 ≤ k ∧ k < c.2

instance (code : List Char) (k : Nat) : Decidable (InMapComment code k) :=
  inferInstanceAs (Decidable (∃ c ∈ mapComments 0 0 code, c.1 ≤ k ∧ k < c.2))

theorem mapComment?_prefix {cs found : List Char} (h : mapComment? cs = some found) : found <+: cs := by
  unfold mapComment? at h
  extract_lets rest blanks name tail line length at h
  split at h
  · split at h
    · split at h
      · cases h
      · obtain rfl := Option.some.inj h
        exact List.take_prefix _ _
    · cases h
  · cases h

theorem usable_mapComments (before : List Char) (skip : Nat) (cs : List Char) :
    ∀ c ∈ mapComments skip (Text.size before) cs,
      Text.usable c.1 (before ++ cs) = true ∧ Text.usable c.2 (before ++ cs) = true := by
  induction cs generalizing before skip with
  | nil => cases skip <;> exact List.forall_mem_nil _
  | cons x cs ih =>
    have hnext : ∀ skip, ∀ c ∈ mapComments skip (Text.size before + x.utf8Size) cs,
        Text.usable c.1 (before ++ x :: cs) = true ∧ Text.usable c.2 (before ++ x :: cs) = true := by
      intro skip
      have h := ih (before ++ [x]) skip
      rwa [Text.size_append, List.append_assoc] at h
    cases skip with
    | succ skip =>
      rw [mapComments]
      exact hnext skip
    | zero =>
      rw [mapComments]
      split
      · next found hfound =>
        obtain ⟨rest, hrest⟩ := mapComment?_prefix hfound
        refine List.forall_mem_cons.mpr ⟨⟨?_, ?_⟩, hnext _⟩
        · exact Text.usable_size_append before (x :: cs)
        · rw [← hrest, ← List.append_assoc, ← Text.size_append]
          exact Text.usable_size_append (before ++ found) rest
      · exact hnext 0

end Module

namespace Draft

variable {d d' : Draft} {start stop : Nat}

/-- What a removal takes away is what lies in its range. -/
theorem live_remove (hd : d.Intact) (hstart : Text.usable start d.source.toList = true)
    (hstop : Text.usable stop d.source.toList = true) (h : d.remove start stop = .ok d') (k : Nat) :
    d'.Live k ↔ d.Live k ∧ ¬(start ≤ k ∧ k < stop) := by
  have hlength : stop ≤ d.length := Text.le_size_of_usable hstop
  have hplaced : (Edit.remove start stop).Placed d.source := ⟨hstart, hstop, (remove_eq_ok h).1⟩
  by_cases hin : start ≤ k ∧ k < stop
  · have hmove := congrArg Option.isSome (locate?_apply hd hplaced.usable (e := .remove start stop) h k)
    have hgone : (d'.locate? k).isSome = false := by
      rw [Option.isSome_map] at hmove
      rw [hmove]
      cases d.locate? k with
      | none => rfl
      | some place =>
        have hgone : d.moveRemoved start stop k place = none := by rw [moveRemoved, if_neg (by omega), if_pos hin.2]
        exact congrArg Option.isSome hgone
    have hlength' : d'.length = d.length := length_apply hd (e := .remove start stop) h
    refine ⟨fun hlive => ?_, fun hout => absurd hin hout.2⟩
    have hthere := hlive (by omega)
    rw [hgone] at hthere
    cases hthere
  · rw [and_iff_left hin]
    exact live_apply_iff hd hplaced h hin

theorem live_removals {rs : List (Nat × Nat)} (hd : d.Intact)
    (hrs : ∀ r ∈ rs, Text.usable r.1 d.source.toList = true ∧ Text.usable r.2 d.source.toList = true)
    (h : rs.foldlM (fun d r => d.remove r.1 r.2) d = .ok d') (k : Nat) :
    d'.Live k ↔ d.Live k ∧ ¬∃ r ∈ rs, r.1 ≤ k ∧ k < r.2 := by
  induction rs generalizing d with
  | nil =>
    obtain rfl := Except.ok.inj h
    exact (and_iff_left fun hr => by simp at hr).symm
  | cons r rs ih =>
    obtain ⟨hr, hrs⟩ := List.forall_mem_cons.mp hrs
    rw [List.foldlM_cons] at h
    obtain ⟨d₁, hremove, h⟩ := bind_eq_ok.mp h
    rw [ih (intact_remove hd hremove) (source_remove hremove ▸ hrs) h, live_remove hd hr.1 hr.2 hremove, and_assoc]
    exact and_congr_right fun _ => by rw [List.exists_mem_cons_iff, not_or]

theorem any_covers_settled {offset k : Nat} {cs : List Char} (hle : offset ≤ k) (hlt : k < offset + Text.size cs) :
    (Cell.settled offset cs).any (·.covers k) = true := by
  induction cs generalizing offset with
  | nil => exact absurd (Nat.lt_of_le_of_lt hle hlt) (Nat.lt_irrefl _)
  | cons c cs ih =>
    rw [Text.size] at hlt
    rw [Cell.settled, List.any_cons, Bool.or_eq_true]
    rcases Nat.lt_or_ge k (offset + c.utf8Size) with hin | hbehind
    · exact .inl (Cell.covers_iff.mpr ⟨offset, rfl, hle, hin⟩)
    · exact .inr (ih hbehind (by omega))

theorem live_ofText (source : String) (k : Nat) : (ofText source).Live k := by
  intro hlt
  rw [locate?, Cell.isSome_locate?]
  have hlength : (ofText source).length = Text.size source.toList := rfl
  exact any_covers_settled (Nat.zero_le k) (by omega)

def Keeps (code : List Char) (d : Draft) (k : Nat) : Prop := d.Live k ↔ ¬Module.InMapComment code k

theorem Keeps.remove {code : List Char} {k : Nat} (hd : d.Intact) (hstart : Text.usable start d.source.toList = true)
    (hstop : Text.usable stop d.source.toList = true) (h : d.remove start stop = .ok d')
    (hk : d.Keeps code k) (hout : k < start ∨ stop ≤ k) : d'.Keeps code k := by
  rw [Keeps, live_remove hd hstart hstop h, and_iff_left (by omega)]
  exact hk

end Draft

namespace Module

theorem keeps_startDraft {code : String} {root : Node} {d : Draft} (h : startDraft code root = .ok d) (k : Nat) :
    d.Keeps code.toList k := by
  obtain ⟨d₁, hremoved, h⟩ := bind_eq_ok.mp h
  obtain rfl := Except.ok.inj h
  have husable := usable_mapComments [] 0 code.toList
  have hlive := Draft.live_removals (Draft.intact_ofText code) husable hremoved k
  have hanchors : ∀ (nodes : List Node) (d : Draft),
      (nodes.foldl (fun d n => (d.anchor n.start).anchor n.stop) d).Live k ↔ d.Live k := by
    intro nodes
    induction nodes with
    | nil => exact fun _ => Iff.rfl
    | cons n nodes ih => exact fun d => ih ((d.anchor n.start).anchor n.stop)
  rw [Draft.Keeps, hanchors, hlive, and_iff_right (Draft.live_ofText code k)]
  rfl

end Module

end Treeshake
