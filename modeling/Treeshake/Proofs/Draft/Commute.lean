import Treeshake.Proofs.Draft.Accepted
/-!
Edits that take place apart from each other. Main statement: two insertions, overwritings or removals between
characters that touch no byte in common are each accepted or refused alike whether or not the other came first, and
make the same draft in either order, with the same places and names.
-/
set_option autoImplicit false

namespace Treeshake

namespace Edit

def Local : Edit → Prop
  | .insert _ _ | .overwrite _ _ _ _ | .remove _ _ => True
  | _ => False

/-- Whether an edit inserts in front of a byte of the first text or takes the byte away. -/
def Touches : Edit → Nat → Prop
  | .insert at_ _, offset => offset = at_
  | .overwrite start stop _ _, offset | .remove start stop, offset => start ≤ offset ∧ offset < stop
  | _, _ => False

/-- Two edits of parts of a text, between its characters, that touch nothing in common. -/
structure Apart (source : String) (e f : Edit) : Prop where
  parts : e.Local ∧ f.Local
  usable : e.usable source = true ∧ f.usable source = true
  disjoint : ∀ offset, e.Touches offset → ¬f.Touches offset

def noted (source : String) (names : List (Nat × String)) : Edit → List (Nat × String)
  | .overwrite start stop _ true =>
    match Text.slice? start stop source.toList with
    | some name => Draft.recordName start (String.ofList name) names
    | none => names
  | _ => names

def Refuses : Edit → EditFault → Prop
  | .insert offset _, fault => fault = .insertAtReplaced offset
  | .overwrite start stop _ _, fault => fault = .overwriteTwice start stop
  | _, _ => False

variable {source : String} {k last : Nat} {cells : List Cell} {e f : Edit}

theorem Refuses.unique {fault fault' : EditFault} (h : e.Refuses fault) (h' : e.Refuses fault') : fault = fault' := by
  cases e with
  | insert | overwrite => exact Eq.trans h (Eq.symm h')
  | _ => exact h.elim

theorem Apart.symm (h : Apart source e f) : Apart source f e :=
  ⟨h.parts.symm, h.usable.symm, fun offset hf he => h.disjoint offset he hf⟩

theorem placed_of_touches {offset : Nat} (hpart : e.Local) (hu : e.usable source = true) (h : e.Touches offset) :
    e.Placed source := by
  cases e with
  | insert => exact hu
  | overwrite start stop text storeName =>
    obtain ⟨hstart, hstop⟩ := Bool.and_eq_true_iff.mp hu
    exact ⟨hstart, hstop, Nat.lt_of_le_of_lt h.1 h.2⟩
  | remove start stop =>
    obtain ⟨hstart, hstop⟩ := Bool.and_eq_true_iff.mp hu
    exact ⟨hstart, hstop, Nat.le_of_lt (Nat.lt_of_le_of_lt h.1 h.2)⟩
  | _ => exact hpart.elim

theorem touches_of_holds {offset : Nat} (he : e.Placed source) (h : offset ∈ e.holds) : e.Touches offset := by
  cases e with
  | insert => exact List.mem_singleton.mp h
  | overwrite start stop text storeName =>
    have hlt := he.2.2
    rcases List.mem_cons.mp h with rfl | h
    · exact ⟨Nat.le_refl _, hlt⟩
    · obtain rfl := List.mem_singleton.mp h
      exact ⟨Nat.le_sub_one_of_lt hlt, Nat.sub_one_lt_of_lt hlt⟩
  | _ => exact absurd h List.not_mem_nil

theorem touches_of_takes {offset : Nat} (h : e.Takes offset) : e.Touches offset := by
  cases e with
  | overwrite | remove => exact h
  | _ => exact h.elim

theorem Apart.spares (h : Apart source e f) (hf : f.Placed source) : e.Spares f :=
  fun offset hoffset htakes => h.disjoint offset (touches_of_takes htakes) (touches_of_holds hf hoffset)

/-- One edit in front of an offset of the first text, and another one from there on. -/
structure Parted (source : String) (k : Nat) (e f : Edit) : Prop where
  usable : Text.usable k source.toList = true
  ahead : e.Inside 0 k ∧ ∀ offset, e.Touches offset → offset < k
  behind : f.Inside k (Text.size source.toList)

theorem Apart.parted (h : Apart source e f) {i j : Nat} (hi : e.Touches i) (hj : f.Touches j) :
    ∃ k, Parted source k e f ∨ Parted source k f e := by
  have hat := h.disjoint
  have he := placed_of_touches h.parts.1 h.usable.1 hi
  have hf := placed_of_touches h.parts.2 h.usable.2 hj
  have hsize : ∀ {offset}, Text.usable offset source.toList = true → offset ≤ Text.size source.toList :=
    Text.le_size_of_usable
  cases e with
  | insert o text =>
    cases f with
    | insert o' text' =>
      have hne : o ≠ o' := hat o rfl
      rcases Nat.lt_or_gt_of_ne hne with hlt | hgt
      · exact ⟨o', .inl ⟨hf, ⟨⟨Nat.zero_le _, Nat.le_of_lt hlt⟩, fun _ ho => ho ▸ hlt⟩, ⟨Nat.le_refl _, hsize hf⟩⟩⟩
      · exact ⟨o, .inr ⟨he, ⟨⟨Nat.zero_le _, Nat.le_of_lt hgt⟩, fun _ ho => ho ▸ hgt⟩, ⟨Nat.le_refl _, hsize he⟩⟩⟩
    | overwrite start stop _ _ | remove start stop =>
      have hout : ¬(start ≤ o ∧ o < stop) := hat o rfl
      rcases Nat.lt_or_ge o start with hlt | hge
      · exact ⟨start, .inl ⟨hf.1, ⟨⟨Nat.zero_le _, Nat.le_of_lt hlt⟩, fun _ ho => ho ▸ hlt⟩,
          ⟨Nat.le_refl _, hsize hf.2.1⟩⟩⟩
      · exact ⟨stop, .inr ⟨hf.2.1, ⟨⟨Nat.zero_le _, Nat.le_refl _⟩, fun _ ho => ho.2⟩, ⟨by omega, hsize he⟩⟩⟩
    | _ => exact h.parts.2.elim
  | overwrite start stop _ _ | remove start stop =>
    cases f with
    | insert o text =>
      have hout : ¬(start ≤ o ∧ o < stop) := fun hin => hat o hin rfl
      rcases Nat.lt_or_ge o start with hlt | hge
      · exact ⟨start, .inr ⟨he.1, ⟨⟨Nat.zero_le _, Nat.le_of_lt hlt⟩, fun _ ho => ho ▸ hlt⟩,
          ⟨Nat.le_refl _, hsize he.2.1⟩⟩⟩
      · exact ⟨stop, .inl ⟨he.2.1, ⟨⟨Nat.zero_le _, Nat.le_refl _⟩, fun _ ho => ho.2⟩, ⟨by omega, hsize hf⟩⟩⟩
    | overwrite start' stop' _ _ | remove start' stop' =>
      -- the later of the two starts would be touched by both
      have hstarts : ¬(start ≤ start' ∧ start' < stop) := fun hin =>
        hat start' hin ⟨Nat.le_refl _, Nat.lt_of_le_of_lt hj.1 hj.2⟩
      have hstarts' : ¬(start' ≤ start ∧ start < stop') := fun hin =>
        hat start ⟨Nat.le_refl _, Nat.lt_of_le_of_lt hi.1 hi.2⟩ hin
      rcases Nat.le_total start start' with hle | hle
      · exact ⟨stop, .inl ⟨he.2.1, ⟨⟨Nat.zero_le _, Nat.le_refl _⟩, fun _ ho => ho.2⟩, ⟨by omega, hsize hf.2.1⟩⟩⟩
      · exact ⟨stop', .inr ⟨hf.2.1, ⟨⟨Nat.zero_le _, Nat.le_refl _⟩, fun _ ho => ho.2⟩,
          ⟨by omega, hsize he.2.1⟩⟩⟩
    | _ => exact h.parts.2.elim
  | _ => exact h.parts.1.elim

/-- Two edits of a list of cells, one in front of an offset and one behind it, change parts of it that they leave
each other. -/
theorem cut_comm {a b : List Cell} (ha : Cell.EndBy k a) (hb : Cell.StartFrom k b) (he : e.Inside 0 k)
    (hfound : ∀ offset text, e = .insert offset text → offset ≠ last ∧ a.any (·.covers offset) = true)
    (hf : f.Inside k last) :
    f.cut last (e.cut last (a ++ b)) = e.cut last (f.cut last (a ++ b)) := by
  have hkept : Cell.EndBy k (e.cut last a) :=
    fun c hc o ho => ha c (mem_cut hc (Option.isSome_of_eq_some ho)) o ho
  calc f.cut last (e.cut last (a ++ b))
      = f.cut last (e.cut last a ++ b) := by rw [cut_ahead hb he hfound]
    _ = e.cut last a ++ f.cut last b := cut_behind hkept hf
    _ = e.cut last (a ++ f.cut last b) := (cut_ahead (startFrom_cut hb) he hfound).symm
    _ = e.cut last (f.cut last (a ++ b)) := by rw [cut_behind ha hf]

end Edit

namespace Draft

variable {d d' d₁ d₂ : Draft} {e f : Edit}

theorem recordName_comm_of_lt {i j : Nat} (h : i < j) (n m : String) (names : List (Nat × String)) :
    recordName i n (recordName j m names) = recordName j m (recordName i n names) := by
  have hback : ¬j < i := Nat.lt_asymm h
  have hne : j ≠ i := Nat.ne_of_gt h
  induction names with
  | nil => simp only [recordName, if_pos h, if_neg hback, if_neg hne]
  | cons x names ih =>
    obtain ⟨o, w⟩ := x
    rcases Nat.lt_trichotomy i o with hi | rfl | hi
    · -- one name comes in front of all, wherever the other one goes
      have hfront : ∀ rest, recordName j m ((i, n) :: rest) = (i, n) :: recordName j m rest := fun rest => by
        rw [recordName, if_neg hback, if_neg hne]
      have hfirst : recordName i n ((o, w) :: names) = (i, n) :: (o, w) :: names := by rw [recordName, if_pos hi]
      rw [hfirst, hfront]
      simp only [recordName]
      split
      · rw [recordName, if_pos h]
      · split
        · rw [recordName, if_pos h]
        · rw [recordName, if_pos hi]
    · simp only [recordName, if_neg hback, if_neg hne, if_neg (Nat.lt_irrefl i), if_true]
    · have hj : o < j := Nat.lt_trans hi h
      simp only [recordName, if_neg (Nat.lt_asymm hi), if_neg (Nat.ne_of_gt hi), if_neg (Nat.lt_asymm hj),
        if_neg (Nat.ne_of_gt hj), ih]

theorem recordName_comm {i j : Nat} (h : i ≠ j) (n m : String) (names : List (Nat × String)) :
    recordName i n (recordName j m names) = recordName j m (recordName i n names) := by
  rcases Nat.lt_or_gt_of_ne h with hlt | hgt
  · exact recordName_comm_of_lt hlt n m names
  · exact (recordName_comm_of_lt hgt m n names).symm

theorem noted_comm {source : String} (he : e.Local) (hf : f.Local) (h : ∀ offset, e.Touches offset → ¬f.Touches offset)
    {i j : Nat} (hi : e.Touches i) (hj : f.Touches j) (names : List (Nat × String)) :
    f.noted source (e.noted source names) = e.noted source (f.noted source names) := by
  cases e with
  | overwrite start stop text storeName =>
    cases f with
    | overwrite start' stop' text' storeName' =>
      have hne : start ≠ start' := by
        rintro rfl
        exact h start ⟨Nat.le_refl _, Nat.lt_of_le_of_lt hi.1 hi.2⟩ ⟨Nat.le_refl _, Nat.lt_of_le_of_lt hj.1 hj.2⟩
      cases storeName <;> cases storeName' <;> try rfl
      simp only [Edit.noted]
      cases Text.slice? start stop source.toList <;> cases Text.slice? start' stop' source.toList <;> try rfl
      exact recordName_comm (Ne.symm hne) _ _ names
    | insert | remove => rfl
    | _ => exact hf.elim
  | insert | remove => rfl
  | _ => exact he.elim

theorem apply_eq (hpart : e.Local) (h : e.apply d = .ok d') :
    d' = { d with cells := e.cut d.length d.cells, names := e.noted d.source d.names } := by
  cases e with
  | insert offset text =>
    rw [Edit.cut]
    rcases insert_eq_ok h with ⟨hlength, rfl⟩ | ⟨hlt, x, c, z, hcells, hx, hc, rfl⟩
    · rw [if_pos hlength]
      rfl
    · rw [if_neg (Nat.ne_of_lt hlt), hcells, Cell.upTo_eq hx hc, Cell.since_eq hx hc]
      rfl
  | overwrite start stop text storeName =>
    simp only [Edit.apply, overwrite] at h
    split at h
    · cases h
    · next hlt =>
      split at h
      · cases h
      · split at h
        · next first last hfirst hlast =>
          split at h
          · have hany : ∀ {offset c}, d.cellAt? offset = some c → d.cells.any (·.covers offset) = true := fun hc =>
              List.any_eq_true.mpr ⟨_, List.mem_of_find?_eq_some hc, List.find?_some hc⟩
            rw [Edit.cut, if_pos ⟨Nat.not_le.mp hlt, hany hfirst, hany hlast⟩, ← Except.ok.inj h]
            cases storeName <;> rfl
          · cases h
        · cases h
  | remove start stop =>
    simp only [Edit.apply, remove] at h
    split at h
    · cases h
    · split at h
      · cases h
      · rw [Edit.cut]
        split at h
        · next hany =>
          rw [if_pos hany, ← Except.ok.inj h]
          rfl
        · next hnone =>
          rw [if_neg hnone, ← Except.ok.inj h]
          rfl
  | _ => exact hpart.elim

theorem Intact.parts (hd : d.Intact) {k : Nat} (hu : Text.usable k d.source.toList = true) :
    ∃ a b, d.cells = a ++ b ∧ Cell.EndBy k a ∧ Cell.StartFrom k b := by
  have hends : ∀ {a : List Cell}, a ⊆ d.cells → (∀ c ∈ a, c.origin.any (k ≤ ·) = false) → Cell.EndBy k a := by
    intro a hsub ha c hc o ho
    have hearlier := ha c hc
    simp only [ho, Option.any_some, decide_eq_false_iff_not, Nat.not_le] at hearlier
    exact hd.origin_usable (hsub hc) ho hu hearlier
  by_cases hany : d.cells.any (fun c => c.origin.any (k ≤ ·)) = true
  · obtain ⟨a, c, z, hcells, ha, hc⟩ := Cell.exists_first hany
    obtain ⟨o, ho, hle⟩ := (Option.any_eq_true _ _).mp hc
    have hle := of_decide_eq_true hle
    have hp := hd.pairwise
    rw [hcells] at hp
    refine ⟨a, c :: z, hcells, hends (hcells ▸ List.subset_append_left _ _) ha, fun c' hc' o' ho' => ?_⟩
    rcases List.mem_cons.mp hc' with rfl | hc'
    · obtain rfl := Option.some.inj (ho.symm.trans ho')
      exact hle
    · have := (List.pairwise_cons.mp (List.pairwise_append.mp hp).2.1).1 c' hc' o o' ho ho'
      omega
  · refine ⟨d.cells, [], (List.append_nil _).symm, hends (List.Subset.refl _) fun c hc => ?_, nofun⟩
    exact Bool.eq_false_iff.mpr fun hlater => hany (List.any_eq_true.mpr ⟨c, hc, hlater⟩)

theorem any_covers_of_insert {offset : Nat} {text : String} (h : d.insert offset text = .ok d')
    (hlt : offset < d.length) : d.cells.any (·.covers offset) = true := by
  rcases insert_eq_ok h with ⟨hlength, -⟩ | ⟨-, x, c, z, hcells, -, hc, -⟩
  · exact absurd hlength (Nat.ne_of_lt hlt)
  · rw [hcells]
    simp [hc]

theorem cut_comm_of_parted {k : Nat} (hd : d.Intact) (h : Edit.Parted d.source k e f) (he : e.apply d = .ok d₁) :
    f.cut d.length (e.cut d.length d.cells) = e.cut d.length (f.cut d.length d.cells) := by
  obtain ⟨a, b, hcells, ha, hb⟩ := hd.parts h.usable
  have hk : k ≤ d.length := Text.le_size_of_usable h.usable
  rw [hcells]
  refine Edit.cut_comm ha hb h.ahead.1 (fun offset text hinsert => ?_) h.behind
  subst hinsert
  have hlt : offset < k := h.ahead.2 offset rfl
  have hany := any_covers_of_insert he (Nat.lt_of_lt_of_le hlt hk)
  rw [hcells, Cell.any_append_of_none_behind (hb.covers hlt)] at hany
  exact ⟨Nat.ne_of_lt (Nat.lt_of_lt_of_le hlt hk), hany⟩

theorem edit_of_ok (h : e.apply d = .ok d') (es : List Edit) : d.edit (e :: es) = d'.edit es := by
  rw [edit, h]
  rfl

theorem edit_of_error {fault : EditFault} (h : e.apply d = .error fault) (es : List Edit) :
    d.edit (e :: es) = d.edit es := by
  rw [edit, h]
  rfl

theorem refuses_of_error {fault : EditFault} (hd : d.Intact) (hpart : e.Local) (he : e.Placed d.source)
    (h : e.apply d = .error fault) : e.Refuses fault := by
  cases e with
  | insert offset text =>
    have hlength : offset ≤ d.length := Text.le_size_of_usable he
    simp only [Edit.apply, insert] at h
    split at h
    · cases h
    · rw [if_neg (Nat.not_lt.mpr hlength)] at h
      split at h
      · exact (Except.error.inj h).symm
      · cases h
  | overwrite start stop text storeName =>
    have hlength : stop ≤ d.length := Text.le_size_of_usable he.2.1
    have hnone : ¬∃ d', d.overwrite start stop text storeName = .ok d' := by
      rintro ⟨d', hok⟩
      cases hok.symm.trans h
    simp only [Edit.apply, overwrite] at h
    rw [if_neg (Nat.not_le.mpr he.2.2), if_neg (Nat.not_lt.mpr hlength)] at h
    split at h
    · next first last hfirst hlast =>
      have hthere : ∀ {offset c}, d.cellAt? offset = some c → (d.locate? offset).isSome = true := fun hc => by
        rw [locate?, Cell.isSome_locate?]
        exact List.any_eq_true.mpr ⟨_, List.mem_of_find?_eq_some hc, List.find?_some hc⟩
      exact absurd (exists_overwrite hd he (hthere hfirst) (hthere hlast)) hnone
    · exact (Except.error.inj h).symm
  | remove start stop =>
    obtain ⟨d', hok⟩ := (exists_apply_iff hd he).mpr (List.forall_mem_nil _)
    cases hok.symm.trans h
  | _ => exact hpart.elim

theorem error_iff_of_spares (hd : d.Intact) (he : e.Placed d.source) (hpart : f.Local) (hf : f.Placed d.source)
    (hspares : e.Spares f) (fault : EditFault) :
    f.apply (d.edit [e]) = .error fault ↔ f.apply d = .error fault := by
  cases h : e.apply d with
  | error => rw [edit_of_error h]; rfl
  | ok d' =>
    have hsource := source_apply hd h
    have haccepted : (∃ d₁, f.apply d' = .ok d₁) ↔ ∃ d₁, f.apply d = .ok d₁ := by
      rw [exists_apply_iff (intact_apply hd h) (hsource ▸ hf), exists_apply_iff hd hf]
      exact forall₂_congr fun offset hoffset => live_apply_iff hd he h (hspares offset hoffset)
    have hrefused : ∀ {x : Except EditFault Draft}, (¬∃ d₁, x = .ok d₁) ↔ ∃ fault, x = .error fault := by
      intro x
      cases x with
      | error y => exact ⟨fun _ => ⟨y, rfl⟩, fun _ ⟨_, hok⟩ => by cases hok⟩
      | ok y => exact ⟨fun hnot => absurd ⟨y, rfl⟩ hnot, fun ⟨_, herror⟩ => by cases herror⟩
    have hsame : (∃ fault, f.apply d' = .error fault) ↔ ∃ fault, f.apply d = .error fault := by
      rw [← hrefused, ← hrefused, haccepted]
    rw [edit_of_ok h]
    constructor
    · intro herror
      obtain ⟨fault', herror'⟩ := hsame.mp ⟨fault, herror⟩
      have hfault := refuses_of_error (intact_apply hd h) hpart (hsource ▸ hf) herror
      rw [herror', hfault.unique (refuses_of_error hd hpart hf herror')]
    · intro herror
      obtain ⟨fault', herror'⟩ := hsame.mpr ⟨fault, herror⟩
      have hfault := refuses_of_error (intact_apply hd h) hpart (hsource ▸ hf) herror'
      change f.apply d' = _
      rw [herror', hfault.unique (refuses_of_error hd hpart hf herror)]

/-- An edit that touches nothing leaves every draft of the text as it is, or is always refused. -/
theorem apply_void {source : String} (hpart : e.Local) (hu : e.usable source = true) (h : ∀ offset, ¬e.Touches offset) :
    (∀ d : Draft, d.source = source → e.apply d = .ok d) ∨ ∃ fault, ∀ d : Draft, e.apply d = .error fault := by
  cases e with
  | insert offset text => exact absurd rfl (h offset)
  | overwrite start stop text storeName =>
    have hle : stop ≤ start := Nat.not_lt.mp fun hlt => h start ⟨Nat.le_refl _, hlt⟩
    exact .inr ⟨.invalidRange start stop, fun d => if_pos hle⟩
  | remove start stop =>
    have hle : stop ≤ start := Nat.not_lt.mp fun hlt => h start ⟨Nat.le_refl _, hlt⟩
    rcases Nat.lt_or_eq_of_le hle with hlt | rfl
    · exact .inr ⟨.invalidRange start stop, fun d => if_pos hlt⟩
    · refine .inl fun d hsource => ?_
      have hlength : stop ≤ d.length := Text.le_size_of_usable (hsource ▸ (Bool.and_eq_true_iff.mp hu).2)
      have hnone : ¬d.cells.any (·.within stop stop) = true := by
        simp [Cell.within_of_le (Nat.le_refl stop)]
      rw [Edit.apply, remove, if_neg (Nat.lt_irrefl _), if_neg (Nat.not_lt.mpr hlength), if_neg hnone]
  | _ => exact hpart.elim

theorem commutes_of_void {source : String} (hd : d.Intact) (hsource : d.source = source)
    (h : (∀ d : Draft, d.source = source → e.apply d = .ok d) ∨ ∃ fault, ∀ d : Draft, e.apply d = .error fault)
    (f : Edit) : (∀ fault, e.apply (d.edit [f]) = .error fault ↔ e.apply d = .error fault) ∧ d.edit [e] = d ∧
      d.edit [f, e] = d.edit [f] := by
  have hkept : (d.edit [f]).source = source := (source_edit hd [f]).trans hsource
  have hlast : d.edit [f, e] = (d.edit [f]).edit [e] := rfl
  rcases h with hall | ⟨fault, hall⟩
  · have hboth := hall (d.edit [f]) hkept
    refine ⟨fun fault => ?_, edit_of_ok (hall d hsource) [], hlast.trans (edit_of_ok hboth [])⟩
    rw [hboth, hall d hsource]
    exact ⟨nofun, nofun⟩
  · refine ⟨fun fault' => ?_, edit_of_error (hall d) [], hlast.trans (edit_of_error (hall _) [])⟩
    rw [hall, hall]

/-- Accepted edits that touch something, but nothing in common, make the same draft in either order. -/
theorem edit_comm (hd : d.Intact) (h : Edit.Apart d.source e f) {i j : Nat} (hi : e.Touches i) (hj : f.Touches j) :
    d.edit [e, f] = d.edit [f, e] := by
  have he := Edit.placed_of_touches h.parts.1 h.usable.1 hi
  have hf := Edit.placed_of_touches h.parts.2 h.usable.2 hj
  have hfirst := error_iff_of_spares hd hf h.parts.1 he (h.symm.spares he)
  have hsecond := error_iff_of_spares hd he h.parts.2 hf (h.spares hf)
  have htwo : ∀ e f, d.edit [e, f] = (d.edit [e]).edit [f] := fun _ _ => rfl
  cases hd₁ : e.apply d with
  | error fault => rw [edit_of_error hd₁, htwo f e, edit_of_error ((hfirst fault).mpr hd₁)]; rfl
  | ok d₁ =>
    cases hd₂ : f.apply d with
    | error fault => rw [edit_of_error hd₂, htwo e f, edit_of_error ((hsecond fault).mpr hd₂)]; rfl
    | ok d₂ =>
      rw [edit_of_ok hd₁] at hsecond ⊢
      rw [edit_of_ok hd₂] at hfirst ⊢
      cases hd₃ : f.apply d₁ with
      | error fault => cases ((hsecond fault).mp hd₃).symm.trans hd₂
      | ok d₃ =>
        cases hd₄ : e.apply d₂ with
        | error fault => cases ((hfirst fault).mp hd₄).symm.trans hd₁
        | ok d₄ =>
          rw [edit_of_ok hd₃, edit_of_ok hd₄]
          have hcells : f.cut d.length (e.cut d.length d.cells) = e.cut d.length (f.cut d.length d.cells) := by
            obtain ⟨k, hparted | hparted⟩ := h.parted hi hj
            · exact cut_comm_of_parted hd hparted hd₁
            · exact (cut_comm_of_parted hd hparted hd₂).symm
          have hnames : f.noted d.source (e.noted d.source d.names) = e.noted d.source (f.noted d.source d.names) :=
            noted_comm h.parts.1 h.parts.2 h.disjoint hi hj d.names
          rw [apply_eq h.parts.2 hd₃, apply_eq h.parts.1 hd₄, apply_eq h.parts.1 hd₁, apply_eq h.parts.2 hd₂]
          exact congrArg₂ (fun cells names => ({ d with cells, names } : Draft).edit []) hcells hnames

/-- Edits of a text that take place apart from each other commute: after any edits, each of the two is refused for the
same reason or accepted, whether or not the other one came first, and both orders end in the same draft. -/
theorem apart_edits_commute (source : String) (edits : List Edit) {e f : Edit} (h : e.Apart source f) :
    let d := (ofText source).edit edits
    (∀ fault, e.apply (d.edit [f]) = .error fault ↔ e.apply d = .error fault) ∧
      (∀ fault, f.apply (d.edit [e]) = .error fault ↔ f.apply d = .error fault) ∧
      d.edit [e, f] = d.edit [f, e] := by
  intro d
  have hd : d.Intact := intact_edit (intact_ofText source) edits
  have hsource : d.source = source := source_edit (intact_ofText source) edits
  have hapart : Edit.Apart d.source e f := hsource.symm ▸ h
  by_cases he : ∃ i, e.Touches i
  · by_cases hf : ∃ j, f.Touches j
    · obtain ⟨i, hi⟩ := he
      obtain ⟨j, hj⟩ := hf
      have hplaced := Edit.placed_of_touches hapart.parts.1 hapart.usable.1 hi
      have hplaced' := Edit.placed_of_touches hapart.parts.2 hapart.usable.2 hj
      exact ⟨error_iff_of_spares hd hplaced' h.parts.1 hplaced (hapart.symm.spares hplaced),
        error_iff_of_spares hd hplaced h.parts.2 hplaced' (hapart.spares hplaced'), edit_comm hd hapart hi hj⟩
    · have hvoid := apply_void h.parts.2 h.usable.2 (not_exists.mp hf)
      obtain ⟨hrefused, hfirst, hlast⟩ := commutes_of_void hd hsource hvoid e
      have hkept : d.edit [f, e] = (d.edit [f]).edit [e] := rfl
      rw [hkept, hfirst]
      exact ⟨fun _ => Iff.rfl, hrefused, hlast⟩
  · have hvoid := apply_void h.parts.1 h.usable.1 (not_exists.mp he)
    obtain ⟨hrefused, hfirst, hlast⟩ := commutes_of_void hd hsource hvoid f
    have hkept : d.edit [e, f] = (d.edit [e]).edit [f] := rfl
    rw [hkept, hfirst]
    exact ⟨hrefused, fun _ => Iff.rfl, hlast.symm⟩

theorem apart_edits_commute_touching :
    let d := (ofText "abcdef").edit [.remove 1 3, .insert 3 "__"]
    let e := Edit.overwrite 3 5 "XY" true
    let f := Edit.insert 5 "!"
    e.Apart "abcdef" f ∧ (∀ fault, e.apply (d.edit [f]) = .error fault ↔ e.apply d = .error fault) ∧
      d.edit [e, f] = d.edit [f, e] ∧ (d.edit [e, f]).text = "a__XY!f" ∧ (d.edit [e, f]).names = [(3, "de")] := by
  intro d e f
  have hapart : e.Apart "abcdef" f := by
    refine ⟨⟨trivial, trivial⟩, ⟨by decide +kernel, by decide +kernel⟩, fun offset he hf => ?_⟩
    obtain rfl : offset = 5 := hf
    exact Nat.lt_irrefl 5 he.2
  obtain ⟨hrefused, -, hboth⟩ := apart_edits_commute "abcdef" [.remove 1 3, .insert 3 "__"] hapart
  exact ⟨hapart, hrefused, hboth, by decide +kernel, by decide +kernel⟩

end Draft

end Treeshake
