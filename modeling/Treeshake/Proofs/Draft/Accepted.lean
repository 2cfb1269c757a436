import Treeshake.Proofs.Draft.Stretch
/-!
Which edits are refused. An edit holds on to the bytes at the ends of its range. Main statement: edits that lie
between characters, and of which none takes away what a later one holds on to, are all accepted if and only if
nothing that they hold on to was gone before.
-/
set_option autoImplicit false

namespace Treeshake

theorem Text.usable_size_append (a b : List Char) : usable (size a) (a ++ b) = true := by
  rw [usable, before?_size_append]
  rfl

theorem Text.le_size_of_usable {offset : Nat} {cs : List Char} (h : usable offset cs = true) : offset ≤ size cs := by
  obtain ⟨a, b, rfl, rfl⟩ := eq_append_of_usable h
  rw [size_append]
  exact Nat.le_add_right ..

namespace Edit

/-- An edit of a part of the text whose offsets lie between characters, one in front of the other. -/
def Placed (source : String) : Edit → Prop
  | .insert offset _ => Text.usable offset source.toList = true
  | .overwrite start stop _ _ =>
    Text.usable start source.toList = true ∧ Text.usable stop source.toList = true ∧ start < stop
  | .remove start stop =>
    Text.usable start source.toList = true ∧ Text.usable stop source.toList = true ∧ start ≤ stop
  | .anchor _ | .protect _ _ => True
  | _ => False

/-- The bytes of the first text that must be there for an edit. -/
def holds : Edit → List Nat
  | .insert offset _ => [offset]
  | .overwrite start stop _ _ => [start, stop - 1]
  | _ => []

def Takes : Edit → Nat → Prop
  | .overwrite start stop _ _, offset | .remove start stop, offset => start ≤ offset ∧ offset < stop
  | _, _ => False

/-- An edit leaves all that another one holds on to. -/
def Spares (e f : Edit) : Prop := ∀ offset ∈ f.holds, ¬e.Takes offset

theorem Placed.usable {source : String} {e : Edit} (h : e.Placed source) : e.usable source = true := by
  cases e with
  | insert => exact h
  | overwrite | remove => exact Bool.and_eq_true_iff.mpr ⟨h.1, h.2.1⟩
  | anchor | protect => rfl
  | _ => exact h.elim

end Edit

namespace Draft

variable {d d' : Draft} {e : Edit} {es : List Edit}

/-- A byte of the first text is still there, unless it is behind the end. -/
def Live (d : Draft) (offset : Nat) : Prop := offset < d.length → (d.locate? offset).isSome = true

theorem exists_cellAt? {offset : Nat} (h : (d.locate? offset).isSome = true) :
    ∃ c ∈ d.cells, d.cellAt? offset = some c ∧ c.covers offset = true := by
  rw [locate?, Cell.isSome_locate?] at h
  obtain ⟨c, hc⟩ := Option.isSome_iff_exists.mp (List.find?_isSome.mpr (List.any_eq_true.mp h))
  exact ⟨c, List.mem_of_find?_eq_some hc, hc, List.find?_some hc⟩

theorem exists_overwrite (hd : d.Intact) {start stop : Nat} {text : String} {storeName : Bool}
    (he : (Edit.overwrite start stop text storeName).Placed d.source)
    (hfirst : (d.locate? start).isSome = true) (hlast : (d.locate? (stop - 1)).isSome = true) :
    ∃ d', d.overwrite start stop text storeName = .ok d' := by
  obtain ⟨hstart, hstop, hlt⟩ := he
  obtain ⟨first, hfirstMem, hfirst, hfirstCovers⟩ := exists_cellAt? hfirst
  obtain ⟨last, hlastMem, hlast, hlastCovers⟩ := exists_cellAt? hlast
  have hstarts : first.startsAt start = true := by
    obtain ⟨o, ho, hle, hend⟩ := Cell.covers_iff.mp hfirstCovers
    have heq : o = start := by
      rcases Nat.lt_or_ge o start with hbefore | hge
      · have := hd.origin_usable hfirstMem ho hstart hbefore
        omega
      · omega
    rw [Cell.startsAt, ho, heq]
    exact beq_self_eq_true _
  have hends : last.endsAt stop = true := by
    obtain ⟨o, ho, hle, hend⟩ := Cell.covers_iff.mp hlastCovers
    have := hd.origin_usable hlastMem ho hstop (by omega)
    rw [Cell.endsAt, ho, Option.any_some, beq_iff_eq]
    omega
  have hlength : stop ≤ d.length := Text.le_size_of_usable hstop
  rw [overwrite, if_neg (by omega), if_neg (by omega), hfirst, hlast]
  simp [hstarts, hends]

theorem exists_apply_iff (hd : d.Intact) (he : e.Placed d.source) :
    (∃ d', e.apply d = .ok d') ↔ ∀ offset ∈ e.holds, d.Live offset := by
  cases e with
  | insert offset text =>
    have hlength : offset ≤ d.length := Text.le_size_of_usable he
    simp only [Edit.apply, insert, Edit.holds, List.forall_mem_singleton, Live]
    split
    · exact ⟨fun _ hlt => by omega, fun _ => ⟨_, rfl⟩⟩
    · rw [if_neg (by omega)]
      have hlt : offset < d.length := by omega
      cases d.locate? offset with
      | none =>
        constructor
        · rintro ⟨_, h⟩
          cases h
        · intro h
          cases h hlt
      | some place => exact ⟨fun _ _ => rfl, fun _ => ⟨_, rfl⟩⟩
  | overwrite start stop text storeName =>
    have hlength : stop ≤ d.length := Text.le_size_of_usable he.2.1
    have hlt : start < stop := he.2.2
    constructor
    · rintro ⟨d', h⟩
      obtain ⟨-, -, a, m, z, names, -, -, hfirst, hlast, -⟩ := overwrite_eq_ok hd h
      refine List.forall_mem_cons.mpr ⟨fun _ => ?_, List.forall_mem_singleton.mpr fun _ => ?_⟩
      · exact Option.isSome_of_eq_some hfirst
      · exact Option.isSome_of_eq_some hlast
    · intro h
      obtain ⟨hfirst, hlast⟩ := List.forall_mem_cons.mp h
      have hlast := List.forall_mem_singleton.mp hlast
      exact exists_overwrite hd he (hfirst (by omega)) (hlast (by omega))
  | remove start stop =>
    have hlength : stop ≤ d.length := Text.le_size_of_usable he.2.1
    have hle : start ≤ stop := he.2.2
    refine ⟨fun _ => List.forall_mem_nil _, fun _ => ?_⟩
    simp only [Edit.apply, remove]
    rw [if_neg (by omega), if_neg (by omega)]
    split <;> exact ⟨_, rfl⟩
  | anchor | protect => exact ⟨fun _ => List.forall_mem_nil _, fun _ => ⟨_, rfl⟩⟩
  | _ => exact he.elim

theorem isSome_locate?_apply (hd : d.Intact) (he : e.Placed d.source) (h : e.apply d = .ok d') {offset : Nat}
    (hspared : ¬e.Takes offset) : (d'.locate? offset).isSome = (d.locate? offset).isSome := by
  have hmove := congrArg Option.isSome (locate?_apply hd he.usable h offset)
  rw [Option.isSome_map] at hmove
  rw [hmove]
  cases d.locate? offset with
  | none => rfl
  | some place =>
    have hsome : (e.move d offset place).isSome = true := by
      cases e with
      | insert at_ text =>
        rw [Edit.move]
        split <;> rfl
      | overwrite start stop text storeName =>
        have hout : ¬(start ≤ offset ∧ offset < stop) := hspared
        rw [Edit.move]
        split
        · rfl
        · rw [if_neg (by omega)]
          split <;> rfl
      | remove start stop =>
        have hout : ¬(start ≤ offset ∧ offset < stop) := hspared
        rw [Edit.move, moveRemoved]
        split
        · rfl
        · rw [if_neg (by omega)]
          split <;> rfl
      | anchor | protect => rfl
      | _ => exact he.elim
    exact hsome

theorem length_apply (hd : d.Intact) (h : e.apply d = .ok d') : d'.length = d.length := by
  rw [length, length, source_apply hd h]

theorem live_apply_iff (hd : d.Intact) (he : e.Placed d.source) (h : e.apply d = .ok d') {offset : Nat}
    (hspared : ¬e.Takes offset) : d'.Live offset ↔ d.Live offset := by
  rw [Live, Live, length_apply hd h, isSome_locate?_apply hd he h hspared]

/-- Edits that spare what later ones hold on to are all accepted if and only if all that they hold on to is there at
the start. -/
theorem exists_revise_iff (hd : d.Intact) (hplaced : ∀ e ∈ es, e.Placed d.source) (hspares : es.Pairwise Edit.Spares) :
    (∃ d', d.revise es = .ok d') ↔ ∀ e ∈ es, ∀ offset ∈ e.holds, d.Live offset := by
  induction es generalizing d with
  | nil => exact ⟨fun _ => List.forall_mem_nil _, fun _ => ⟨d, rfl⟩⟩
  | cons e es ih =>
    obtain ⟨he, hplaced⟩ := List.forall_mem_cons.mp hplaced
    obtain ⟨hfirst, hspares⟩ := List.pairwise_cons.mp hspares
    rw [List.forall_mem_cons, ← exists_apply_iff hd he]
    have hrest : ∀ d₁, e.apply d = .ok d₁ →
        ((∃ d', d₁.revise es = .ok d') ↔ ∀ f ∈ es, ∀ offset ∈ f.holds, d.Live offset) := by
      intro d₁ h
      rw [ih (intact_apply hd h) (fun f hf => source_apply hd h ▸ hplaced f hf) hspares]
      refine forall₂_congr fun f hf => forall₂_congr fun offset hoffset => ?_
      exact live_apply_iff hd he h (hfirst f hf offset hoffset)
    constructor
    · rintro ⟨d', h⟩
      rw [revise, List.foldlM_cons] at h
      obtain ⟨d₁, hd₁, h⟩ := bind_eq_ok.mp h
      exact ⟨⟨d₁, hd₁⟩, (hrest d₁ hd₁).mp ⟨d', h⟩⟩
    · rintro ⟨⟨d₁, hd₁⟩, h⟩
      obtain ⟨d', hd'⟩ := (hrest d₁ hd₁).mpr h
      exact ⟨d', bind_eq_ok.mpr ⟨d₁, hd₁, hd'⟩⟩

theorem revise_flatMap {α : Type} (f : α → List Edit) (l : List α) (d : Draft) :
    l.foldlM (fun d a => d.revise (f a)) d = d.revise (l.flatMap f) := by
  induction l generalizing d with
  | nil => rfl
  | cons a l ih =>
    rw [List.foldlM_cons, List.flatMap_cons, revise_append]
    exact congrArg (d.revise (f a) >>= ·) (funext ih)

end Draft

end Treeshake
