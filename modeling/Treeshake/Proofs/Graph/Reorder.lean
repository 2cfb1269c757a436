import Treeshake.Proofs.Graph.Walk
/-!
The second pass over the modules of a graph with circles. Main statements: whatever order it is given, each
module comes to stand behind all that it reads and that does not come to read it in turn; and what stands ahead
of all the modules that come to read a module stays ahead of that module.
-/
set_option autoImplicit false

namespace Treeshake.Graph

open Relation

/-- A module reads another one that does not come to read it in turn. -/
def Leans (g : Graph) (i j : Nat) : Prop := g.Reads i j ∧ ¬TransGen g.Reads j i

theorem Sorted.addNewIndex {r : Nat → Nat → Prop} {l : List Nat} {i : Nat} (hl : Sorted r l)
    (hi : ∀ j, r i j → j ∈ l) : Sorted r (addNewIndex i l) := by
  unfold Treeshake.addNewIndex
  split
  · exact hl
  · exact hl.concat hi

theorem Sorted.append {r : Nat → Nat → Prop} {l added : List Nat} (hl : Sorted r l)
    (hadded : ∀ i ∈ added, ∀ j, r i j → j ∈ l) : Sorted r (l ++ added) := by
  induction added generalizing l with
  | nil => rwa [List.append_nil]
  | cons i added ih =>
    rw [← List.singleton_append, ← List.append_assoc]
    refine ih (hl.concat (hadded i List.mem_cons_self)) fun k hk j hj => ?_
    exact List.mem_append_left _ (hadded k (List.mem_cons_of_mem _ hk) j hj)

variable {g : Graph} {w : Walk} {ordered placing : List Nat} {s s' s'' : List Nat × List Nat}

/-- The modules placed so far, each behind those it leans on, and those being placed. -/
structure Placing (g : Graph) (s : List Nat × List Nat) : Prop where
  sorted : Sorted g.Leans s.1
  nodup : s.1.Nodup
  range : ∀ i ∈ s.1, i < g.modules.length
  nodup_placing : s.2.Nodup
  range_placing : ∀ i ∈ s.2, i < g.modules.length

structure Places (g : Graph) (s s' : List Nat × List Nat) : Prop where
  placing : Placing g s'
  kept : ∀ i ∈ s.1, i ∈ s'.1
  begun : ∀ i ∈ s.2, i ∈ s'.2
  placed : ∀ i ∈ s'.2, i ∈ s.2 ∨ i ∈ s'.1

theorem Placing.length (hs : Placing g s) : s.2.length ≤ g.modules.length :=
  length_le_of_forall_lt hs.nodup_placing hs.range_placing

theorem Placing.begin {i : Nat} (hs : Placing g s) (hi : i ∉ s.2) (hrange : i < g.modules.length) :
    Placing g (s.1, i :: s.2) :=
  ⟨hs.sorted, hs.nodup, hs.range, List.nodup_cons.mpr ⟨hi, hs.nodup_placing⟩,
    List.forall_mem_cons.mpr ⟨hrange, hs.range_placing⟩⟩

theorem Placing.add {i : Nat} (hs : Placing g s) (hrange : i < g.modules.length)
    (hi : ∀ j, g.Leans i j → j ∈ s.1) : Placing g (addNewIndex i s.1, s.2) where
  sorted := hs.sorted.addNewIndex hi
  nodup := nodup_addNewIndex hs.nodup
  range j hj := (mem_addNewIndex.mp hj).elim (fun h => h ▸ hrange) (hs.range j)
  nodup_placing := hs.nodup_placing
  range_placing := hs.range_placing

theorem Places.refl (hs : Placing g s) : Places g s s :=
  ⟨hs, fun _ h => h, fun _ h => h, fun _ => .inl⟩

theorem Places.trans (h₁ : Places g s s') (h₂ : Places g s' s'') : Places g s s'' where
  placing := h₂.placing
  kept i hi := h₂.kept i (h₁.kept i hi)
  begun i hi := h₂.begun i (h₁.begun i hi)
  placed i hi := (h₂.placed i hi).elim (fun h => (h₁.placed i h).imp_right (h₂.kept i)) .inr

/-- What placing has to do with any number of steps left: a module that is not placed then leads back to
the one it was to stand ahead of, or was being placed already. -/
def PlacesWell (g : Graph) (w : Walk) (module fuel : Nat) : Prop :=
  ∀ (i : Nat) (s : List Nat × List Nat), Placing g s → i < g.modules.length →
    TransGen g.Reads module i → g.modules.length < fuel + s.2.length →
    (∀ k ∈ s.2, k ∈ s.1 ∨ TransGen g.Reads k i) →
    Places g s (place w module fuel i s) ∧
      (i ∈ (place w module fuel i s).1 ∨ TransGen g.Reads i module ∨ i ∈ s.2)

theorem places_all {module fuel : Nat} (hp : PlacesWell g w module fuel) (l : List Nat)
    (hrange : ∀ i ∈ l, i < g.modules.length) (hl : ∀ i ∈ l, TransGen g.Reads module i)
    (hs : Placing g s) (hfuel : g.modules.length < fuel + s.2.length)
    (htoward : ∀ k ∈ s.2, k ∈ s.1 ∨ ∀ i ∈ l, TransGen g.Reads k i)
    (heq : s' = l.foldl (fun s i => place w module fuel i s) s) :
    Places g s s' ∧ ∀ i ∈ l, i ∈ s'.1 ∨ TransGen g.Reads i module ∨ i ∈ s.2 := by
  induction l generalizing s with
  | nil =>
    subst heq
    exact ⟨.refl hs, fun i hi => by cases hi⟩
  | cons i l ih =>
    obtain ⟨hplaces, hi⟩ := hp i s hs (hrange i List.mem_cons_self) (hl i List.mem_cons_self) hfuel
      fun k hk => (htoward k hk).imp_right fun h => h i List.mem_cons_self
    have hlength : s.2.length ≤ (place w module fuel i s).2.length :=
      hs.nodup_placing.length_le_of_subset hplaces.begun
    have htoward' : ∀ k ∈ (place w module fuel i s).2, k ∈ (place w module fuel i s).1 ∨
        ∀ j ∈ l, TransGen g.Reads k j := by
      intro k hk
      rcases hplaces.placed k hk with h | h
      · exact (htoward k h).imp (hplaces.kept k) fun hall j hj => hall j (List.mem_cons_of_mem _ hj)
      · exact .inl h
    obtain ⟨hrest, hall⟩ := ih (fun j hj => hrange j (List.mem_cons_of_mem _ hj))
      (fun j hj => hl j (List.mem_cons_of_mem _ hj)) hplaces.placing (by omega) htoward' heq
    refine ⟨hplaces.trans hrest, fun j hj => ?_⟩
    rcases List.mem_cons.mp hj with rfl | hj
    · exact hi.imp_left (hrest.kept j)
    · rcases hall j hj with h | h | h
      · exact .inl h
      · exact .inr (.inl h)
      · exact (hplaces.placed j h).elim (fun h => .inr (.inr h)) fun h => .inl (hrest.kept j h)

theorem mem_strongOf (hw : w.Whole g) {i j : Nat} (hi : i < g.modules.length) :
    j ∈ w.strongOf i ↔ g.Reads i j := by
  rw [hw.sane.read i ((hw.mem i).mpr hi)]
  rfl

section
variable (hrange : ∀ i j, g.Depends i j → j < g.modules.length) (hw : w.Whole g)
include hrange hw

theorem placesWell (module fuel : Nat) : PlacesWell g w module fuel := by
  induction fuel with
  | zero =>
    intro i s hs _ _ hfuel
    have := hs.length
    omega
  | succ fuel ih =>
    rintro i ⟨ordered, placing⟩ hs hi hmodule hfuel htoward
    rw [place]
    split
    · next h =>
      simp only [Bool.or_eq_true, List.contains_iff_mem] at h
      refine ⟨.refl hs, ?_⟩
      rcases h with (h | h) | h
      · exact .inr (.inl (hw.sane.leads i module h))
      · exact .inl h
      · exact .inr (.inr h)
    · next h =>
      simp only [Bool.or_eq_true, List.contains_iff_mem, not_or] at h
      have hreads : ∀ j ∈ w.strongOf i, g.Reads i j := fun j hj => (mem_strongOf hw hi).mp hj
      have hbegun := hs.begin h.2 hi
      have htoward' : ∀ k ∈ i :: placing, k ∈ ordered ∨ ∀ j ∈ w.strongOf i, TransGen g.Reads k j := by
        intro k hk
        rcases List.mem_cons.mp hk with rfl | hk
        · exact .inr fun j hj => .single (hreads j hj)
        · exact (htoward k hk).imp_right fun h j hj => h.tail (hreads j hj)
      have hfuel' : g.modules.length < fuel + (i :: placing).length := by
        have : g.modules.length < fuel + 1 + placing.length := hfuel
        simp only [List.length_cons]
        omega
      generalize hs' : (w.strongOf i).foldl _ (ordered, i :: placing) = s'
      obtain ⟨hplaces, hall⟩ := places_all ih (w.strongOf i)
        (fun j hj => hrange i j (.inl (hreads j hj))) (fun j hj => hmodule.tail (hreads j hj)) hbegun
        hfuel' htoward' hs'.symm
      have hleans : ∀ j, g.Leans i j → j ∈ s'.1 := by
        rintro j ⟨hj, hnot⟩
        rcases hall j ((mem_strongOf hw hi).mpr hj) with h | h | h
        · exact h
        · exact absurd (h.trans hmodule) hnot
        · -- what is being placed leads to the module, so the module does not lean on it
          rcases List.mem_cons.mp h with rfl | h
          · exact absurd (.single hj) hnot
          · exact (htoward j h).elim (hplaces.kept j) fun h => absurd h hnot
      refine ⟨⟨hplaces.placing.add hi hleans, fun k hk => ?_, fun k hk => ?_, fun k hk => ?_⟩, .inl ?_⟩
      · exact mem_addNewIndex.mpr (.inr (hplaces.kept k hk))
      · exact hplaces.begun k (List.mem_cons_of_mem _ hk)
      · rcases hplaces.placed k hk with h | h
        · exact (List.mem_cons.mp h).symm.imp_right fun h => mem_addNewIndex.mpr (.inl h)
        · exact .inr (mem_addNewIndex.mpr (.inr h))
      · exact mem_addNewIndex.mpr (.inl rfl)

theorem placing_reorder (modules : List Nat) (hmodules : ∀ i ∈ modules, i < g.modules.length)
    (hlength : g.modules.length ≤ modules.length) :
    Placing g (reorder w modules, []) ∧ ∀ i ∈ modules, i ∈ reorder w modules := by
  have hall : ∀ (l ordered ordered' : List Nat), (∀ i ∈ l, i < g.modules.length) →
      Placing g (ordered, []) →
      ordered' = l.foldl (fun ordered module =>
        addNewIndex module ((w.strongOf module).foldl
          (fun s i => place w module (modules.length + 1) i s) (ordered, [])).1) ordered →
      Placing g (ordered', []) ∧ (∀ i ∈ ordered, i ∈ ordered') ∧ ∀ i ∈ l, i ∈ ordered' := by
    intro l
    induction l with
    | nil =>
      rintro ordered ordered' - hs rfl
      exact ⟨hs, fun _ h => h, fun i hi => by cases hi⟩
    | cons module l ih =>
      intro ordered ordered' hl hs heq
      have hmodule := hl module List.mem_cons_self
      have hreads : ∀ j ∈ w.strongOf module, g.Reads module j :=
        fun j hj => (mem_strongOf hw hmodule).mp hj
      rw [List.foldl_cons] at heq
      generalize hs' : (w.strongOf module).foldl _ (ordered, []) = s' at heq
      obtain ⟨hplaces, hplaced⟩ := places_all (placesWell hrange hw module (modules.length + 1))
        (w.strongOf module) (fun j hj => hrange module j (.inl (hreads j hj)))
        (fun j hj => .single (hreads j hj)) hs (by simp only [List.length_nil]; omega)
        (fun k hk => by cases hk) hs'.symm
      have hleans : ∀ j, g.Leans module j → j ∈ s'.1 := by
        rintro j ⟨hj, hnot⟩
        rcases hplaced j ((mem_strongOf hw hmodule).mpr hj) with h | h | h
        · exact h
        · exact absurd h hnot
        · cases h
      have hadded := hplaces.placing.add hmodule hleans
      obtain ⟨hplacing, hkept, hmem⟩ := ih _ ordered' (fun i hi => hl i (List.mem_cons_of_mem _ hi))
        ⟨hadded.sorted, hadded.nodup, hadded.range, List.nodup_nil, by simp⟩ heq
      refine ⟨hplacing, fun i hi => ?_, fun i hi => ?_⟩
      · exact hkept i (mem_addNewIndex.mpr (.inr (hplaces.kept i hi)))
      · rcases List.mem_cons.mp hi with rfl | hi
        · exact hkept i (mem_addNewIndex.mpr (.inl rfl))
        · exact hmem i hi
  have hnone : Placing g ([], []) :=
    ⟨fun before i after h => by simp at h, List.nodup_nil, by simp, List.nodup_nil, by simp⟩
  obtain ⟨hplacing, -, hmem⟩ := hall modules [] (reorder w modules) hmodules hnone rfl
  exact ⟨hplacing, hmem⟩

end

theorem places_add {module fuel : Nat} (hplace : ∀ (i : Nat) (s : List Nat × List Nat), ∃ added,
      (place w module fuel i s).1 = s.1 ++ added ∧ ∀ k ∈ added, ReflTransGen g.Reads i k)
    {i : Nat} (l : List Nat) (hl : ∀ j ∈ l, g.Reads i j) (s : List Nat × List Nat) : ∃ added,
      (l.foldl (fun s j => place w module fuel j s) s).1 = s.1 ++ added ∧
        ∀ k ∈ added, ReflTransGen g.Reads i k := by
  induction l generalizing s with
  | nil => exact ⟨[], (List.append_nil _).symm, nofun⟩
  | cons j l ih =>
    obtain ⟨first, hfirst, hfrom⟩ := hplace j s
    obtain ⟨rest, hrest, hfrom'⟩ := ih (fun k hk => hl k (List.mem_cons_of_mem _ hk)) (place w module fuel j s)
    refine ⟨first ++ rest, by rw [List.foldl_cons, hrest, hfirst, List.append_assoc], fun k hk => ?_⟩
    exact (List.mem_append.mp hk).elim (fun hk => .head (hl j List.mem_cons_self) (hfrom k hk)) (hfrom' k)

section
variable (hreads : ∀ i j, j ∈ w.strongOf i → g.Reads i j)
include hreads

theorem place_adds (module fuel i : Nat) (s : List Nat × List Nat) : ∃ added,
    (place w module fuel i s).1 = s.1 ++ added ∧ ∀ k ∈ added, ReflTransGen g.Reads i k := by
  induction fuel generalizing i s with
  | zero => exact ⟨[], (List.append_nil _).symm, nofun⟩
  | succ fuel ih =>
    obtain ⟨ordered, placing⟩ := s
    rw [place]
    split
    · exact ⟨[], (List.append_nil _).symm, nofun⟩
    · obtain ⟨added, hadded, hfrom⟩ := places_add ih (w.strongOf i) (hreads i) (ordered, i :: placing)
      dsimp only
      rw [hadded, addNewIndex]
      split
      · exact ⟨added, rfl, hfrom⟩
      · refine ⟨added ++ [i], List.append_assoc _ _ _, fun k hk => ?_⟩
        rcases List.mem_append.mp hk with hk | hk
        · exact hfrom k hk
        · rw [List.mem_singleton.mp hk]

theorem sorted_reorder {r : Nat → Nat → Prop} {modules : List Nat}
    (hr : ∀ before k after, modules = before ++ k :: after → ∀ i, ReflTransGen g.Reads k i →
      ∀ j, r i j → j ∈ before) : Sorted r (reorder w modules) := by
  have hall : ∀ (l before ordered ordered' : List Nat), modules = before ++ l → (∀ i ∈ before, i ∈ ordered) →
      Sorted r ordered →
      ordered' = l.foldl (fun ordered module =>
        addNewIndex module ((w.strongOf module).foldl
          (fun s i => place w module (modules.length + 1) i s) (ordered, [])).1) ordered →
      Sorted r ordered' := by
    intro l
    induction l with
    | nil =>
      rintro before ordered ordered' - - hs rfl
      exact hs
    | cons module l ih =>
      intro before ordered ordered' hmodules hbefore hs heq
      have hahead : ∀ i, ReflTransGen g.Reads module i → ∀ j, r i j → j ∈ ordered := fun i hi j hj =>
        hbefore j (hr before module l hmodules i hi j hj)
      obtain ⟨added, hadded, hfrom⟩ := places_add (place_adds hreads module (modules.length + 1))
        (w.strongOf module) (hreads module) (ordered, [])
      rw [List.foldl_cons, hadded] at heq
      have hplaced : Sorted r (ordered ++ added) := hs.append fun i hi => hahead i (hfrom i hi)
      refine ih (before ++ [module]) _ ordered' ?_ (fun i hi => ?_) (hplaced.addNewIndex fun j hj => ?_) heq
      · rw [hmodules, List.append_assoc, List.singleton_append]
      · rw [mem_addNewIndex, List.mem_append]
        rcases List.mem_append.mp hi with hi | hi
        · exact .inr (.inl (hbefore i hi))
        · exact .inl (List.mem_singleton.mp hi)
      · exact List.mem_append_left _ (hahead module .refl j hj)
  exact hall modules [] [] (reorder w modules) rfl nofun (fun before i after heq => by simp at heq) rfl

end

end Treeshake.Graph
