import Mathlib.Data.List.Basic
import Mathlib.Logic.Relation
import Treeshake.Graph.Order
import Treeshake.Proofs.Table
/-!
What follows from lists of numbers. Main statement: with as many rounds as there are numbers, all that follows from
a list is reached, and nothing else.
-/
set_option autoImplicit false

namespace Treeshake.Graph

open Relation

theorem mem_addNewIndex {i j : Nat} {is : List Nat} : j ∈ addNewIndex i is ↔ j = i ∨ j ∈ is := by
  unfold addNewIndex
  split
  · next h =>
    have hi : i ∈ is := by simpa using h
    exact ⟨.inr, fun h => h.elim (fun h => h ▸ hi) fun h => h⟩
  · simp [or_comm]

theorem mem_foldl_addNewIndex {j : Nat} {l is : List Nat} :
    j ∈ l.foldl (fun is i => addNewIndex i is) is ↔ j ∈ is ∨ j ∈ l := by
  induction l generalizing is with
  | nil => simp
  | cons i l ih =>
    rw [List.foldl_cons, ih, mem_addNewIndex, List.mem_cons, or_assoc, or_left_comm]

theorem nodup_addNewIndex {i : Nat} {is : List Nat} (h : is.Nodup) : (addNewIndex i is).Nodup := by
  unfold addNewIndex
  split
  · exact h
  · next hi =>
    have hi' : i ∉ is := by simpa using hi
    exact List.nodup_append.mpr ⟨h, by simp, fun a ha b hb heq => by simp_all⟩

theorem length_le_of_forall_lt {l : List Nat} {n : Nat} (hn : l.Nodup) (hl : ∀ i ∈ l, i < n) : l.length ≤ n := by
  have hsub : l ⊆ List.range n := fun i hi => List.mem_range.mpr (hl i hi)
  simpa using hn.length_le_of_subset hsub

theorem prefix_foldl_addNewIndex (l is : List Nat) : is <+: l.foldl (fun is i => addNewIndex i is) is := by
  induction l generalizing is with
  | nil => exact List.prefix_refl is
  | cons i l ih =>
    refine List.IsPrefix.trans ?_ (ih (addNewIndex i is))
    unfold addNewIndex
    split
    · exact List.prefix_refl is
    · exact List.prefix_append is [i]

theorem nodup_foldl_addNewIndex {l is : List Nat} (h : is.Nodup) :
    (l.foldl (fun is i => addNewIndex i is) is).Nodup := by
  induction l generalizing is with
  | nil => exact h
  | cons i l ih => exact ih (nodup_addNewIndex h)

def reachRound (next : Nat → List Nat) (found : List Nat) : List Nat :=
  found.foldl (fun acc i => (next i).foldl (fun acc j => addNewIndex j acc) acc) found

theorem reachRound_eq (next : Nat → List Nat) (found : List Nat) :
    reachRound next found = (found.flatMap next).foldl (fun acc j => addNewIndex j acc) found :=
  (List.foldl_flatMap ..).symm

theorem reach_succ (next : Nat → List Nat) (rounds : Nat) (found : List Nat) :
    reach next (rounds + 1) found = reach next rounds (reachRound next found) := rfl

variable {next : Nat → List Nat} {found : List Nat} {n : Nat}

theorem mem_reachRound {j : Nat} : j ∈ reachRound next found ↔ j ∈ found ∨ ∃ i ∈ found, j ∈ next i := by
  rw [reachRound_eq, mem_foldl_addNewIndex, List.mem_flatMap]

theorem reach_sound {P : Nat → Prop} (hnext : ∀ i j, P i → j ∈ next i → P j) (rounds : Nat)
    (hf : ∀ i ∈ found, P i) : ∀ i ∈ reach next rounds found, P i := by
  induction rounds generalizing found with
  | zero => exact hf
  | succ rounds ih =>
    refine ih fun j hj => ?_
    rcases mem_reachRound.mp hj with hj | ⟨i, hi, hj⟩
    · exact hf j hj
    · exact hnext i j (hf i hi) hj

theorem mem_reach_of_mem (rounds : Nat) {i : Nat} (hi : i ∈ found) : i ∈ reach next rounds found := by
  induction rounds generalizing found with
  | zero => exact hi
  | succ rounds ih => exact ih (mem_reachRound.mpr (.inl hi))

theorem reach_of_closed (hround : reachRound next found = found) (rounds : Nat) : reach next rounds found = found := by
  induction rounds with
  | zero => rfl
  | succ rounds ih => rw [reach_succ, hround, ih]

/-- Enough rounds leave nothing to add: a round that adds nothing is the last to, and every other round finds a
further number. -/
theorem reach_closed (hnext : ∀ i, ∀ j ∈ next i, j < n) (rounds : Nat) (hn : found.Nodup) (hf : ∀ i ∈ found, i < n)
    (hrounds : n ≤ found.length + rounds) {i j : Nat} (hi : i ∈ reach next rounds found) (hj : j ∈ next i) :
    j ∈ reach next rounds found := by
  induction rounds generalizing found with
  | zero =>
    by_contra hmissing
    have hmore : (j :: found).length ≤ n := length_le_of_forall_lt (List.nodup_cons.mpr ⟨hmissing, hn⟩)
      (List.forall_mem_cons.mpr ⟨hnext i j hj, hf⟩)
    rw [List.length_cons] at hmore
    omega
  | succ rounds ih =>
    by_cases hround : reachRound next found = found
    · rw [reach_of_closed hround] at hi ⊢
      exact hround ▸ mem_reachRound.mpr (.inr ⟨i, hi, hj⟩)
    · have hkept : found <+: reachRound next found := reachRound_eq next found ▸ prefix_foldl_addNewIndex _ _
      have hgrown : found.length < (reachRound next found).length :=
        Nat.lt_of_le_of_ne hkept.length_le fun h => hround (hkept.eq_of_length h).symm
      have hn' : (reachRound next found).Nodup := reachRound_eq next found ▸ nodup_foldl_addNewIndex hn
      have hf' : ∀ k ∈ reachRound next found, k < n := fun k hk => by
        rcases mem_reachRound.mp hk with hk | ⟨l, -, hk⟩
        · exact hf k hk
        · exact hnext l k hk
      rw [reach_succ] at hi ⊢
      exact ih hn' hf' (by omega) hi

theorem mem_reach_iff (hnext : ∀ i, ∀ j ∈ next i, j < n) {i j : Nat} :
    j ∈ reach next n ((next i).foldl (fun is i => addNewIndex i is) []) ↔ TransGen (fun a b => b ∈ next a) i j := by
  have hstart : ∀ k, k ∈ (next i).foldl (fun is i => addNewIndex i is) [] ↔ k ∈ next i := by
    simp [mem_foldl_addNewIndex]
  constructor
  · intro hj
    exact reach_sound (fun a b ha hb => ha.tail hb) n (fun k hk => .single ((hstart k).mp hk)) j hj
  · intro hj
    induction hj with
    | single hk => exact mem_reach_of_mem n ((hstart _).mpr hk)
    | tail _ hk ih =>
      exact reach_closed hnext n (nodup_foldl_addNewIndex List.nodup_nil) (fun k hk => hnext i k ((hstart k).mp hk))
        (Nat.le_add_left n _) ih hk

end Treeshake.Graph
