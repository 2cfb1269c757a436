import Mathlib
import Treeshake.Proofs.Graph.Order
/-!
Imports in a graph with circles. Main statements: what a module imports and does not come to import it back
stands before it, unless some module on a circle comes to read the importing one and is left by the walk too
early; and then it may stand behind.
-/
set_option autoImplicit false

namespace Treeshake.Graph

open Relation

/-- An import that does not come back, of a module that is ahead of every module on a circle that comes to read
the importing one. -/
structure Undisturbed (g : Graph) (i j : Nat) : Prop where
  imports : g.Depends i j
  oneway : ¬TransGen g.Depends j i
  ahead : ∀ k, TransGen g.Depends k k → TransGen g.Reads k i → g.visitAll.done.idxOf j < g.visitAll.done.idxOf k

section
variable {g : Graph} (hrange : ∀ i j, g.Depends i j → j < g.modules.length)
include hrange

theorem Undisturbed.mem_before {i j k : Nat} (hij : g.Undisturbed i j) (hk : ReflTransGen g.Reads k i)
    {before after : List Nat} (heq : g.visitAll.done = before ++ k :: after) : j ∈ before := by
  have hsane := (whole_visitAll hrange).sane
  have htrails : g.Trails k j → j ∈ before := hsane.trails before k after heq j
  rcases reflTransGen_iff_eq_or_transGen.mp hk with rfl | hk
  · exact htrails (.inl ⟨hij.imports, hij.oneway⟩)
  by_cases hcircle : TransGen g.Depends k k
  · have hlt := hij.ahead k hcircle hk
    rw [heq] at hlt
    by_contra hnot
    have hself : (before ++ k :: after).idxOf k ≤ before.length := by
      by_cases hmem : k ∈ before
      · rw [List.idxOf_append_of_mem hmem]
        exact (List.idxOf_lt_length_of_mem hmem).le
      · rw [List.idxOf_append_of_notMem hmem, List.idxOf_cons_self, Nat.add_zero]
    rw [List.idxOf_append_of_notMem hnot] at hlt
    omega
  · refine htrails (.inr ⟨?_, hcircle⟩)
    exact (TransGen.mono (fun _ _ => .inl) _ _ hk).tail hij.imports

theorem sorted_undisturbed : Sorted g.Undisturbed g.order := by
  have hwhole := whole_visitAll hrange
  rw [order_eq]
  split
  · exact sorted_reorder hwhole.sane.reads fun before k after heq i hi j hij => hij.mem_before hrange hi heq
  · exact fun before i after heq j hij => hij.mem_before hrange .refl heq

theorem idxOf_lt_of_leans {i j : Nat} (h : TransGen g.Leans i j) : g.order.idxOf j < g.order.idxOf i := by
  obtain ⟨hplacing, hmem⟩ := placing_order hrange
  have hstep : ∀ a b, g.Leans a b → g.order.idxOf b < g.order.idxOf a := fun a b hab =>
    hplacing.sorted.idxOf_lt hplacing.nodup (hmem a (depends_from (.inl hab.1))) hab
  induction h with
  | single h => exact hstep _ _ h
  | tail _ h ih => exact (hstep _ _ h).trans ih

end

theorem transGen_depends_iff {g : Graph} (hw : ∀ i j, g.Reads i j → TransGen g.Imports i j) {i j : Nat} :
    TransGen g.Depends i j ↔ TransGen g.Imports i j :=
  ⟨fun h => TransGen.lift' id (fun a b hab => hab.elim (hw a b) .single) _ _ h, TransGen.mono (fun _ _ => .inr) _ _⟩

/-- A module that is imported and does not come to import the importing one back stands before it, also if other
modules import in circles: if the importing module comes to read it, no step of that being mutual, or if the
depth-first walk leaves it before every module on a circle that comes to read the importing one. -/
theorem import_stands_before {g : Graph} (hg : g.Linked) {i j : Nat} (hij : g.Imports i j)
    (hnot : ¬TransGen g.Imports j i)
    (h : TransGen g.Leans i j ∨ ∀ k, TransGen g.Imports k k → TransGen g.Reads k i →
      g.visitAll.done.idxOf j < g.visitAll.done.idxOf k) : g.order.idxOf j < g.order.idxOf i := by
  obtain ⟨R, n, hR, hw⟩ := hg.wired
  have hrange : ∀ i j, g.Depends i j → j < g.modules.length := fun i j => depends_range hR hw
  have hiff : ∀ a b, TransGen g.Depends a b ↔ TransGen g.Imports a b := fun a b =>
    transGen_depends_iff fun _ _ => imports_of_reads hw
  rcases h with h | h
  · exact idxOf_lt_of_leans hrange h
  · obtain ⟨hplacing, hmem⟩ := placing_order hrange
    have hundisturbed : g.Undisturbed i j :=
      ⟨.inr hij, mt (hiff j i).mp hnot, fun k hk => h k ((hiff k k).mp hk)⟩
    exact (sorted_undisturbed hrange).idxOf_lt hplacing.nodup (hmem i (depends_from (.inr hij))) hundisturbed

/-- Two modules that import each other, the second reading the first when it loads. The first imports a third as
well, and that one a fourth. -/
def besides : List (Module × Table Target) :=
  [({ circleModule "main" "a" "./lib" "b" false with sources := ["./lib", "./side"] },
      [("./lib", .inside 1), ("./side", .inside 2)]),
    (circleModule "lib" "b" "./main" "a" true, [("./main", .inside 0)]),
    ({ wholeModule "side" .other [] [] [] [] with sources := ["./leaf"] }, [("./leaf", .inside 3)]),
    (wholeModule "leaf" .other [] [] [] [], [])]

theorem fetched_besides : Fetched besides [] := by
  refine .of_inside (fun e he => ?_) (by decide)
  simp only [besides, List.mem_cons, List.not_mem_nil, or_false] at he
  rcases he with rfl | rfl | rfl | rfl <;> exact ⟨by decide, by decide, by decide⟩

structure Besides (g : Graph) : Prop where
  linked : g.Linked
  length : g.modules.length = 4
  order : g.order = [0, 1, 3, 2]
  main : g.dependencies 0 = ⟨[], [1, 2]⟩
  lib : g.dependencies 1 = ⟨[0], [0]⟩
  side : g.dependencies 2 = ⟨[], [3]⟩
  leaf : g.dependencies 3 = ⟨[], []⟩

theorem exists_besides : ∃ g, Besides g := by
  have hrun : (bind.run (ofModules besides [])).toOption.map (fun p =>
      (p.2.modules.length, p.2.order,
        [p.2.dependencies 0, p.2.dependencies 1, p.2.dependencies 2, p.2.dependencies 3])) =
      some (4, [0, 1, 3, 2], [⟨[], [1, 2]⟩, ⟨[0], [0]⟩, ⟨[], [3]⟩, ⟨[], []⟩]) := by
    cbv
  obtain ⟨⟨stats, g⟩, hbind, hvalue⟩ := Option.map_eq_some_iff.mp hrun
  simp only [Prod.mk.injEq, List.cons.injEq, and_true] at hvalue
  obtain ⟨hlength, horder, hmain, hlib, hside, hleaf⟩ := hvalue
  exact ⟨g, ⟨_, _, stats, fetched_besides, ok_of_toOption hbind⟩, hlength, horder, hmain, hlib, hside, hleaf⟩

namespace Besides
variable {g : Graph} (h : Besides g)
include h

theorem not_leaf {j : Nat} : ¬TransGen g.Imports 3 j := by
  intro hj
  obtain ⟨k, hk, -⟩ := TransGen.head'_iff.mp hj
  rw [Imports, h.leaf] at hk
  cases hk

theorem eq_leaf {j : Nat} (hj : TransGen g.Imports 2 j) : j = 3 := by
  obtain ⟨k, hk, hkj⟩ := TransGen.head'_iff.mp hj
  rw [Imports, h.side] at hk
  obtain rfl := List.mem_singleton.mp hk
  exact (reflTransGen_iff_eq_or_transGen.mp hkj).resolve_right h.not_leaf

theorem not_reads_side {k : Nat} : ¬TransGen g.Reads k 2 := by
  intro hk
  obtain ⟨i, -, hi⟩ := TransGen.tail'_iff.mp hk
  have hlength : i < 4 := h.length ▸ depends_from (.inl hi)
  rw [Reads] at hi
  interval_cases i
  · simp [h.main] at hi
  · simp [h.lib] at hi
  · simp [h.side] at hi
  · simp [h.leaf] at hi

end Besides

theorem import_stands_before_beside_circle : ∃ g, Besides g ∧ g.Imports 0 1 ∧ g.Imports 1 0 ∧
    g.order.idxOf 3 < g.order.idxOf 2 := by
  obtain ⟨g, h⟩ := exists_besides
  have hside : g.Imports 2 3 := by
    rw [Imports, h.side]
    decide
  refine ⟨g, h, ?_, ?_, import_stands_before h.linked hside h.not_leaf (.inr fun k _ hk => ?_)⟩
  · rw [Imports, h.main]
    decide
  · rw [Imports, h.lib]
    decide
  · exact absurd hk h.not_reads_side

/-- A module on a circle may stand before one that it imports and that imports nothing of the circle. -/
theorem import_stands_behind_on_circle : ∃ g : Graph, g.Linked ∧ g.Imports 0 2 ∧ ¬ReflTransGen g.Imports 2 0 ∧
    g.order.idxOf 0 < g.order.idxOf 2 := by
  obtain ⟨g, h⟩ := exists_besides
  refine ⟨g, h.linked, ?_, fun hback => ?_, ?_⟩
  · rw [Imports, h.main]
    decide
  · rcases reflTransGen_iff_eq_or_transGen.mp hback with hback | hback
    · cases hback
    · cases h.eq_leaf hback
  · rw [h.order]
    decide

end Treeshake.Graph
