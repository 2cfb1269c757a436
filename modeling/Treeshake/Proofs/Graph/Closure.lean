import Mathlib
import Treeshake.Proofs.Graph.Order
/-!
What modules are said to come to read. Main statement: for each module this is gathered when the walk leaves it,
from the lists of what modules read as far as they go then, and is all that it comes to read if the modules on its
circles are left by then; on a circle that is left later something may be missing.
-/
set_option autoImplicit false

namespace Treeshake.Graph

open Relation

variable {g : Graph} {i : Nat}

/-- If all that a module comes to read and that leads back to it is left with it, then all that it comes to read is,
and nothing is missing. -/
theorem Gathered.complete {left : List Nat} {leads : Nat → Bool} (h : Gathered g left i leads) (hi : i ∈ left)
    (hback : ∀ a, TransGen g.Reads i a → TransGen g.Depends a i → a ∈ left) {j : Nat} (hj : TransGen g.Reads i j) :
    leads j = true := by
  obtain ⟨read, -, hread, hleads⟩ := h.lists
  rw [hleads]
  have hall : TransGen (fun a b => b ∈ read a) i j ∧ j ∈ left := by
    induction hj with
    | single hb =>
      refine ⟨.single ?_, (h.back i hi _ hb).elim id (hback _ (.single hb))⟩
      rw [hread i hi]
      exact hb
    | tail ha hb ih =>
      refine ⟨ih.1.tail ?_, (h.back _ ih.2 _ hb).elim id (hback _ (ha.tail hb))⟩
      rw [hread _ ih.2]
      exact hb
  exact hall.1

theorem mem_concat_iff_idxOf_le {before after : List Nat} (hi : i ∉ before) {a : Nat} :
    a ∈ before ++ [i] ↔ (before ++ i :: after).idxOf a ≤ (before ++ i :: after).idxOf i := by
  rw [List.idxOf_append_of_notMem hi, List.idxOf_cons_self, List.mem_append, List.mem_singleton, Nat.add_zero]
  by_cases ha : a ∈ before
  · rw [List.idxOf_append_of_mem ha]
    exact ⟨fun _ => (List.idxOf_lt_length_of_mem ha).le, fun _ => .inl ha⟩
  · rw [List.idxOf_append_of_notMem ha]
    by_cases heq : a = i
    · subst heq
      simp
    · rw [List.idxOf_cons_ne _ (Ne.symm heq)]
      simp [ha, heq]

/-- What a module is said to come to read is what follows from the lists of what modules read as they stand when it is
left: these are complete for the modules left by then, and have only begun for others. Nothing is missing if the
modules that it comes to read and that come to depend on it are left by then. -/
theorem leadsTo_as_far_as_read (hg : g.Linked) (hi : i < g.modules.length) :
    (∃ read : Nat → List Nat, (∀ a, read a <+: (g.dependencies a).strong) ∧
      (∀ a, g.visitAll.done.idxOf a ≤ g.visitAll.done.idxOf i → read a = (g.dependencies a).strong) ∧
      ∀ j, g.visitAll.leadsTo i j = true ↔ TransGen (fun a b => b ∈ read a) i j) ∧
    ((∀ a, TransGen g.Reads i a → TransGen g.Depends a i →
        g.visitAll.done.idxOf a ≤ g.visitAll.done.idxOf i) →
      ∀ j, g.visitAll.leadsTo i j = true ↔ TransGen g.Reads i j) := by
  obtain ⟨R, n, hR, hw⟩ := hg.wired
  have hwhole := whole_visitAll fun i j => depends_range hR hw
  obtain ⟨before, after, hdone⟩ := List.append_of_mem ((hwhole.mem i).mpr hi)
  have hnot : i ∉ before := by
    have hnodup : g.visitAll.done.Nodup := nodup_done fun i j => depends_range hR hw
    rw [hdone] at hnodup
    exact fun h => (List.nodup_append.mp hnodup).2.2 i h i List.mem_cons_self rfl
  have hleft : ∀ a, a ∈ before ++ [i] ↔ g.visitAll.done.idxOf a ≤ g.visitAll.done.idxOf i :=
    fun a => hdone ▸ mem_concat_iff_idxOf_le hnot
  have hgathered := hwhole.sane.gathered before i after hdone
  obtain ⟨read, hprefix, hread, hleads⟩ := hgathered.lists
  refine ⟨⟨read, hprefix, fun a ha => hread a ((hleft a).mpr ha), hleads⟩, fun hback j => ?_⟩
  refine ⟨hwhole.sane.leads i j, hgathered.complete ((hleft i).mpr le_rfl) fun a ha hai => ?_⟩
  exact (hleft a).mpr (hback a ha hai)

def readingModule (id own : String) (imports : Table ImportSpecifier) (sources : List String) : Module :=
  { wholeModule id (.exportDeclaration 7 (some 11) (some own))
      (imports.keys.map fun name => { name, start := 0, stop := 0, scope := 0, immediate := true })
      imports [(own, ⟨own, none, 0⟩)] [⟨own, own, some 0⟩] with sources }

/-- Two circles through the first module: it reads the second, which reads it back, and the third, which reads the
second. The second imports the third before the first is read to the end. -/
def knot : List (Module × Table Target) :=
  [(readingModule "main" "a" [("d", ⟨"./d", "d", 0⟩), ("m", ⟨"./m", "m", 0⟩)] ["./d", "./m"],
      [("./d", .inside 1), ("./m", .inside 2)]),
    (readingModule "d" "d" [("a", ⟨"./main", "a", 0⟩)] ["./main", "./m"], [("./main", .inside 0), ("./m", .inside 2)]),
    (readingModule "m" "m" [("d", ⟨"./d", "d", 0⟩)] ["./d"], [("./d", .inside 1)])]

theorem fetched_knot : Fetched knot [] := by
  refine .of_inside (fun e he => ?_) ?_
  · simp only [knot, List.mem_cons, List.not_mem_nil, or_false] at he
    rcases he with rfl | rfl | rfl <;>
      refine ⟨?_, ?_, ?_⟩ <;> simp [readingModule, wholeModule, Table.keys]
  · simp only [knot, readingModule, wholeModule, List.forall_mem_cons, List.not_mem_nil, false_imp_iff, implies_true]
    decide

theorem exists_knotted : ∃ g : Graph, g.Linked ∧ g.modules.length = 3 ∧ g.visitAll.done = [2, 1, 0] ∧
    g.Reads 1 0 ∧ g.Reads 0 2 ∧ g.visitAll.leadsTo 1 2 = false ∧ g.order = [1, 2, 0] := by
  have hrun : (bind.run (ofModules knot [])).toOption.map (fun p =>
      (p.2.modules.length, p.2.visitAll.done, (p.2.dependencies 1).strong, (p.2.dependencies 0).strong,
        p.2.visitAll.leadsTo 1 2, p.2.order)) = some (3, [2, 1, 0], [0], [1, 2], false, [1, 2, 0]) := by
    cbv
  obtain ⟨⟨stats, g⟩, hbind, hvalue⟩ := Option.map_eq_some_iff.mp hrun
  simp only [Prod.mk.injEq] at hvalue
  obtain ⟨hlength, hdone, hd, hmain, hleads, horder⟩ := hvalue
  refine ⟨g, ⟨_, _, stats, fetched_knot, ok_of_toOption hbind⟩, hlength, hdone, ?_, ?_, hleads, horder⟩
  · simp [Reads, hd]
  · simp [Reads, hmain]

theorem leadsTo_as_far_as_read_knotted : ∃ g : Graph, g.Linked ∧ g.visitAll.done = [2, 1, 0] ∧
    (∃ read : Nat → List Nat, (∀ a, read a <+: (g.dependencies a).strong) ∧
      (∀ a, g.visitAll.done.idxOf a ≤ g.visitAll.done.idxOf 1 → read a = (g.dependencies a).strong) ∧
      ∀ j, g.visitAll.leadsTo 1 j = true ↔ TransGen (fun a b => b ∈ read a) 1 j) ∧
    ∀ j, g.visitAll.leadsTo 0 j = true ↔ TransGen g.Reads 0 j := by
  obtain ⟨g, hg, hlength, hdone, -, -, -, -⟩ := exists_knotted
  refine ⟨g, hg, hdone, (leadsTo_as_far_as_read hg (by omega)).1,
    (leadsTo_as_far_as_read hg (by omega)).2 fun a ha _ => ?_⟩
  obtain ⟨R, n, hR, hw⟩ := hg.wired
  have hrange : a < 3 := by
    obtain ⟨b, -, hb⟩ := TransGen.tail'_iff.mp ha
    exact hlength ▸ depends_range hR hw (.inl hb)
  rw [hdone]
  have hall : ∀ a < 3, [2, 1, 0].idxOf a ≤ [2, 1, 0].idxOf 0 := by decide
  exact hall a hrange

/-- The second module comes to read the third through the first. It is left before the first has been read that far,
so it is not said to, and the third, which reads it, does not stay ahead of it. -/
theorem leadsTo_misses_on_circle : ∃ g : Graph, g.Linked ∧ TransGen g.Reads 1 2 ∧ g.visitAll.leadsTo 1 2 = false ∧
    g.visitAll.done = [2, 1, 0] ∧ g.order = [1, 2, 0] := by
  obtain ⟨g, hg, -, hdone, hback, hon, hleads, horder⟩ := exists_knotted
  exact ⟨g, hg, .tail (.single hback) hon, hleads, hdone, horder⟩

end Treeshake.Graph
