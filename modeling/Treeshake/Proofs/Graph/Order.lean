import Mathlib
import Treeshake.Proofs.Graph.Mark
import Treeshake.Proofs.Graph.Reorder
/-!
The order of modules. Main statement: the order of a linked graph has each module once, behind all it
imports if no import closes a circle, and always behind what it reads when it loads, unless that comes to
read it in turn.
-/
set_option autoImplicit false

namespace Treeshake.Graph

open Relation

variable {R : List Routes} {n : Nat} {g h : Graph}

theorem imports_iff {i j : Nat} : g.Imports i j ↔ ∃ m, g.modules[i]? = some m ∧
    ∃ s ∈ m.sources, m.targets.get? s = some (.inside j) := by
  have hmem : ∀ m : LinkedModule, j ∈ imported m ↔ ∃ s ∈ m.sources, m.targets.get? s = some (.inside j) := by
    intro m
    simp only [imported, mem_foldl_addNewIndex, List.not_mem_nil, false_or, List.mem_flatMap,
      List.mem_filterMap]
    constructor
    · rintro ⟨target, ⟨s, hs, ht⟩, hj⟩
      cases target with
      | inside k =>
        obtain rfl := List.mem_singleton.mp hj
        exact ⟨s, hs, ht⟩
      | outside e => cases hj
    · rintro ⟨s, hs, ht⟩
      exact ⟨_, ⟨s, hs, ht⟩, List.mem_singleton_self j⟩
  unfold Imports dependencies
  cases g.modules[i]? <;> simp [hmem]

theorem reads_iff {i j : Nat} : g.Reads i j ↔ j ≠ i ∧ ∃ m, g.modules[i]? = some m ∧
    ∃ s ∈ m.statements, ∃ x ∈ s.references, x.immediate = true ∧
      ∃ id d r, x.declaration? = some id ∧ g.declarations[id]? = some d ∧ d.statement = some r ∧
        r.module = j := by
  have hread : ∀ x : Reference, g.readModule? x = some j ↔ x.immediate = true ∧
      ∃ id d r, x.declaration? = some id ∧ g.declarations[id]? = some d ∧ d.statement = some r ∧
        r.module = j := by
    intro x
    unfold readModule? declaration?
    simp only [Option.bind_eq_bind, Option.bind_eq_some_iff]
    constructor
    · rintro ⟨id, hid, d, hd, r, hr, h⟩
      split at h
      · next hx => exact ⟨hx, id, d, r, hid, hd, hr, Option.some.inj h⟩
      · cases h
    · rintro ⟨hx, id, d, r, hid, hd, hr, rfl⟩
      exact ⟨id, hid, d, hd, r, hr, if_pos hx⟩
  have hmem : ∀ m : LinkedModule, j ∈ g.readModules i m ↔ j ≠ i ∧ ∃ s ∈ m.statements,
      ∃ x ∈ s.references, g.readModule? x = some j := by
    intro m
    simp only [readModules, mem_foldl_addNewIndex, List.not_mem_nil, false_or, List.mem_filter,
      List.mem_filterMap, List.mem_flatMap, bne_iff_ne]
    constructor
    · rintro ⟨⟨x, ⟨s, hs, hx⟩, hj⟩, hne⟩
      exact ⟨hne, s, hs, x, hx, hj⟩
    · rintro ⟨hne, s, hs, x, hx, hj⟩
      exact ⟨⟨x, ⟨s, hs, hx⟩, hj⟩, hne⟩
  unfold Reads dependencies
  cases hm : g.modules[i]? <;> simp [hmem, hread]

theorem depends_from {i j : Nat} (h : g.Depends i j) : i < g.modules.length := by
  have hm : ∃ m, g.modules[i]? = some m := by
    rcases h with h | h
    · obtain ⟨-, m, hm, -⟩ := reads_iff.mp h
      exact ⟨m, hm⟩
    · obtain ⟨m, hm, -⟩ := imports_iff.mp h
      exact ⟨m, hm⟩
  obtain ⟨m, hm⟩ := hm
  exact (List.getElem?_eq_some_iff.mp hm).1

section
variable (hR : Ranged R n) (hw : Wired R n g)
include hw

theorem imports_of_leads {i j : Nat} (h : Leads R i j) : g.Imports i j := by
  obtain ⟨m, s, hm, hs⟩ := h
  rw [← hw.fits.routes, getElem?_routes] at hm
  obtain ⟨m', hm', rfl⟩ := Option.map_eq_some_iff.mp hm
  exact imports_iff.mpr ⟨m', hm', s, hw.sources i m' hm' s _ hs, hs⟩

theorem imports_of_reads {i j : Nat} (h : g.Reads i j) : TransGen g.Imports i j := by
  obtain ⟨hne, m, hm, s, hs, x, hx, -, id, d, r, hid, hd, hr, rfl⟩ := reads_iff.mp h
  obtain ⟨index, hindex⟩ := List.mem_iff_getElem?.mp hs
  have hstatement : g.statement? ⟨i, index⟩ = some s := by
    rw [statement?, hm, Option.bind_some, hindex]
  obtain ⟨e, he, hshows⟩ := hw.bound _ s hstatement x hx id hid
  have hown : e = .own id := by
    rw [entity?, hd, Option.map_some, hw.owned id d r hd hr] at he
    exact (Option.some.inj he).symm
  subst hown
  obtain ⟨k, m', name, hreaches, hm', hdeclared⟩ := hshows
  obtain ⟨d', hd', -, howner⟩ := hw.fits.sound.own k m' name id (hw.fits.routes ▸ hm') hdeclared
  obtain rfl := Option.some.inj (hd.symm.trans hd')
  obtain rfl := howner r hr
  rcases reflTransGen_iff_eq_or_transGen.mp hreaches with heq | hleads
  · exact absurd heq hne
  · exact TransGen.mono (fun _ _ => imports_of_leads hw) _ _ hleads

include hR in
theorem depends_range {i j : Nat} (h : g.Depends i j) : j < g.modules.length := by
  rcases h with h | h
  · obtain ⟨-, m, -, s, -, x, -, -, id, d, r, -, hd, hr, rfl⟩ := reads_iff.mp h
    obtain ⟨s, hs⟩ := hw.placed id d r hd hr
    obtain ⟨m, hm, -⟩ := Option.bind_eq_some_iff.mp hs
    exact (List.getElem?_eq_some_iff.mp hm).1
  · obtain ⟨m, hm, s, -, hs⟩ := imports_iff.mp h
    have hroutes : m.routes ∈ R := by
      rw [← hw.fits.routes]
      exact List.mem_map.mpr ⟨m, List.mem_of_getElem? hm, rfl⟩
    rw [← length_routes, hw.fits.routes]
    exact hR.inside m.routes hroutes s j hs

end

theorem order_eq (g : Graph) : g.order =
    if g.visitAll.cyclic then reorder g.visitAll g.visitAll.done else g.visitAll.done := rfl

section
variable (hrange : ∀ i j, g.Depends i j → j < g.modules.length)
include hrange

theorem nodup_done : g.visitAll.done.Nodup :=
  (List.nodup_append.mp (whole_visitAll hrange).sane.nodup).2.1

theorem length_done : g.visitAll.done.length = g.modules.length := by
  have hperm : g.visitAll.done.Perm (List.range g.modules.length) := by
    refine (List.perm_ext_iff_of_nodup (nodup_done hrange) List.nodup_range).mpr fun i => ?_
    rw [(whole_visitAll hrange).mem, List.mem_range]
  simpa using hperm.length_eq

/-- Both passes give each module once, behind those it leans on. -/
theorem placing_order : Placing g (g.order, []) ∧ ∀ i < g.modules.length, i ∈ g.order := by
  have hwhole := whole_visitAll hrange
  have hbelow : ∀ i ∈ g.visitAll.done, i < g.modules.length := fun i => (hwhole.mem i).mp
  rw [order_eq]
  split
  · obtain ⟨hplacing, hmem⟩ :=
      placing_reorder hrange hwhole g.visitAll.done hbelow (Nat.le_of_eq (length_done hrange).symm)
    exact ⟨hplacing, fun i hi => hmem i ((hwhole.mem i).mpr hi)⟩
  · next hc =>
    have hsorted := hwhole.sane.sorted (Bool.eq_false_iff.mpr hc)
    refine ⟨⟨fun before i after heq j hj => ?_, nodup_done hrange, hbelow, List.nodup_nil, by simp⟩,
      fun i => (hwhole.mem i).mpr⟩
    exact hsorted before i after heq j (.inl hj.1)

theorem sorted_order (hacyclic : ∀ i, ¬TransGen g.Depends i i) : Sorted g.Depends g.order := by
  have hsane := (whole_visitAll hrange).sane
  rw [order_eq]
  split
  · next hc =>
    obtain ⟨i, hi⟩ := hsane.circle hc
    exact absurd hi (hacyclic i)
  · next hc => exact hsane.sorted (Bool.eq_false_iff.mpr hc)

theorem order_perm : g.order.Perm (List.range g.modules.length) := by
  obtain ⟨hplacing, hmem⟩ := placing_order hrange
  refine (List.perm_ext_iff_of_nodup hplacing.nodup List.nodup_range).mpr fun i => ?_
  rw [List.mem_range]
  exact ⟨hplacing.range i, hmem i⟩

end

theorem visit_congr (hd : ∀ i, h.dependencies i = g.dependencies i) (fuel : Nat) :
    h.visit fuel = g.visit fuel := by
  induction fuel with
  | zero => rfl
  | succ fuel ih =>
    funext module w
    rw [visit, visit, ih, hd]

theorem order_congr (hlength : h.modules.length = g.modules.length)
    (hd : ∀ i, h.dependencies i = g.dependencies i) : h.order = g.order := by
  rw [order, order, visitAll, visitAll, hlength, visit_congr hd]

theorem dependencies_grown (hw : Wired R n g) (hG : Grown g h) (i : Nat) :
    h.dependencies i = g.dependencies i := by
  have houtline : h.outline[i]? = g.outline[i]? := by rw [hG.outline]
  rw [outline, outline, List.getElem?_map, List.getElem?_map] at houtline
  unfold dependencies
  cases hm : g.modules[i]? with
  | none =>
    rw [hm] at houtline
    rw [Option.map_eq_none_iff.mp houtline]
  | some m =>
    rw [hm] at houtline
    obtain ⟨m', hm', heq⟩ := Option.map_eq_some_iff.mp houtline
    have hsources : m'.sources = m.sources := congrArg (·.sources) heq
    have htargets : m'.targets = m.targets := congrArg (·.targets) heq
    have hstatements : m'.statements.map (·.unmarked) = m.statements.map (·.unmarked) :=
      congrArg (·.statements) heq
    have hreferences : m'.statements.flatMap (·.references) = m.statements.flatMap (·.references) := by
      have hflat := congrArg (List.flatMap (·.references)) hstatements
      rwa [List.flatMap_map, List.flatMap_map] at hflat
    have hread : ∀ x ∈ m.statements.flatMap (·.references), h.readModule? x = g.readModule? x := by
      intro x hx
      obtain ⟨s, hs, hx⟩ := List.mem_flatMap.mp hx
      obtain ⟨index, hindex⟩ := List.mem_iff_getElem?.mp hs
      have hstatement : g.statement? ⟨i, index⟩ = some s := by
        rw [statement?, hm, Option.bind_some, hindex]
      unfold readModule?
      cases hid : x.declaration? with
      | none => rfl
      | some id =>
        obtain ⟨e, he, -⟩ := hw.bound _ s hstatement x hx id hid
        obtain ⟨d, hd, -⟩ := Option.map_eq_some_iff.mp he
        obtain ⟨d', hd', hkept⟩ := hG.kept id d hd
        simp [declaration?, hd, hd', hkept.statement]
    rw [hm']
    simp only [readModules, imported, hsources, htargets, hreferences,
      List.filterMap_congr hread]

theorem order_mark {passes : Nat} (hg : g.Linked) (hrun : mark.run g = .ok (passes, h)) :
    h.order.Perm (List.range h.modules.length) := by
  obtain ⟨R, n, hR, hw⟩ := hg.wired
  have hG : Grown g h := Scans.grown hR hw (.refl g) (mark_settles hR hw hrun).1
  have hlength : h.modules.length = g.modules.length := by
    simpa [outline] using congrArg List.length hG.outline
  rw [order_congr hlength (dependencies_grown hw hG), hlength]
  exact order_perm fun i j => depends_range hR hw

/-- The order has each module once: behind all that it imports, if no import closes a circle, and always
behind what it reads when it loads, unless that comes to read it in turn. Marking does not change it. -/
theorem order_places_dependencies {g : Graph} (hg : g.Linked) :
    g.order.Perm (List.range g.modules.length) ∧
      ((∀ i, ¬TransGen g.Imports i i) →
        ∀ i j, g.Imports i j → g.order.idxOf j < g.order.idxOf i) ∧
      (∀ i j, g.Reads i j → ¬TransGen g.Reads j i → g.order.idxOf j < g.order.idxOf i) ∧
      ∀ passes h, mark.run g = .ok (passes, h) → h.order = g.order := by
  obtain ⟨R, n, hR, hw⟩ := hg.wired
  have hrange : ∀ i j, g.Depends i j → j < g.modules.length := fun i j => depends_range hR hw
  obtain ⟨hplacing, hmem⟩ := placing_order hrange
  have hfrom : ∀ i j, g.Depends i j → i ∈ g.order := fun i j h => hmem i (depends_from h)
  refine ⟨order_perm hrange, fun hacyclic i j hj => ?_, fun i j hj hnot => ?_, fun passes h hrun => ?_⟩
  · have hcircle : ∀ k, ¬TransGen g.Depends k k := by
      intro k hk
      refine hacyclic k (TransGen.lift' id (fun a b hab => ?_) _ _ hk)
      exact hab.elim (imports_of_reads hw) .single
    exact (sorted_order hrange hcircle).idxOf_lt hplacing.nodup (hfrom i j (.inr hj)) (.inr hj)
  · exact hplacing.sorted.idxOf_lt hplacing.nodup (hfrom i j (.inl hj)) ⟨hj, hnot⟩
  · have hG : Grown g h := Scans.grown hR hw (.refl g) (mark_settles hR hw hrun).1
    refine order_congr ?_ (dependencies_grown hw hG)
    simpa [outline] using congrArg List.length hG.outline

def circleModule (id own source other : String) (immediate : Bool) : Module where
  id
  code := []
  firstCode := ""
  maps := []
  draft := Draft.ofText ""
  statements := [
    { kind := .other, start := 0, stop := 0, next := 0, nodeStart := 0,
      references := [{ name := other, start := 0, stop := 0, scope := 0, immediate := immediate }] }]
  scopes := {}
  imports := [(other, ⟨source, other, 0⟩)]
  exports := [(own, ⟨own, none, 0⟩)]
  reexports := []
  starSources := []
  sources := [source]
  bindings := [⟨own, own, some 0⟩]

/-- Two modules that import each other; only the second reads the other when it loads. -/
def circle : List (Module × Table Target) :=
  [(circleModule "main" "a" "./lib" "b" false, [("./lib", .inside 1)]),
    (circleModule "lib" "b" "./main" "a" true, [("./main", .inside 0)])]

theorem fetched_circle : Fetched circle [] := by
  have htarget : ∀ e ∈ circle, ∀ s t, e.2.get? s = some t →
      s ∈ e.1.sources ∧ (t = .inside 0 ∨ t = .inside 1) := by
    intro e he s t h
    have hmem := lookup_mem h
    rcases List.mem_cons.mp he with rfl | he
    · obtain ⟨rfl, rfl⟩ := Prod.mk.inj (List.mem_singleton.mp hmem)
      exact ⟨by simp [circleModule], .inr rfl⟩
    · obtain rfl := List.mem_singleton.mp he
      obtain ⟨rfl, rfl⟩ := Prod.mk.inj (List.mem_singleton.mp hmem)
      exact ⟨by simp [circleModule], .inl rfl⟩
  refine ⟨fun e he => ?_, fun e he s t h => (htarget e he s t h).1, fun e he s i h => ?_,
    fun e he s i h => ?_, fun e he => by cases he⟩
  · have hfresh : ∀ id own source other immediate,
        (circleModule id own source other immediate).Fresh := fun _ _ _ _ _ =>
      ⟨by simp [circleModule], by simp [circleModule], by simp [circleModule]⟩
    rcases List.mem_cons.mp he with rfl | he
    · exact hfresh _ _ _ _ _
    · obtain rfl := List.mem_singleton.mp he
      exact hfresh _ _ _ _ _
  · rcases (htarget e he s _ h).2 with h | h <;> cases h <;> decide
  · rcases (htarget e he s _ h).2 with h | h <;> cases h

theorem order_places_dependencies_circle : ∃ g : Graph, g.Linked ∧ g.visitAll.done = [1, 0] ∧
    g.Reads 1 0 ∧ ¬TransGen g.Reads 0 1 ∧ g.order.idxOf 0 < g.order.idxOf 1 := by
  have hrun : (bind.run (ofModules circle [])).toOption.map (fun p =>
      (p.2.visitAll.done, p.2.dependencies 0, p.2.dependencies 1)) =
      some ([1, 0], ⟨[], [1]⟩, ⟨[0], [0]⟩) := by
    cbv
  obtain ⟨⟨stats, g⟩, hbind, hvalue⟩ := Option.map_eq_some_iff.mp hrun
  obtain ⟨hdone, hd⟩ := Prod.mk.inj hvalue
  obtain ⟨hmain, hlib⟩ := Prod.mk.inj hd
  have hg : g.Linked := ⟨_, _, stats, fetched_circle, ok_of_toOption hbind⟩
  have hreads : g.Reads 1 0 := by
    rw [Reads, hlib]
    decide
  have hnot : ¬TransGen g.Reads 0 1 := by
    intro h
    obtain ⟨k, hk, -⟩ := TransGen.head'_iff.mp h
    rw [Reads, hmain] at hk
    cases hk
  exact ⟨g, hg, hdone, hreads, hnot, (order_places_dependencies hg).2.2.1 1 0 hreads hnot⟩

end Treeshake.Graph
