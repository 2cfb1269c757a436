import Mathlib.Algebra.Order.BigOperators.Group.List
import Mathlib.Tactic.GCongr
import Mathlib.Tactic.Ring
import Treeshake.Proofs.Graph.Fuel
import Treeshake.Proofs.Graph.Linked
/-!
Circles of exports. An export that a module only passes on, by name or by importing it first, is asked of another
module, and so on. Main statement: a trace ends with a declaration, with none, or at an export that is missing,
unless it comes to an export that is asked of itself again, and then it does not end with any fuel.
-/
set_option autoImplicit false

namespace Treeshake

def Routes.export? (m : Routes) (source name : String) : Option (Nat × String) :=
  match m.targets.get? source with
  | some (.inside i) => some (i, name)
  | _ => none

namespace Graph

open Relation (ReflTransGen TransGen)

/-- What a name that a module imports stands for: an export of another module, or with a star that module as
a whole. -/
def Borrows (R : List Routes) (i : Nat) (name : String) (q : Nat × String) : Prop :=
  ∃ m s, R[i]? = some m ∧ m.declarations.get? name = none ∧ m.imports.get? name = some s ∧
    m.targets.get? s.source = some (.inside q.1) ∧ s.name = q.2

/-- An export that a module passes on by name, from another module at once or through an import. -/
def Forwards (R : List Routes) (p q : Nat × String) : Prop :=
  ∃ m, R[p.1]? = some m ∧
    ((∃ r, m.reexports.get? p.2 = some r ∧ m.targets.get? r.source = some (.inside q.1) ∧ r.localName = q.2) ∨
      m.reexports.get? p.2 = none ∧ ∃ e, m.exports.get? p.2 = some e ∧ Borrows R p.1 e.localName q)

/-- A module whose star exports may have a name that it does not export itself. -/
def Delegates (R : List Routes) (name : String) (i k : Nat) : Prop :=
  ∃ m, R[i]? = some m ∧ m.reexports.get? name = none ∧ m.exports.get? name = none ∧ name ≠ "default" ∧
    .inside k ∈ m.stars

def Wants (R : List Routes) (p q : Nat × String) : Prop :=
  ∃ k, ReflTransGen (Delegates R p.2) p.1 k ∧ Forwards R (k, p.2) q

/-- An export is asked of another module, and not that module as a whole. -/
def Asks (R : List Routes) (p q : Nat × String) : Prop := Wants R p q ∧ q.2 ≠ "*"

/-- The exports that a trace can come to, from the first ones on. -/
inductive Meets (g : Graph) (first : Nat × String → Prop) : Nat × String → Prop
  | first {q : Nat × String} (h : first q) : Meets g first q
  | wants {p q : Nat × String} (hp : Meets g first p) (h : Wants g.routes p q) : Meets g first q
  | member {i : Nat} {name : String} (hi : Meets g first (i, "*")) (h : name ∈ g.exportNames i) :
      Meets g first (i, name)

variable {α β : Type} {g h : Graph} {R : List Routes} {B : Nat × String → Prop}

/-- A step that does not end with any fuel, and an export among some that is asked of itself again. -/
def Stuck (R : List Routes) (B : Nat × String → Prop) (x : Nat → Build α) (g : Graph) : Prop :=
  (∀ fuel, Endless (x fuel) g) ∧ ∃ q, B q ∧ TransGen (Asks R) q q

/-- The first step runs out of fuel when the second does with all that the first has left for it. -/
def Calls (g : Graph) (x : Nat → Build α) (y : Nat → Build β) : Prop :=
  ∀ fuel, Endless (y fuel) g → Endless (x (fuel + 1)) g

theorem Stuck.calls {x : Nat → Build α} {y : Nat → Build β} (hx : Rising x) (hc : Calls g x y)
    (hy : Stuck R B y g) : Stuck R B x g := by
  refine ⟨fun fuel => ?_, hy.2⟩
  cases fuel with
  | zero => exact hx.zero g
  | succ fuel => exact hc fuel (hy.1 fuel)

def Inside (g : Graph) (path : List (Nat × String)) (x : Nat → Build α) : Prop :=
  ∀ p ∈ path, ∀ fuel, Endless (x fuel) g → Endless (findExportWithin fuel p.1 p.2 []) g

theorem Inside.calls {path : List (Nat × String)} {x : Nat → Build α} {y : Nat → Build β}
    (hx : Inside g path x) (hc : Calls g x y) : Inside g path y := fun p hp fuel hy =>
  (rising_find p.1 p.2 []).endless (Nat.le_succ fuel) (hx p hp (fuel + 1) (hc fuel hy))

section
variable {n : Nat}

theorem endless_seek (search : Nat → Nat → List Nat → Build (Option α × List Nat))
    (hrising : ∀ i visited, Rising fun fuel => search fuel i visited)
    (hquiet : ∀ fuel i visited, Runs g (search fuel i visited) (Quiet g visited)) {stars : List Target}
    {visited : List Nat} (hrun : Endless (seek (search n) stars visited) g) :
    ∃ i visited', .inside i ∈ stars ∧ visited ⊆ visited' ∧ Endless (search n i visited') g ∧
      ∀ fuel, Endless (search fuel i visited') g → Endless (seek (search fuel) stars visited) g := by
  induction stars generalizing visited with
  | nil => exact absurd hrun not_endless_pure
  | cons t stars ih =>
    cases t with
    | outside e =>
      obtain ⟨i, visited', hi, h⟩ := ih hrun
      exact ⟨i, visited', List.mem_cons_of_mem _ hi, h⟩
    | inside i =>
      rcases endless_bind.mp hrun with hfirst | ⟨⟨found, visited₁⟩, k, hfirst, hrest⟩
      · exact ⟨i, visited, List.mem_cons_self, List.Subset.refl _, hfirst, fun fuel hf => hf.bind _⟩
      · cases found with
        | some a => exact absurd hrest not_endless_pure
        | none =>
          obtain ⟨-, hnone, hsub⟩ := (hquiet n i visited).spec hfirst
          obtain rfl := hnone rfl
          obtain ⟨j, visited', hj, hsub', hrun', hall⟩ := ih hrest
          refine ⟨j, visited', List.mem_cons_of_mem _ hj, List.Subset.trans hsub hsub', hrun', fun fuel hf => ?_⟩
          rcases (hrising i visited).agree fuel (not_endless_of_ok hfirst) with hend | hsame
          · exact hend.bind _
          · exact endless_bind.mpr (.inr ⟨_, _, hsame.trans hfirst, hall fuel hf⟩)

theorem endless_mapM {f : Nat → β → Build α} (hrising : ∀ b, Rising fun fuel => f fuel b)
    (hruns : ∀ fuel b h, Runs h (f fuel b) fun _ _ => True) {l : List β} (hrun : Endless (l.mapM (f n)) g) :
    ∃ b ∈ l, ∃ h, Deepens g h ∧ Endless (f n b) h ∧
      ∀ fuel, Endless (f fuel b) h → Endless (l.mapM (f fuel)) g := by
  induction l generalizing g with
  | nil => exact absurd hrun not_endless_pure
  | cons b l ih =>
    rw [List.mapM_cons] at hrun
    rcases endless_bind.mp hrun with hfirst | ⟨a, k, hfirst, hrest⟩
    · refine ⟨b, List.mem_cons_self, g, .refl g, hfirst, fun fuel hf => ?_⟩
      rw [List.mapM_cons]
      exact hf.bind _
    · rcases endless_bind.mp hrest with hrest | ⟨as, l', -, hpure⟩
      · obtain ⟨b', hb', h, hd, hrun', hall⟩ := ih hrest
        have hd' := ((hruns n b g).spec hfirst).1
        refine ⟨b', List.mem_cons_of_mem _ hb', h, hd'.trans hd, hrun', fun fuel hf => ?_⟩
        rw [List.mapM_cons]
        rcases (hrising b).agree fuel (not_endless_of_ok hfirst) with hend | hsame
        · exact hend.bind _
        · exact endless_bind.mpr (.inr ⟨a, k, hsame.trans hfirst, (hall fuel hf).bind _⟩)
      · exact absurd hpure not_endless_pure

end

def asked (R : List Routes) : List (Nat × String) :=
  R.flatMap fun m => m.reexports.filterMap (fun e => m.export? e.2.source e.2.localName) ++
    m.imports.filterMap fun e => m.export? e.2.source e.2.name

theorem mem_asked_of_borrows {i : Nat} {name : String} {q : Nat × String} (hq : Borrows R i name q) :
    q ∈ asked R := by
  obtain ⟨m, s, hm, -, hs, htarget, hname⟩ := hq
  refine List.mem_flatMap.mpr ⟨m, List.mem_of_getElem? hm, List.mem_append_right _ ?_⟩
  exact List.mem_filterMap.mpr ⟨(name, s), lookup_mem hs, by rw [Routes.export?, htarget, hname]⟩

theorem Forwards.mem_asked {p q : Nat × String} (hq : Forwards R p q) : q ∈ asked R := by
  obtain ⟨m, hm, ⟨r, hr, htarget, hname⟩ | ⟨-, e, -, he⟩⟩ := hq
  · refine List.mem_flatMap.mpr ⟨m, List.mem_of_getElem? hm, List.mem_append_left _ ?_⟩
    exact List.mem_filterMap.mpr ⟨(p.2, r), lookup_mem hr, by rw [Routes.export?, htarget, hname]⟩
  · exact mem_asked_of_borrows he

theorem countP_range_le (p : Nat → Bool) (n : Nat) : (List.range n).countP p ≤ n :=
  Nat.le_trans List.countP_le_length (Nat.le_of_eq List.length_range)

def unopened (R : List Routes) (g : Graph) : Nat := (List.range R.length).countP fun i => (g.objectOf i).isNone

/-- Exports that can be asked for and are not being looked for. -/
def spare (R : List Routes) (path : List (Nat × String)) : Nat := (asked R).countP (!path.contains ·)

def unvisited (R : List Routes) (visited : List Nat) : Nat :=
  (List.range R.length).countP (!visited.contains ·)

def stretch (R : List Routes) : Nat := R.length + 6

/-- Fuel for all that is left to trace while some exports are being looked for. -/
def reserve (R : List Routes) (g : Graph) (path : List (Nat × String)) : Nat :=
  unopened R g * (((asked R).length + 1) * stretch R) + spare R path * stretch R

theorem spare_cons {path : List (Nat × String)} {q : Nat × String} (hq : q ∈ asked R) (hnew : q ∉ path) :
    spare R (q :: path) < spare R path := by
  refine countP_lt (fun p hp => ?_) hq ?_ ?_
  · simp only [List.contains_cons, Bool.not_or, Bool.and_eq_true] at hp
    exact hp.2
  · simp
  · simpa using hnew

theorem unvisited_lt {visited visited' : List Nat} {i : Nat} (hi : i < R.length) (hnew : i ∉ visited)
    (hsub : i :: visited ⊆ visited') : unvisited R visited' < unvisited R visited := by
  obtain ⟨hmem, hsub⟩ := List.cons_subset.mp hsub
  refine countP_lt (fun k hk => ?_) (List.mem_range.mpr hi) ?_ ?_
  · simp only [Bool.not_eq_true', List.contains_eq_mem, decide_eq_false_iff_not] at hk ⊢
    exact fun hv => hk (hsub hv)
  · simpa using hmem
  · simpa using hnew

theorem unopened_lt {i : Nat} (hi : i < R.length) (hg : g.objectOf i = none) (hh : h.objectOf i ≠ none)
    (hd : ∀ k, h.objectOf k = none → g.objectOf k = none) : unopened R h < unopened R g := by
  refine countP_lt (fun k hk => ?_) (List.mem_range.mpr hi) ?_ ?_
  · rw [Option.isNone_iff_eq_none] at hk ⊢
    exact hd k hk
  · simpa [Option.isSome_iff_ne_none] using hh
  · simpa using hg

section
variable {n : Nat} {i : Nat} {name : String}

theorem Endless.congr {x y : Build α} (hrun : x.run g = y.run g) : Endless x g ↔ Endless y g := by
  rw [Endless, hrun, Endless]

theorem not_endless_externalDeclaration (external : Nat) (name : String) :
    ¬Endless (externalDeclaration external name) g := by
  have hrun := externalDeclaration_eq g external name
  split at hrun <;> exact not_endless_of_ok hrun

theorem endless_trace (hrun : Endless (traceWithin (n + 1) i name) g) :
    ∃ m s target, g.routes[i]? = some m ∧ m.declarations.get? name = none ∧ m.imports.get? name = some s ∧
      m.targets.get? s.source = some target ∧ Endless (followWithin n target s.name i) g ∧
      Calls g (fun fuel => traceWithin fuel i name) fun fuel => followWithin fuel target s.name i := by
  rw [Endless.congr (traceWithin_eq g n i name)] at hrun
  split at hrun
  · exact absurd hrun not_endless_pure
  · next m hm =>
    split at hrun
    · exact absurd hrun not_endless_pure
    · exact absurd hrun not_endless_pure
    · next s hnone hs =>
      split at hrun
      · exact absurd hrun not_endless_pure
      · next target ht =>
        refine ⟨m, s, target, hm, hnone, hs, ht, hrun.of_pure, fun fuel hf => ?_⟩
        rw [Endless.congr (traceWithin_eq g fuel i name), hm]
        simp only [hnone, hs, ht]
        exact hf.bind _

theorem endless_follow {target : Target} {importer : Nat}
    (hrun : Endless (followWithin (n + 1) target name importer) g) : ∃ k, target = .inside k ∧
      ((name = "*" ∧ Endless (objectWithin n k) g ∧
        Calls g (fun fuel => followWithin fuel target name importer) fun fuel => objectWithin fuel k) ∨
      name ≠ "*" ∧ Endless (exportWithin n k name importer) g ∧
        Calls g (fun fuel => followWithin fuel target name importer)
          fun fuel => exportWithin fuel k name importer) := by
  cases target with
  | outside e =>
    rw [followWithin] at hrun
    exact absurd hrun (not_endless_externalDeclaration e name)
  | inside k =>
    rw [followWithin] at hrun
    refine ⟨k, rfl, ?_⟩
    by_cases hname : name = "*"
    · rw [if_pos (beq_iff_eq.mpr hname)] at hrun
      refine .inl ⟨hname, hrun, fun fuel hf => ?_⟩
      dsimp only
      rw [followWithin, if_pos (beq_iff_eq.mpr hname)]
      exact hf
    · rw [if_neg (mt beq_iff_eq.mp hname)] at hrun
      refine .inr ⟨hname, hrun, fun fuel hf => ?_⟩
      dsimp only
      rw [followWithin, if_neg (mt beq_iff_eq.mp hname)]
      exact hf

theorem endless_export {importer : Nat} : Endless (exportWithin (n + 1) i name importer) g ↔
    Endless (findExportWithin n i name []) g := by
  rw [exportWithin, endless_bind]
  refine or_iff_left ?_
  rintro ⟨⟨found, visited⟩, k, -, hrest⟩
  cases found with
  | some id => exact not_endless_pure hrest
  | none =>
    obtain ⟨_, _, h⟩ := hrest
    cases h

theorem endless_find {visited : List Nat} (hrun : Endless (findExportWithin (n + 1) i name visited) g) :
    ∃ m, g.routes[i]? = some m ∧ i ∉ visited ∧
      ((∃ r target, m.reexports.get? name = some r ∧ m.targets.get? r.source = some target ∧
        Endless (followWithin n target r.localName i) g ∧
        Calls g (fun fuel => findExportWithin fuel i name visited)
          fun fuel => followWithin fuel target r.localName i) ∨
      (∃ e, m.reexports.get? name = none ∧ m.exports.get? name = some e ∧
        Endless (traceWithin n i e.localName) g ∧
        Calls g (fun fuel => findExportWithin fuel i name visited) fun fuel => traceWithin fuel i e.localName) ∨
      ∃ k visited', m.reexports.get? name = none ∧ m.exports.get? name = none ∧ name ≠ "default" ∧
        .inside k ∈ m.stars ∧ i :: visited ⊆ visited' ∧ Endless (findExportWithin n k name visited') g ∧
        Calls g (fun fuel => findExportWithin fuel i name visited)
          fun fuel => findExportWithin fuel k name visited') := by
  rw [Endless.congr (findExportWithin_eq g n i name visited)] at hrun
  split at hrun
  · exact absurd hrun not_endless_pure
  · next hnew =>
    split at hrun
    · exact absurd hrun not_endless_pure
    · next m hm =>
      refine ⟨m, hm, by simpa using hnew, ?_⟩
      split at hrun
      · next r hr =>
        split at hrun
        · exact absurd hrun not_endless_pure
        · next target ht =>
          refine .inl ⟨r, target, hr, ht, hrun.of_pure, fun fuel hf => ?_⟩
          rw [Endless.congr (findExportWithin_eq g fuel i name visited), if_neg hnew, hm]
          simp only [hr, ht]
          exact hf.bind _
      · next e hnone he =>
        refine .inr (.inl ⟨e, hnone, he, hrun.of_pure, fun fuel hf => ?_⟩)
        rw [Endless.congr (findExportWithin_eq g fuel i name visited), if_neg hnew, hm]
        simp only [hnone, he]
        exact hf.bind _
      · next hnone hnone' =>
        split at hrun
        · exact absurd hrun not_endless_pure
        · next hname =>
          rcases endless_bind.mp hrun with hseek | ⟨⟨found, visited'⟩, k, -, hrest⟩
          · obtain ⟨k, visited', hk, hsub, hfind, hall⟩ :=
              endless_seek (fun fuel other visited => findExportWithin fuel other name visited)
                (fun k v => rising_find k name v) (fun fuel k v => (runsWithin fuel).find g k name v) hseek
            refine .inr (.inr ⟨k, visited', hnone, hnone', mt beq_iff_eq.mpr hname, hk, hsub, hfind, fun fuel hf => ?_⟩)
            rw [Endless.congr (findExportWithin_eq g fuel i name visited), if_neg hnew, hm]
            simp only [hnone, hnone', if_neg hname]
            exact (hall fuel hf).bind _
          · cases found with
            | some id => exact absurd hrest not_endless_pure
            | none =>
              dsimp only at hrest
              split at hrest
              · exact absurd hrest.of_pure (not_endless_externalDeclaration _ name)
              · exact absurd hrest not_endless_pure

theorem endless_object (hrun : Endless (objectWithin (n + 1) i) g) :
    i < g.routes.length ∧ g.objectOf i = none ∧ ∃ name ∈ g.exportNames i, ∃ h, Deepens g h ∧
      h.objectOf i ≠ none ∧ Endless (exportWithin n i name i) h ∧
      ∀ fuel, Endless (exportWithin fuel i name i) h → Endless (objectWithin (fuel + 1) i) g := by
  cases hm : g.modules[i]? with
  | none =>
    rw [objectWithin, endless_bind] at hrun
    rcases hrun with hget | ⟨a, k, hget, hrest⟩
    · obtain ⟨_, _, hget⟩ := hget
      cases hget
    · obtain ⟨rfl, rfl⟩ := Prod.mk.inj (Except.ok.inj hget)
      simp only [hm] at hrest
      obtain ⟨_, _, hrest⟩ := hrest
      cases hrest
  | some m =>
    have hi := (List.getElem?_eq_some_iff.mp hm).1
    have hnone : m.object = none := by
      cases ho : m.object with
      | none => rfl
      | some id =>
        have hknown : g.objectOf i = some id := by rw [objectOf, hm, Option.bind_some, ho]
        exact absurd hrun (not_endless_of_ok (objectWithin_known hknown n))
    have hobject : g.objectOf i = none := by rw [objectOf, hm, Option.bind_some, hnone]
    refine ⟨by rw [length_routes]; exact hi, hobject, ?_⟩
    rw [Endless, objectWithin_new hm hnone n] at hrun
    rcases endless_bind.mp hrun with hmembers | ⟨members, k, -, _, _, hrest⟩
    · have hpair : ∀ name, Rising fun fuel => (do return (name, ← exportWithin fuel i name i) : Build _) :=
        fun name => ⟨fun g => ((rising_export i name i).zero g).bind _,
          fun fuel => ((rising_export i name i).below fuel).bind fun _ => .refl _⟩
      have hruns : ∀ fuel name h, Runs h (do return (name, ← exportWithin fuel i name i) : Build _)
          fun _ _ => True := fun fuel name h =>
        ((runsWithin fuel).export_ h i name i).bind fun _ _ _ _ => .pure trivial
      obtain ⟨name, hname, h, hd, hpairend, hall⟩ := endless_mapM hpair hruns hmembers
      have hstart : Deepens g (g.startObject i m.baseName) := deepens_startObject m.baseName
      refine ⟨name, hname, h, hstart.trans hd, fun hno => ?_, hpairend.of_pure, fun fuel hf => ?_⟩
      · have := hd.object i hno
        rw [objectOf_startObject hi, if_pos rfl] at this
        cases this
      · rw [Endless, objectWithin_new hm hnone fuel]
        exact (hall fuel (hf.bind _)).bind _
    · cases hrest

end

/-- Exports that hold with each all that it is asked of, and with a module as a whole all that it exports. -/
structure Holds (R : List Routes) (B : Nat × String → Prop) : Prop where
  wants : ∀ p q, B p → Wants R p q → B q
  member : ∀ (g : Graph) (i : Nat) (name : String), g.routes = R → B (i, "*") → name ∈ g.exportNames i →
    B (i, name)

/-- With fuel for all that is left to trace, a step that runs out of it does not end with any. The `path` are
the exports that are being looked for since a module was last traced as a whole, each asked of the next. -/
structure Decides (R : List Routes) (B : Nat × String → Prop) (n : Nat) : Prop where
  trace : ∀ (g : Graph) (path : List (Nat × String)) (i : Nat) (name : String), g.routes = R →
    Inside g path (fun fuel => traceWithin fuel i name) →
    (∀ q, Borrows R i name q → B q ∧ (q.2 ≠ "*" → ∀ p ∈ path, TransGen (Asks R) p q)) →
    reserve R g path + 4 ≤ n → Endless (traceWithin n i name) g →
    Stuck R B (fun fuel => traceWithin fuel i name) g
  follow : ∀ (g : Graph) (path : List (Nat × String)) (target : Target) (name : String) (importer : Nat),
    g.routes = R → Inside g path (fun fuel => followWithin fuel target name importer) →
    (∀ i, target = .inside i → B (i, name) ∧ (i, name) ∈ asked R ∧
      (name ≠ "*" → ∀ p ∈ path, TransGen (Asks R) p (i, name))) →
    reserve R g path + 3 ≤ n → Endless (followWithin n target name importer) g →
    Stuck R B (fun fuel => followWithin fuel target name importer) g
  export_ : ∀ (g : Graph) (path : List (Nat × String)) (i : Nat) (name : String) (importer : Nat),
    g.routes = R → Inside g path (fun fuel => exportWithin fuel i name importer) → B (i, name) →
    (∀ p ∈ path, TransGen (Asks R) p (i, name)) →
    ((i, name) ∉ path → reserve R g ((i, name) :: path) + stretch R ≤ n) →
    Endless (exportWithin n i name importer) g → Stuck R B (fun fuel => exportWithin fuel i name importer) g
  find : ∀ (g : Graph) (path : List (Nat × String)) (i : Nat) (name : String) (visited : List Nat),
    g.routes = R → Inside g path (fun fuel => findExportWithin fuel i name visited) →
    (∃ k, B (k, name) ∧ ReflTransGen (Delegates R name) k i) →
    (∀ p ∈ path, ∃ k, ReflTransGen (Asks R) p (k, name) ∧ ReflTransGen (Delegates R name) k i) →
    reserve R g path + unvisited R visited + 5 ≤ n → Endless (findExportWithin n i name visited) g →
    Stuck R B (fun fuel => findExportWithin fuel i name visited) g
  object : ∀ (g : Graph) (i : Nat), g.routes = R → B (i, "*") →
    unopened R g * (((asked R).length + 1) * stretch R) + 1 ≤ n → Endless (objectWithin n i) g →
    Stuck R B (fun fuel => objectWithin fuel i) g

section
variable {n : Nat} (ih : Decides R B n)
include ih

theorem decides_trace {path : List (Nat × String)} {i : Nat} {name : String} (hg : g.routes = R)
    (hinside : Inside g path fun fuel => traceWithin fuel i name)
    (hq : ∀ q, Borrows R i name q → B q ∧ (q.2 ≠ "*" → ∀ p ∈ path, TransGen (Asks R) p q))
    (hn : reserve R g path + 4 ≤ n + 1) (hrun : Endless (traceWithin (n + 1) i name) g) :
    Stuck R B (fun fuel => traceWithin fuel i name) g := by
  obtain ⟨m, s, target, hm, hnone, hs, ht, hfollow, hcalls⟩ := endless_trace hrun
  rw [hg] at hm
  refine .calls (rising_trace i name) hcalls ?_
  refine ih.follow g path target s.name i hg (hinside.calls hcalls) (fun k hk => ?_) (by omega) hfollow
  have hb : Borrows R i name (k, s.name) := ⟨m, s, hm, hnone, hs, hk ▸ ht, rfl⟩
  exact ⟨(hq _ hb).1, mem_asked_of_borrows hb, (hq _ hb).2⟩

theorem decides_follow {path : List (Nat × String)} {target : Target} {name : String} {importer : Nat}
    (hg : g.routes = R) (hinside : Inside g path fun fuel => followWithin fuel target name importer)
    (hq : ∀ i, target = .inside i → B (i, name) ∧ (i, name) ∈ asked R ∧
      (name ≠ "*" → ∀ p ∈ path, TransGen (Asks R) p (i, name)))
    (hn : reserve R g path + 3 ≤ n + 1) (hrun : Endless (followWithin (n + 1) target name importer) g) :
    Stuck R B (fun fuel => followWithin fuel target name importer) g := by
  obtain ⟨k, hk, ⟨rfl, hobject, hcalls⟩ | ⟨hname, hexport, hcalls⟩⟩ := endless_follow hrun
  · refine .calls (rising_follow target "*" importer) hcalls (ih.object g k hg (hq k hk).1 ?_ hobject)
    rw [reserve] at hn
    omega
  · obtain ⟨hB, hmem, hpath⟩ := hq k hk
    refine .calls (rising_follow target name importer) hcalls ?_
    refine ih.export_ g path k name importer hg (hinside.calls hcalls) hB (hpath hname) (fun hnew => ?_) hexport
    -- one export fewer can be asked for, which leaves its stretch of fuel
    have hspare := Nat.mul_le_mul_right (stretch R) (spare_cons hmem hnew)
    rw [Nat.succ_mul] at hspare
    rw [reserve] at hn ⊢
    omega

omit ih in
/-- An export that is asked of itself again does not end: whatever fuel is not enough for it, a little more is
not enough either. -/
theorem stuck_again {path : List (Nat × String)} {i : Nat} {name : String} {importer : Nat}
    (hinside : Inside g path fun fuel => exportWithin fuel i name importer) (hmem : (i, name) ∈ path)
    (hB : B (i, name)) (hpath : ∀ p ∈ path, TransGen (Asks R) p (i, name)) :
    Stuck R B (fun fuel => exportWithin fuel i name importer) g := by
  refine ⟨fun fuel => ?_, (i, name), hB, hpath _ hmem⟩
  induction fuel with
  | zero => exact (rising_export i name importer).zero g
  | succ fuel hfuel => exact endless_export.mpr (hinside _ hmem fuel hfuel)

theorem decides_export {path : List (Nat × String)} {i : Nat} {name : String} {importer : Nat}
    (hg : g.routes = R) (hinside : Inside g path fun fuel => exportWithin fuel i name importer)
    (hB : B (i, name)) (hpath : ∀ p ∈ path, TransGen (Asks R) p (i, name))
    (hn : (i, name) ∉ path → reserve R g ((i, name) :: path) + stretch R ≤ n + 1)
    (hrun : Endless (exportWithin (n + 1) i name importer) g) :
    Stuck R B (fun fuel => exportWithin fuel i name importer) g := by
  have hcalls : Calls g (fun fuel => exportWithin fuel i name importer)
      fun fuel => findExportWithin fuel i name [] := fun _ hf => endless_export.mpr hf
  have hrising := rising_export i name importer
  by_cases hmem : (i, name) ∈ path
  · exact stuck_again hinside hmem hB hpath
  · have hroom := hn hmem
    refine .calls hrising hcalls (ih.find g ((i, name) :: path) i name [] hg ?_ ⟨i, hB, .refl⟩ ?_ ?_
      (endless_export.mp hrun))
    · refine List.forall_mem_cons.mpr ⟨fun _ hf => hf, hinside.calls hcalls⟩
    · exact List.forall_mem_cons.mpr ⟨⟨i, .refl, .refl⟩, fun p hp => ⟨i, (hpath p hp).to_reflTransGen, .refl⟩⟩
    · have hunvisited : unvisited R [] ≤ R.length := countP_range_le _ _
      rw [stretch] at hroom
      omega

theorem decides_find (hB : Holds R B) {path : List (Nat × String)} {i : Nat} {name : String}
    {visited : List Nat} (hg : g.routes = R)
    (hinside : Inside g path fun fuel => findExportWithin fuel i name visited)
    (hfrom : ∃ k, B (k, name) ∧ ReflTransGen (Delegates R name) k i)
    (hpath : ∀ p ∈ path, ∃ k, ReflTransGen (Asks R) p (k, name) ∧ ReflTransGen (Delegates R name) k i)
    (hn : reserve R g path + unvisited R visited + 5 ≤ n + 1)
    (hrun : Endless (findExportWithin (n + 1) i name visited) g) :
    Stuck R B (fun fuel => findExportWithin fuel i name visited) g := by
  obtain ⟨m, hm, hnew, hcases⟩ := endless_find hrun
  rw [hg] at hm
  have hrising := rising_find i name visited
  -- whatever the module forwards, the exports on the path ask for
  have hforwards : ∀ q, Forwards R (i, name) q →
      B q ∧ (q.2 ≠ "*" → ∀ p ∈ path, TransGen (Asks R) p q) := by
    intro q hq
    obtain ⟨k, hk, hdelegates⟩ := hfrom
    refine ⟨hB.wants (k, name) q hk ⟨i, hdelegates, hq⟩, fun hname p hp => ?_⟩
    obtain ⟨k, hasks, hdelegates⟩ := hpath p hp
    exact TransGen.tail' hasks ⟨⟨i, hdelegates, hq⟩, hname⟩
  rcases hcases with ⟨r, target, hr, ht, hfollow, hcalls⟩ | ⟨e, hnone, he, htrace, hcalls⟩ |
    ⟨k, visited', hnone, hnone', hname, hk, hsub, hfind, hcalls⟩
  · refine .calls hrising hcalls ?_
    refine ih.follow g path target r.localName i hg (hinside.calls hcalls) (fun k hk => ?_) (by omega) hfollow
    have hq : Forwards R (i, name) (k, r.localName) := ⟨m, hm, .inl ⟨r, hr, hk ▸ ht, rfl⟩⟩
    exact ⟨(hforwards _ hq).1, hq.mem_asked, (hforwards _ hq).2⟩
  · refine .calls hrising hcalls ?_
    refine ih.trace g path i e.localName hg (hinside.calls hcalls) (fun q hq => ?_) (by omega) htrace
    exact hforwards q ⟨m, hm, .inr ⟨hnone, e, he, hq⟩⟩
  · have hstep : Delegates R name i k := ⟨m, hm, hnone, hnone', hname, hk⟩
    have hless := unvisited_lt (List.getElem?_eq_some_iff.mp hm).1 hnew hsub
    refine .calls hrising hcalls ?_
    refine ih.find g path k name visited' hg (hinside.calls hcalls) ?_ (fun p hp => ?_) (by omega) hfind
    · exact hfrom.imp fun k h => ⟨h.1, h.2.tail hstep⟩
    · exact (hpath p hp).imp fun k h => ⟨h.1, h.2.tail hstep⟩

theorem decides_object (hB : Holds R B) {i : Nat} (hg : g.routes = R) (hi : B (i, "*"))
    (hn : unopened R g * (((asked R).length + 1) * stretch R) + 1 ≤ n + 1)
    (hrun : Endless (objectWithin (n + 1) i) g) : Stuck R B (fun fuel => objectWithin fuel i) g := by
  obtain ⟨hlt, hnone, name, hname, h, hd, hopened, hexport, hall⟩ := endless_object hrun
  have hless := unopened_lt (hg ▸ hlt) hnone hopened hd.object
  have hstuck : Stuck R B (fun fuel => exportWithin fuel i name i) h := by
    refine ih.export_ h [] i name i (hd.routes.trans hg) nofun (hB.member g i name hg hi hname) nofun
      (fun _ => ?_) hexport
    -- one module fewer is left to be traced as a whole, which leaves fuel for all exports
    have hrest := Nat.mul_le_mul_right (((asked R).length + 1) * stretch R) hless
    have hspare : spare R [(i, name)] * stretch R ≤ (asked R).length * stretch R :=
      Nat.mul_le_mul_right _ List.countP_le_length
    rw [Nat.succ_mul] at hrest
    rw [reserve]
    have hwhole : ((asked R).length + 1) * stretch R = (asked R).length * stretch R + stretch R :=
      Nat.succ_mul _ _
    omega
  refine ⟨fun fuel => ?_, hstuck.2⟩
  cases fuel with
  | zero => exact (rising_object i).zero g
  | succ fuel => exact hall fuel (hstuck.1 fuel)

end

theorem decides (hB : Holds R B) (n : Nat) : Decides R B n := by
  induction n with
  | zero =>
    refine ⟨fun _ _ _ _ _ _ _ hn => ?_, fun _ _ _ _ _ _ _ _ hn => ?_,
      fun g path i name _ _ hinside hi hpath hn _ => ?_, fun _ _ _ _ _ _ _ _ _ hn => ?_, fun _ _ _ _ hn => ?_⟩
    · omega
    · omega
    · refine stuck_again hinside (Decidable.by_contra fun hnew => ?_) hi hpath
      have := hn hnew
      rw [stretch] at this
      omega
    · omega
    · omega
  | succ n ih =>
    exact ⟨fun _ _ _ _ => decides_trace ih, fun _ _ _ _ _ => decides_follow ih,
      fun _ _ _ _ _ => decides_export ih, fun _ _ _ _ _ => decides_find ih hB,
      fun _ _ => decides_object ih hB⟩

theorem length_asked (g : Graph) : (asked g.routes).length ≤
    (g.modules.flatMap fun m => m.imports.keys ++ m.exports.keys ++ m.reexports.keys).length := by
  rw [asked, routes, List.flatMap_map, List.length_flatMap, List.length_flatMap]
  refine List.sum_le_sum fun m _ => ?_
  have hreexports := List.length_filterMap_le (fun e => m.routes.export? e.2.source e.2.localName)
    m.routes.reexports
  have himports := List.length_filterMap_le (fun e => m.routes.export? e.2.source e.2.name) m.routes.imports
  have hkeys : m.routes.reexports.length + m.routes.imports.length =
      m.reexports.keys.length + m.imports.keys.length := by
    simp [LinkedModule.routes, Table.keys]
  simp only [List.length_append]
  omega

theorem reserve_le_traceBound (g : Graph) (path : List (Nat × String)) :
    reserve g.routes g path + stretch g.routes ≤ g.traceBound := by
  have hunopened : unopened g.routes g ≤ g.routes.length := countP_range_le _ _
  have hspare : spare g.routes path * stretch g.routes ≤ (asked g.routes).length * stretch g.routes :=
    Nat.mul_le_mul_right _ List.countP_le_length
  have hmodules := length_routes g
  have hasked := length_asked g
  have hopen := Nat.mul_le_mul_right (((asked g.routes).length + 1) * stretch g.routes) hunopened
  have hstretch : stretch g.routes ≤ 4 * (g.modules.length + 2) := by
    rw [stretch]
    omega
  calc reserve g.routes g path + stretch g.routes
      ≤ g.routes.length * (((asked g.routes).length + 1) * stretch g.routes) +
          ((asked g.routes).length + 1) * stretch g.routes := by
        rw [reserve, Nat.succ_mul (asked g.routes).length]
        rw [Nat.succ_mul (asked g.routes).length] at hopen
        omega
    _ = (g.modules.length + 1) * (((asked g.routes).length + 1) * stretch g.routes) := by
        rw [hmodules, Nat.succ_mul g.modules.length]
    _ ≤ (g.modules.length + 1) * (((g.modules.flatMap fun m =>
          m.imports.keys ++ m.exports.keys ++ m.reexports.keys).length + 2) *
            (4 * (g.modules.length + 2))) := by
        gcongr
        omega
    _ = g.traceBound := by
        rw [traceBound]
        ring

theorem holds_meets (g : Graph) (first : Nat × String → Prop) : Holds g.routes (Meets g first) where
  wants _ _ hp h := .wants hp h
  member _ i _ hk hi hname := .member hi (exportNames_congr hk i ▸ hname)

theorem stuck_trace {module : Nat} {name : String} (hrun : Endless (trace module name) g) :
    Stuck g.routes (Meets g (Borrows g.routes module name)) (fun fuel => traceWithin fuel module name) g := by
  have hbound := reserve_le_traceBound g []
  rw [stretch] at hbound
  exact (decides (holds_meets g _) g.traceBound).trace g [] module name rfl nofun
    (fun q hq => ⟨.first hq, fun _ => nofun⟩) (by omega) hrun

theorem stuck_traceExport {module importer : Nat} {name : String}
    (hrun : Endless (traceExport (.inside module) name importer) g) :
    Stuck g.routes (Meets g (· = (module, name))) (fun fuel => exportWithin fuel module name importer) g :=
  (decides (holds_meets g _) g.traceBound).export_ g [] module name importer rfl nofun (.first rfl) nofun
    (fun _ => reserve_le_traceBound g _) hrun

/-- A trace ends with a declaration or with none, or at an export that is missing, unless it does not end with any
fuel and meets an export that is asked of itself; so does a trace of an export, which ends with a declaration. -/
theorem tracing_ends (g : Graph) : (∀ module name,
      (∃ found h, (trace module name).run g = .ok (found, h)) ∨ Misses (trace module name) g ∨
        (∀ fuel, Endless (traceWithin fuel module name) g) ∧
          ∃ q, Meets g (Borrows g.routes module name) q ∧ TransGen (Asks g.routes) q q) ∧
    ∀ target name importer,
      (∃ id h, (traceExport target name importer).run g = .ok (id, h)) ∨
        Misses (traceExport target name importer) g ∨
        ∃ module, target = .inside module ∧ (∀ fuel, Endless (exportWithin fuel module name importer) g) ∧
          ∃ q, Meets g (· = (module, name)) q ∧ TransGen (Asks g.routes) q q := by
  refine ⟨fun module name => ?_, fun target name importer => ?_⟩
  · rcases (runsWithin g.traceBound).trace g module name with ⟨found, h, hrun, -⟩ | hrun | hrun
    · exact .inl ⟨found, h, hrun⟩
    · exact .inr (.inl hrun)
    · exact .inr (.inr (stuck_trace hrun))
  · cases target with
    | outside e =>
      rcases runs_externalDeclaration (g := g) e name with ⟨id, h, hrun, -⟩ | hrun | hrun
      · exact .inl ⟨id, h, hrun⟩
      · exact .inr (.inl hrun)
      · exact absurd hrun (not_endless_externalDeclaration e name)
    | inside module =>
      rcases (runsWithin g.traceBound).export_ g module name importer with ⟨id, h, hrun, -⟩ | hrun | hrun
      · exact .inl ⟨id, h, hrun⟩
      · exact .inr (.inl hrun)
      · exact .inr (.inr ⟨module, rfl, stuck_traceExport hrun⟩)

def mirrors : List (Module × Table Target) :=
  [(wholeModule "0" .other [{ name := "x", start := 0, stop := 1, scope := 0 }] [("x", ⟨"./1", "x", 0⟩)] [] [],
      [("./1", .inside 1)]),
    ({ wholeModule "1" .reexport [] [] [] [] with reexports := [("x", ⟨"./2", "x", 0⟩)], sources := ["./2"] },
      [("./2", .inside 2)]),
    ({ wholeModule "2" .reexport [] [] [] [] with reexports := [("x", ⟨"./1", "x", 0⟩)], sources := ["./1"] },
      [("./1", .inside 1)])]

theorem fetched_mirrors : Fetched mirrors [] := by
  have htargets : ∀ e ∈ mirrors, ∀ s t, e.2.get? s = some t →
      s ∈ e.1.sources ∧ (t = .inside 1 ∨ t = .inside 2) := by
    intro e he s t h
    have hmem := lookup_mem h
    simp only [mirrors, List.mem_cons, List.not_mem_nil, or_false] at he
    rcases he with rfl | rfl | rfl
    · obtain ⟨rfl, rfl⟩ := Prod.mk.inj (List.mem_singleton.mp hmem)
      exact ⟨by decide, .inl rfl⟩
    · obtain ⟨rfl, rfl⟩ := Prod.mk.inj (List.mem_singleton.mp hmem)
      exact ⟨by decide, .inr rfl⟩
    · obtain ⟨rfl, rfl⟩ := Prod.mk.inj (List.mem_singleton.mp hmem)
      exact ⟨by decide, .inl rfl⟩
  refine ⟨fun e he => ?_, fun e he s t h => (htargets e he s t h).1, fun e he s i h => ?_,
    fun e he s i h => ?_, nofun⟩
  · simp only [mirrors, List.mem_cons, List.not_mem_nil, or_false] at he
    rcases he with rfl | rfl | rfl <;> exact ⟨by decide, by decide, by decide⟩
  · rcases (htargets e he s _ h).2 with h | h <;> cases h <;> decide
  · rcases (htargets e he s _ h).2 with h | h <;> cases h

theorem endless_mirror {n i k importer : Nat} (hik : i = 1 ∧ k = 2 ∨ i = 2 ∧ k = 1)
    (h : Endless (exportWithin n k "x" i) (ofModules mirrors [])) :
    Endless (exportWithin (n + 3) i "x" importer) (ofModules mirrors []) := by
  have hroutes : ∃ m s, (ofModules mirrors []).routes[i]? = some m ∧
      m.reexports.get? "x" = some ⟨s, "x", 0⟩ ∧ m.targets.get? s = some (.inside k) := by
    rcases hik with ⟨rfl, rfl⟩ | ⟨rfl, rfl⟩
    · exact ⟨_, _, rfl, rfl, rfl⟩
    · exact ⟨_, _, rfl, rfl, rfl⟩
  obtain ⟨m, s, hm, hr, ht⟩ := hroutes
  rw [endless_export, Endless.congr (findExportWithin_eq _ _ i "x" []), if_neg (by simp), hm]
  simp only [hr, ht]
  refine Endless.bind ?_ _
  rw [followWithin, if_neg (by decide)]
  exact h

/-- An export that two modules have from each other ends with no fuel, so it is not missing either. -/
theorem mirrored_export_endless : Fetched mirrors [] ∧ Endless (trace 0 "x") (ofModules mirrors []) ∧
    ∀ fuel, Endless (traceWithin fuel 0 "x") (ofModules mirrors []) := by
  have hexport : ∀ n, (∀ importer, Endless (exportWithin n 1 "x" importer) (ofModules mirrors [])) ∧
      ∀ importer, Endless (exportWithin n 2 "x" importer) (ofModules mirrors []) := by
    intro n
    induction n with
    | zero => exact ⟨(rising_export 1 "x" ·|>.zero _), (rising_export 2 "x" ·|>.zero _)⟩
    | succ n ih =>
      have hless : ∀ i importer, Endless (exportWithin (n + 3) i "x" importer) (ofModules mirrors []) →
          Endless (exportWithin (n + 1) i "x" importer) (ofModules mirrors []) := fun i importer h => by
        have hle : n + 1 ≤ n + 3 := by omega
        exact (rising_export i "x" importer).endless hle h
      exact ⟨fun importer => hless 1 importer (endless_mirror (.inl ⟨rfl, rfl⟩) (ih.2 1)),
        fun importer => hless 2 importer (endless_mirror (.inr ⟨rfl, rfl⟩) (ih.1 2))⟩
  have htrace : ∀ fuel, Endless (traceWithin fuel 0 "x") (ofModules mirrors []) := by
    intro fuel
    refine (rising_trace 0 "x").endless (Nat.le_add_right fuel 2) ?_
    rw [Endless.congr (traceWithin_eq _ (fuel + 1) 0 "x")]
    refine Endless.bind (x := followWithin (fuel + 1) (.inside 1) "x" 0) ?_ fun id => pure (some id)
    rw [followWithin, if_neg (by decide)]
    exact (hexport fuel).1 0
  exact ⟨fetched_mirrors, htrace _, htrace⟩

end Graph

end Treeshake
