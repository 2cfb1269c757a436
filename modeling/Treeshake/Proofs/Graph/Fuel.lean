import Treeshake.Proofs.Graph.Trace
/-!
Tracing with more and more fuel. Main statements: a trace with some fuel finds a declaration, or misses an
export, or runs out of fuel, and what it does with some fuel it does with more.
-/
set_option autoImplicit false

namespace Treeshake.Graph

variable {α β : Type} {g h k : Graph}

def Endless (x : Build α) (g : Graph) : Prop :=
  ∃ name id, x.run g = .error (.endlessExport name id)

def Misses (x : Build α) (g : Graph) : Prop :=
  ∃ name exporter importer, x.run g = .error (.missingExport name exporter importer)

theorem endless_throw (name : String) (f : Graph → String) :
    Endless (do throw (.endlessExport name (f (← get))) : Build α) g := ⟨name, f g, rfl⟩

theorem Endless.bind {x : Build α} (hx : Endless x g) (f : α → Build β) : Endless (x >>= f) g := by
  obtain ⟨name, id, hx⟩ := hx
  refine ⟨name, id, ?_⟩
  rw [StateT.run_bind, hx]
  rfl

theorem Misses.bind {x : Build α} (hx : Misses x g) (f : α → Build β) : Misses (x >>= f) g := by
  obtain ⟨name, exporter, importer, hx⟩ := hx
  refine ⟨name, exporter, importer, ?_⟩
  rw [StateT.run_bind, hx]
  rfl

theorem endless_bind {x : Build α} {f : α → Build β} : Endless (x >>= f) g ↔
    Endless x g ∨ ∃ a h, x.run g = .ok (a, h) ∧ Endless (f a) h := by
  constructor
  · rintro ⟨name, id, hrun⟩
    rw [StateT.run_bind] at hrun
    cases hx : x.run g with
    | error e =>
      rw [hx] at hrun
      obtain rfl : e = .endlessExport name id := Except.error.inj hrun
      exact .inl ⟨name, id, hx⟩
    | ok p =>
      rw [hx] at hrun
      exact .inr ⟨p.1, p.2, rfl, name, id, hrun⟩
  · rintro (hx | ⟨a, h, hx, name, id, hf⟩)
    · exact hx.bind f
    · exact ⟨name, id, (run_bind_of_ok hx).trans hf⟩

theorem not_endless_of_ok {x : Build α} {a : α} (hx : x.run g = .ok (a, h)) : ¬Endless x g := by
  rintro ⟨name, id, hrun⟩
  cases hx.symm.trans hrun

theorem not_endless_pure {a : α} : ¬Endless (pure a : Build α) g := not_endless_of_ok rfl

theorem Endless.of_pure {x : Build α} {f : α → β} (h : Endless (x >>= fun a => pure (f a)) g) : Endless x g := by
  rcases endless_bind.mp h with hx | ⟨a, k, -, hpure⟩
  · exact hx
  · exact absurd hpure not_endless_pure

/-- Tables stay, and so do the modules that are traced as a whole. -/
structure Deepens (g h : Graph) : Prop where
  routes : h.routes = g.routes
  object : ∀ i, h.objectOf i = none → g.objectOf i = none

theorem Deepens.refl (g : Graph) : Deepens g g := ⟨rfl, fun _ h => h⟩

theorem Deepens.trans (h₁ : Deepens g h) (h₂ : Deepens h k) : Deepens g k :=
  ⟨h₂.routes.trans h₁.routes, fun i hi => h₁.object i (h₂.object i hi)⟩

/-- A run that traces gives something of a kind, or misses an export, or runs out of fuel. -/
def Runs (g : Graph) (x : Build α) (Q : α → Graph → Prop) : Prop :=
  (∃ a h, x.run g = .ok (a, h) ∧ Deepens g h ∧ Q a h) ∨ Misses x g ∨ Endless x g

theorem Runs.pure {a : α} {Q : α → Graph → Prop} (hQ : Q a g) : Runs g (Pure.pure a) Q :=
  .inl ⟨a, g, rfl, .refl g, hQ⟩

theorem Runs.endless {x : Build α} {Q : α → Graph → Prop} (hx : Endless x g) : Runs g x Q := .inr (.inr hx)

theorem Runs.bind {x : Build α} {f : α → Build β} {P : α → Graph → Prop} {Q : β → Graph → Prop}
    (hx : Runs g x P) (hf : ∀ a h, Deepens g h → P a h → Runs h (f a) Q) : Runs g (x >>= f) Q := by
  rcases hx with ⟨a, h, hx, hd, hP⟩ | hx | hx
  · rcases hf a h hd hP with ⟨b, k, hb, hd', hQ⟩ | ⟨name, exporter, importer, hb⟩ | hb
    · exact .inl ⟨b, k, (run_bind_of_ok hx).trans hb, hd.trans hd', hQ⟩
    · exact .inr (.inl ⟨name, exporter, importer, (run_bind_of_ok hx).trans hb⟩)
    · exact .inr (.inr (endless_bind.mpr (.inr ⟨a, h, hx, hb⟩)))
  · exact .inr (.inl (hx.bind f))
  · exact .inr (.inr (hx.bind f))

theorem Runs.spec {x : Build α} {Q : α → Graph → Prop} (hx : Runs g x Q) {a : α}
    (hrun : x.run g = .ok (a, h)) : Deepens g h ∧ Q a h := by
  rcases hx with ⟨b, k, hx, hd, hQ⟩ | ⟨name, exporter, importer, hx⟩ | hx
  · obtain ⟨rfl, rfl⟩ := Prod.mk.inj (Except.ok.inj (hx.symm.trans hrun))
    exact ⟨hd, hQ⟩
  · cases hx.symm.trans hrun
  · exact absurd hx (not_endless_of_ok hrun)

theorem Runs.get {f : Graph → Build β} {Q : β → Graph → Prop} (hf : Runs g (f g) Q) :
    Runs g (get >>= f) Q := hf

theorem Runs.mapM {f : β → Build α} {l : List β} (hf : ∀ b h, Runs h (f b) fun _ _ => True) :
    Runs g (l.mapM f) fun _ _ => True := by
  induction l generalizing g with
  | nil => exact .pure trivial
  | cons b l ih =>
    rw [List.mapM_cons]
    exact (hf b g).bind fun _ _ _ _ => ih.bind fun _ _ _ _ => .pure trivial

theorem deepens_startObject {module : Nat} (name : String) : Deepens g (g.startObject module name) := by
  refine ⟨routes_modifyModule fun _ => rfl, fun i hi => ?_⟩
  simp only [startObject, objectOf, modifyModule, push, getElem?_modify_eq] at hi
  split at hi
  · cases hm : g.modules[i]? with
    | none => rw [objectOf, hm, Option.bind_none]
    | some m =>
      rw [hm] at hi
      cases hi
  · exact hi

theorem runs_externalDeclaration (external : Nat) (name : String) :
    Runs g (externalDeclaration external name) fun _ _ => True := by
  have hnamed : Deepens g (g.nameExport external name) := by
    refine ⟨?_, fun i hi => ?_⟩
    · rw [routes, modules_nameExport, routes]
    · rw [objectOf, modules_nameExport] at hi
      exact hi
  have hrun := externalDeclaration_eq g external name
  split at hrun
  · exact .inl ⟨_, _, hrun, hnamed, trivial⟩
  · exact .inl ⟨_, _, hrun, hnamed.trans ⟨rfl, fun _ h => h⟩, trivial⟩

def Quiet (g : Graph) (visited : List Nat) (r : Option α × List Nat) (h : Graph) : Prop :=
  (r.1 = none → h = g) ∧ visited ⊆ r.2

theorem runs_seek {search : Nat → List Nat → Build (Option α × List Nat)} (stars : List Target)
    (hs : ∀ i visited, Runs g (search i visited) (Quiet g visited)) (visited : List Nat) :
    Runs g (seek search stars visited) (Quiet g visited) := by
  induction stars generalizing visited with
  | nil => exact .pure ⟨fun _ => rfl, List.Subset.refl _⟩
  | cons t stars ih =>
    cases t with
    | outside e => exact ih visited
    | inside i =>
      refine (hs i visited).bind fun r h _ hr => ?_
      obtain ⟨found, visited'⟩ := r
      obtain ⟨hnone, hsub⟩ := hr
      cases found with
      | some a => exact .pure ⟨fun hr => (by cases hr), hsub⟩
      | none =>
        obtain rfl := hnone rfl
        rcases ih visited' with ⟨r, k, hrun, hd, hk, hsub'⟩ | hrun
        · exact .inl ⟨r, k, hrun, hd, hk, List.Subset.trans hsub hsub'⟩
        · exact .inr hrun

structure RunsWithin (fuel : Nat) : Prop where
  trace : ∀ g module name, Runs g (traceWithin fuel module name) fun r h => r = none → h = g
  follow : ∀ g target name importer, Runs g (followWithin fuel target name importer) fun _ _ => True
  export_ : ∀ g module name importer, Runs g (exportWithin fuel module name importer) fun _ _ => True
  find : ∀ g module name visited,
    Runs g (findExportWithin fuel module name visited) (Quiet g visited)
  object : ∀ g module, Runs g (objectWithin fuel module) fun _ _ => True

section
variable {fuel : Nat} (ih : RunsWithin fuel)
include ih

theorem runs_traceWithin (module : Nat) (name : String) :
    Runs g (traceWithin (fuel + 1) module name) fun r h => r = none → h = g := by
  rw [traceWithin]
  refine .get ?_
  split
  · exact .pure fun _ => rfl
  · split
    · exact .pure fun _ => rfl
    · exact .pure fun _ => rfl
    · split
      · exact .pure fun _ => rfl
      · exact (ih.follow g _ _ _).bind fun _ _ _ _ => .pure fun hr => by cases hr

theorem runs_followWithin (target : Target) (name : String) (importer : Nat) :
    Runs g (followWithin (fuel + 1) target name importer) fun _ _ => True := by
  cases target with
  | outside e =>
    rw [followWithin]
    exact runs_externalDeclaration e name
  | inside i =>
    rw [followWithin]
    split
    · exact ih.object g i
    · exact ih.export_ g i name importer

theorem runs_exportWithin (module : Nat) (name : String) (importer : Nat) :
    Runs g (exportWithin (fuel + 1) module name importer) fun _ _ => True := by
  rw [exportWithin]
  refine (ih.find g module name []).bind fun r h _ _ => ?_
  obtain ⟨found, visited⟩ := r
  cases found with
  | none => exact .inr (.inl ⟨name, _, _, rfl⟩)
  | some id => exact .pure trivial

theorem runs_findExportWithin (module : Nat) (name : String) (visited : List Nat) :
    Runs g (findExportWithin (fuel + 1) module name visited) (Quiet g visited) := by
  have hpure : ∀ r h, (r = none → h = g) →
      Runs h (pure (r, module :: visited) : Build (Option Nat × List Nat)) (Quiet g visited) :=
    fun r h hr => .pure ⟨hr, List.subset_cons_self module visited⟩
  rw [findExportWithin]
  split
  · exact .pure ⟨fun _ => rfl, List.Subset.refl _⟩
  · refine .get ?_
    split
    · exact hpure none g fun _ => rfl
    · next m _ =>
      split
      · split
        · exact hpure none g fun _ => rfl
        · exact (ih.follow g _ _ _).bind fun _ h _ _ => hpure _ h fun hr => by cases hr
      · exact (ih.trace g _ _).bind fun r h _ hr => hpure r h hr
      · split
        · exact hpure none g fun _ => rfl
        · refine (runs_seek m.stars (fun i v => ih.find g i name v) (module :: visited)).bind
            fun r h _ hr => ?_
          obtain ⟨found, visited'⟩ := r
          obtain ⟨hnone, hsub⟩ := hr
          have hsub' : visited ⊆ visited' := List.Subset.trans (List.subset_cons_self module visited) hsub
          cases found with
          | some id => exact .pure ⟨fun hr => (by cases hr), hsub'⟩
          | none =>
            dsimp only
            split
            · exact (runs_externalDeclaration _ name).bind fun _ _ _ _ => .pure ⟨fun hr => (by cases hr), hsub'⟩
            · exact .pure ⟨fun _ => hnone rfl, hsub'⟩

theorem runs_objectWithin (module : Nat) : Runs g (objectWithin (fuel + 1) module) fun _ _ => True := by
  rw [objectWithin]
  refine .get ?_
  split
  · exact .inr (.inl ⟨_, _, _, rfl⟩)
  · next m hm =>
    split
    · exact .pure trivial
    · have hmembers : Runs (g.startObject module m.baseName) (do
          let members ← (g.exportNames module).mapM fun name =>
            return (name, ← exportWithin fuel module name module)
          modify fun k => k.finishObject module g.declarations.length members
          return g.declarations.length) fun _ _ => True := by
        refine (Runs.mapM fun name h => ?_).bind fun members h _ _ => ?_
        · exact (ih.export_ h module name module).bind fun _ _ _ _ => .pure trivial
        · exact .inl ⟨_, _, rfl, ⟨rfl, fun _ h => h⟩, trivial⟩
      rcases hmembers with ⟨a, h, hrun, hd, -⟩ | hrun
      · exact .inl ⟨a, h, hrun, (deepens_startObject _).trans hd, trivial⟩
      · exact .inr hrun

end

theorem endless_zero : (∀ g module name, Endless (traceWithin 0 module name) g) ∧
    (∀ g target name importer, Endless (followWithin 0 target name importer) g) ∧
    (∀ g module name importer, Endless (exportWithin 0 module name importer) g) ∧
    (∀ g module name visited, Endless (findExportWithin 0 module name visited) g) ∧
    ∀ g module, Endless (objectWithin 0 module) g := by
  refine ⟨fun g module name => ?_, fun g target name importer => ?_, fun g module name importer => ?_,
    fun g module name visited => ?_, fun g module => ?_⟩
  · rw [traceWithin]
    exact endless_throw name _
  · rw [followWithin]
    exact endless_throw name _
  · rw [exportWithin]
    exact endless_throw name _
  · rw [findExportWithin]
    exact endless_throw name _
  · rw [objectWithin]
    exact endless_throw "*" _

theorem runsWithin (fuel : Nat) : RunsWithin fuel := by
  induction fuel with
  | zero =>
    obtain ⟨htrace, hfollow, hexport, hfind, hobject⟩ := endless_zero
    exact ⟨fun g module name => .endless (htrace g module name),
      fun g target name importer => .endless (hfollow g target name importer),
      fun g module name importer => .endless (hexport g module name importer),
      fun g module name visited => .endless (hfind g module name visited),
      fun g module => .endless (hobject g module)⟩
  | succ fuel ih =>
    exact ⟨fun _ => runs_traceWithin ih, fun _ => runs_followWithin ih, fun _ => runs_exportWithin ih,
      fun _ => runs_findExportWithin ih, fun _ => runs_objectWithin ih⟩

/-- The second step does what the first one does, unless that runs out of fuel. -/
def Below (x y : Build α) : Prop := ∀ g, Endless x g ∨ x.run g = y.run g

theorem Below.refl (x : Build α) : Below x x := fun _ => .inr rfl

theorem Below.trans {x y z : Build α} (h₁ : Below x y) (h₂ : Below y z) : Below x z := by
  intro g
  rcases h₁ g with hx | hxy
  · exact .inl hx
  · rcases h₂ g with ⟨name, id, hy⟩ | hyz
    · exact .inl ⟨name, id, hxy.trans hy⟩
    · exact .inr (hxy.trans hyz)

theorem Below.bind {x y : Build α} {f f' : α → Build β} (hxy : Below x y)
    (hf : ∀ a, Below (f a) (f' a)) : Below (x >>= f) (y >>= f') := by
  intro g
  rcases hxy g with hx | hxy
  · exact .inl (hx.bind f)
  · cases hx : x.run g with
    | error e =>
      right
      rw [StateT.run_bind, StateT.run_bind, ← hxy, hx]
      rfl
    | ok p =>
      rw [run_bind_of_ok (hxy ▸ hx : y.run g = .ok (p.1, p.2)), run_bind_of_ok hx]
      rcases hf p.1 p.2 with hp | hp
      · exact .inl (endless_bind.mpr (.inr ⟨p.1, p.2, hx, hp⟩))
      · exact .inr hp

theorem Below.get {f f' : Graph → Build β} (hf : ∀ g, Below (f g) (f' g)) :
    Below (MonadState.get >>= f) (MonadState.get >>= f') := .bind (.refl _) hf

theorem Below.mapM {f f' : β → Build α} (hf : ∀ b, Below (f b) (f' b)) (l : List β) :
    Below (l.mapM f) (l.mapM f') := by
  induction l with
  | nil => exact .refl _
  | cons b l ih =>
    rw [List.mapM_cons, List.mapM_cons]
    exact (hf b).bind fun _ => ih.bind fun _ => .refl _

theorem below_seek {search search' : Nat → List Nat → Build (Option α × List Nat)}
    (hs : ∀ i visited, Below (search i visited) (search' i visited)) (stars : List Target)
    (visited : List Nat) : Below (seek search stars visited) (seek search' stars visited) := by
  induction stars generalizing visited with
  | nil => exact .refl _
  | cons t stars ih =>
    cases t with
    | outside e => exact ih visited
    | inside i =>
      refine (hs i visited).bind fun r => ?_
      obtain ⟨found, visited⟩ := r
      cases found with
      | none => exact ih visited
      | some a => exact .refl _

structure BelowWithin (fuel : Nat) : Prop where
  trace : ∀ module name, Below (traceWithin fuel module name) (traceWithin (fuel + 1) module name)
  follow : ∀ target name importer,
    Below (followWithin fuel target name importer) (followWithin (fuel + 1) target name importer)
  export_ : ∀ module name importer,
    Below (exportWithin fuel module name importer) (exportWithin (fuel + 1) module name importer)
  find : ∀ module name visited,
    Below (findExportWithin fuel module name visited) (findExportWithin (fuel + 1) module name visited)
  object : ∀ module, Below (objectWithin fuel module) (objectWithin (fuel + 1) module)

section
variable {fuel : Nat} (ih : BelowWithin fuel)
include ih

theorem below_traceWithin (module : Nat) (name : String) :
    Below (traceWithin (fuel + 1) module name) (traceWithin (fuel + 2) module name) := by
  rw [traceWithin, traceWithin]
  refine .get fun g => ?_
  split
  · exact .refl _
  · split
    · exact .refl _
    · exact .refl _
    · split
      · exact .refl _
      · exact (ih.follow _ _ _).bind fun _ => .refl _

theorem below_followWithin (target : Target) (name : String) (importer : Nat) :
    Below (followWithin (fuel + 1) target name importer) (followWithin (fuel + 2) target name importer) := by
  cases target with
  | outside e =>
    rw [followWithin, followWithin]
    exact .refl _
  | inside i =>
    rw [followWithin, followWithin]
    split
    · exact ih.object i
    · exact ih.export_ i name importer

theorem below_exportWithin (module : Nat) (name : String) (importer : Nat) :
    Below (exportWithin (fuel + 1) module name importer) (exportWithin (fuel + 2) module name importer) := by
  rw [exportWithin, exportWithin]
  exact (ih.find module name []).bind fun _ => .refl _

theorem below_findExportWithin (module : Nat) (name : String) (visited : List Nat) :
    Below (findExportWithin (fuel + 1) module name visited)
      (findExportWithin (fuel + 2) module name visited) := by
  rw [findExportWithin, findExportWithin]
  split
  · exact .refl _
  · refine .get fun g => ?_
    split
    · exact .refl _
    · split
      · split
        · exact .refl _
        · exact (ih.follow _ _ _).bind fun _ => .refl _
      · exact (ih.trace _ _).bind fun _ => .refl _
      · split
        · exact .refl _
        · exact (below_seek (fun i visited => ih.find i name visited) _ _).bind fun _ => .refl _

theorem below_objectWithin (module : Nat) :
    Below (objectWithin (fuel + 1) module) (objectWithin (fuel + 2) module) := by
  rw [objectWithin, objectWithin]
  refine .get fun g => ?_
  split
  · exact .refl _
  · split
    · exact .refl _
    · refine .bind (.refl _) fun _ => .bind (.mapM (fun name => ?_) _) fun _ => .refl _
      exact (ih.export_ module name module).bind fun _ => .refl _

end

theorem below_of_endless {x y : Build α} (hx : ∀ g, Endless x g) : Below x y := fun g => .inl (hx g)

theorem belowWithin (fuel : Nat) : BelowWithin fuel := by
  induction fuel with
  | zero =>
    obtain ⟨htrace, hfollow, hexport, hfind, hobject⟩ := endless_zero
    exact ⟨fun module name => below_of_endless (htrace · module name),
      fun target name importer => below_of_endless (hfollow · target name importer),
      fun module name importer => below_of_endless (hexport · module name importer),
      fun module name visited => below_of_endless (hfind · module name visited),
      fun module => below_of_endless (hobject · module)⟩
  | succ fuel ih =>
    exact ⟨below_traceWithin ih, below_followWithin ih, below_exportWithin ih, below_findExportWithin ih,
      below_objectWithin ih⟩

/-- A step at any fuel, which does nothing without it, and with more what it does with less. -/
structure Rising (x : Nat → Build α) : Prop where
  zero : ∀ g, Endless (x 0) g
  below : ∀ fuel, Below (x fuel) (x (fuel + 1))

section
variable {x : Nat → Build α} {m n : Nat}

theorem Rising.le (hx : Rising x) (h : m ≤ n) : Below (x m) (x n) := by
  induction h with
  | refl => exact .refl _
  | step _ ih => exact ih.trans (hx.below _)

theorem Rising.endless (hx : Rising x) (h : m ≤ n) (hn : Endless (x n) g) : Endless (x m) g := by
  rcases hx.le h g with hm | hmn
  · exact hm
  · obtain ⟨name, id, hn⟩ := hn
    exact ⟨name, id, hmn.trans hn⟩

theorem Rising.agree (hx : Rising x) (m : Nat) (hn : ¬Endless (x n) g) :
    Endless (x m) g ∨ (x m).run g = (x n).run g := by
  rcases Nat.le_total m n with h | h
  · exact hx.le h g
  · exact .inr ((hx.le h g).resolve_left hn).symm

end

theorem rising_trace (module : Nat) (name : String) : Rising fun fuel => traceWithin fuel module name :=
  ⟨fun g => endless_zero.1 g module name, fun fuel => (belowWithin fuel).trace module name⟩

theorem rising_follow (target : Target) (name : String) (importer : Nat) :
    Rising fun fuel => followWithin fuel target name importer :=
  ⟨fun g => endless_zero.2.1 g target name importer, fun fuel => (belowWithin fuel).follow target name importer⟩

theorem rising_export (module : Nat) (name : String) (importer : Nat) :
    Rising fun fuel => exportWithin fuel module name importer :=
  ⟨fun g => endless_zero.2.2.1 g module name importer,
    fun fuel => (belowWithin fuel).export_ module name importer⟩

theorem rising_find (module : Nat) (name : String) (visited : List Nat) :
    Rising fun fuel => findExportWithin fuel module name visited :=
  ⟨fun g => endless_zero.2.2.2.1 g module name visited, fun fuel => (belowWithin fuel).find module name visited⟩

theorem rising_object (module : Nat) : Rising fun fuel => objectWithin fuel module :=
  ⟨fun g => endless_zero.2.2.2.2 g module, fun fuel => (belowWithin fuel).object module⟩

end Treeshake.Graph
