import Mathlib
import Treeshake.Proofs.Graph.Mark
/-!
Assignments that can be seen. Main statements: an assignment to what is included, or to what no module declares,
is included; only one through a default export that nothing included uses may be left out, and it can be.
-/
set_option autoImplicit false

namespace Treeshake.Graph

def StandsFor (g : Graph) : Nat → Nat → Prop :=
  Relation.ReflTransGen fun id k => ∃ d, g.declarations[id]? = some d ∧ d.standsFor = some k

/-- A default export that stands for a binding while nothing included uses the export itself. -/
structure Bypassed (g : Graph) (id : Nat) : Prop where
  unused : g.isUsed id = false
  default : ∃ d k r, g.declarations[id]? = some d ∧ d.standsFor = some k ∧ d.statement = some r ∧
    g.isIncluded r = false

section
variable {R : List Routes} {n : Nat} {g h : Graph}

theorem hidden_of_anyTarget (hR : Ranged R n) {module : Nat} {targets : List (Option String)}
    (hg : Fits R n g) (hrun : (anyTarget module targets).run g = .ok (false, h)) :
    ∀ target ∈ targets, ∃ name id, target = some name ∧ (trace module name).run h = .ok (some id, h) ∧
      h.isObservable id = false := by
  induction targets generalizing g with
  | nil => exact fun _ h => nomatch h
  | cons target rest ih =>
    cases target with
    | none => cases (run_pure_ok.mp hrun).1
    | some name =>
      obtain ⟨found, k, htrace, hrest⟩ := anyTarget_some.mp hrun
      obtain ⟨t, hv⟩ := traces_trace hR module name g found k hg htrace
      split at hrest
      · cases hrest.1
      · next hall =>
        have hkh := anyTarget_explored hR t.fits hrest
        intro target htarget
        rcases List.mem_cons.mp htarget with rfl | htarget
        · cases found with
          | none => exact absurd rfl hall
          | some id =>
            obtain ⟨e, he, -⟩ := hv id rfl
            have hsame : k.isObservable id = h.isObservable id :=
              isObservable_alike (.refl k) hkh.grows t.fits.sound hkh.fits.sound
                ⟨e, he, hkh.grows.later.entity id e he⟩ fun r => (hkh.isIncluded r).symm
            exact ⟨name, id, rfl, t.again h hkh.grows.later, hsame ▸ Bool.eq_false_iff.mpr hall⟩
        · exact ih t.fits hrest target htarget

theorem exists_statement_of_hidden {id : Nat} (hid : g.isObservable id = false) :
    ∃ d r, g.declarations[id]? = some d ∧ d.isExternal = false ∧ d.isObject = false ∧
      d.statement = some r ∧ g.isIncluded r = false := by
  cases hd : g.declarations[id]? with
  | none => simp [isObservable, declaration?, hd] at hid
  | some d =>
    simp only [isObservable_of_get hd, Bool.or_eq_false_iff] at hid
    obtain ⟨⟨hexternal, hobject⟩, hstatement⟩ := hid
    cases hr : d.statement with
    | none => simp [hr] at hstatement
    | some r => exact ⟨d, r, rfl, hexternal, hobject, hr, by simpa [hr] using hstatement⟩

theorem Closed.bypassed {id o : Nat} (hc : Closed g g.isIncluded fun id => g.isUsed id = true)
    (hid : g.isObservable id = false) (hstands : g.StandsFor id o) (ho : g.isObservable o = true) :
    g.Bypassed id := by
  obtain ⟨d, r, hd, -, -, hr, hi⟩ := exists_statement_of_hidden hid
  have hunused : g.isUsed id = false := by
    refine Bool.eq_false_iff.mpr fun hused => ?_
    rw [hc.statement id d r hd hused hr] at hi
    cases hi
  rcases hstands.cases_head with rfl | ⟨k, ⟨d', hd', hk⟩, -⟩
  · rw [ho] at hid
    cases hid
  · obtain rfl := Option.some.inj (hd.symm.trans hd')
    exact ⟨hunused, d, k, r, hd, hk, hr, hi⟩

end

/-- A statement that assigns to something is included if that can be seen: if nothing declares the name, or if
its declaration stands for a module, for an external name or for a binding whose statement is included. The one
exception is a name of a default export that nothing included uses. -/
theorem observable_assignment_included {g h k : Graph} {passes : Nat} (hg : g.Linked)
    (hrun : mark.run g = .ok (passes, h)) {r : StatementRef} {s : Statement} {name : String} {found : Option Nat}
    (hs : h.statement? r = some s) (hname : some name ∈ s.effects.targets)
    (htrace : (trace r.module name).run h = .ok (found, k))
    (hseen : ∀ id, found = some id → ∃ o, k.StandsFor id o ∧ k.isObservable o = true) :
    s.included = true ∨ ∃ id, found = some id ∧ h.Bypassed id := by
  obtain ⟨R, n, hR, hw⟩ := hg.wired
  obtain ⟨hscans, hsettled⟩ := mark_settles hR hw hrun
  have hG : Grown g h := Scans.grown hR hw (.refl g) hscans
  have hclosed := Owing.closed (Scans.owing hR hw (.refl g) hw.owing hscans) hsettled
  refine (Bool.eq_false_or_eq_true s.included).imp_right fun hi => ?_
  have heffects := hsettled.statements r s hs hi
  rw [hasSideEffects_some hs] at heffects
  split at heffects
  · cases heffects
  · obtain ⟨name', id, htarget, htrace', hhidden⟩ :=
      hidden_of_anyTarget hR (hG.fits hw.fits) heffects _ hname
    obtain rfl := Option.some.inj htarget
    obtain ⟨rfl, rfl⟩ := Prod.mk.inj (Except.ok.inj (htrace.symm.trans htrace'))
    obtain ⟨o, hstands, ho⟩ := hseen id rfl
    exact ⟨id, rfl, hclosed.bypassed hhidden hstands ho⟩

def sharedModule : Module :=
  { wholeModule "1" .variable [] [] [("a", ⟨"a", none, 0⟩), ("default", ⟨"default", some "a", 0⟩)]
      [⟨"a", "a", some 0⟩, ⟨"default", "a", some 1⟩] with
    statements := [
      { kind := .variable, start := 0, stop := 0, next := 0, nodeStart := 0 },
      { kind := .exportDefault 0 .expression, start := 0, stop := 0, next := 0, nodeStart := 0,
        references := [{ name := "a", start := 0, stop := 0, scope := 0 }] }] }

def assigningModule (used : String) : Module :=
  { wholeModule "0" .other [] [("a", ⟨"./1", "a", 0⟩), ("d", ⟨"./1", "default", 0⟩)] [] [] with
    statements := [
      { kind := .other, start := 0, stop := 0, next := 0, nodeStart := 0,
        references := [{ name := used, start := 0, stop := 0, scope := 0 }], effects := { calls := true } },
      { kind := .other, start := 0, stop := 0, next := 0, nodeStart := 0,
        references := [{ name := "d", start := 0, stop := 0, scope := 0 }],
        effects := { targets := [some "d"] } }] }

def assigning (used : String) : List (Module × Table Target) :=
  [(assigningModule used, [("./1", .inside 1)]), (sharedModule, [])]

theorem fetched_assigning (used : String) : Fetched (assigning used) [] := by
  refine .of_inside (fun e he => ?_) ?_
  · simp only [assigning, List.mem_cons, List.not_mem_nil, or_false] at he
    rcases he with rfl | rfl
    · refine ⟨?_, ?_, nofun⟩ <;> simp [assigningModule]
    · exact ⟨by decide, by decide, by decide⟩
  · simp [assigning, assigningModule, wholeModule, Table.values]

/-- A run of marking after which an assignment through a default export is seen at the binding it stands for. -/
structure Assigns (g h k : Graph) (s : Statement) : Prop where
  linked : g.Linked
  marked : ∃ passes, mark.run g = .ok (passes, h)
  statement : h.statement? ⟨0, 1⟩ = some s
  target : some "d" ∈ s.effects.targets
  traced : (trace 0 "d").run h = .ok (some 1, k)
  stands : k.StandsFor 1 0
  observable : k.isObservable 0 = true

theorem assigns_of_run (used : String) (included : List (List Bool))
    (hrun : ((bind.run (ofModules (assigning used) [])).toOption.bind fun p =>
      (mark.run p.2).toOption.bind fun q => (q.2.statement? ⟨0, 1⟩).bind fun s =>
        ((trace 0 "d").run q.2).toOption.map fun t => (q.2.included, s.effects.targets, t.1,
          (t.2.declarations[1]?).bind (·.standsFor), t.2.isObservable 0)) =
      some (included, [some "d"], some 1, some 0, true)) :
    ∃ g h k s, Assigns g h k s ∧ h.included = included := by
  obtain ⟨⟨stats, g⟩, hbind, hrun⟩ := Option.bind_eq_some_iff.mp hrun
  obtain ⟨⟨passes, h⟩, hmark, hrun⟩ := Option.bind_eq_some_iff.mp hrun
  obtain ⟨s, hs, hrun⟩ := Option.bind_eq_some_iff.mp hrun
  obtain ⟨⟨found, k⟩, htrace, hrun⟩ := Option.map_eq_some_iff.mp hrun
  simp only [Prod.mk.injEq] at hrun
  obtain ⟨hincluded, htargets, rfl, hdefault, hobservable⟩ := hrun
  obtain ⟨d, hd, hk⟩ := Option.bind_eq_some_iff.mp hdefault
  exact ⟨g, h, k, s, ⟨⟨_, _, stats, fetched_assigning used, ok_of_toOption hbind⟩, ⟨passes, ok_of_toOption hmark⟩,
    hs, by rw [htargets]; exact List.mem_cons_self, ok_of_toOption htrace, .single ⟨d, hd, hk⟩, hobservable⟩, hincluded⟩

theorem observable_assignment_included_default : ∃ g h k s, Assigns g h k s ∧
    h.included = [[true, true], [true, true]] ∧ (s.included = true ∨ h.Bypassed 1) := by
  obtain ⟨g, h, k, s, ha, hincluded⟩ :=
    assigns_of_run "d" [[true, true], [true, true]] (by cbv)
  obtain ⟨passes, hrun⟩ := ha.marked
  refine ⟨g, h, k, s, ha, hincluded, ?_⟩
  have hkept := observable_assignment_included ha.linked hrun ha.statement ha.target ha.traced
    fun id hid => ⟨0, Option.some.inj hid ▸ ha.stands, ha.observable⟩
  rcases hkept with hi | ⟨id, hid, hbypassed⟩
  · exact .inl hi
  · obtain rfl := Option.some.inj hid
    exact .inr hbypassed

/-- An assignment to the binding of another module is left out if it is made through the default export of that
module and nothing else uses the export. -/
theorem assignment_through_default_left_out : ∃ g h k s, Assigns g h k s ∧
    h.included = [[true, false], [true, false]] ∧ s.included = false := by
  obtain ⟨g, h, k, s, ha, hincluded⟩ :=
    assigns_of_run "a" [[true, false], [true, false]] (by cbv)
  refine ⟨g, h, k, s, ha, hincluded, ?_⟩
  have hs : h.included[0]? = some [true, false] := by rw [hincluded]; rfl
  obtain ⟨m, hm, hstatements⟩ : ∃ m, h.modules[0]? = some m ∧ m.statements.map (·.included) = [true, false] := by
    simpa [Graph.included] using hs
  have hs' : m.statements[1]? = some s := by
    simpa [statement?, hm] using ha.statement
  have hmarks := congrArg (·[1]?) hstatements
  simpa [hs'] using hmarks

end Treeshake.Graph
