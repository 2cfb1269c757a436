import Mathlib
import Treeshake.Proofs.Graph.Missing
import Treeshake.Proofs.Graph.Resolve
import Treeshake.Proofs.Graph.Search
/-!
Members of modules and imported names. Main statement: an access to a member of a module as a whole is bound to
what an import of that name is, if the module has the name and all its exports can be traced. A name that it
does not have is no member, yet it can be imported if star exports lead to an external module.
-/
set_option autoImplicit false

namespace Treeshake

namespace Graph

variable {R : List Routes} {n : Nat} {g h k l : Graph}

def Rejects {α : Type} (x : Build α) (g : Graph) : Prop :=
  Misses x g ∨ ∃ name exporter importer place, x.run g = .error (.missingMember name exporter importer place)

theorem Rejects.bind {α β : Type} {x : Build α} (hx : Rejects x g) (f : α → Build β) : Rejects (x >>= f) g := by
  rcases hx with hx | ⟨name, exporter, importer, place, hx⟩
  · exact .inl (hx.bind f)
  · refine .inr ⟨name, exporter, importer, place, ?_⟩
    rw [StateT.run_bind, hx]
    rfl

def BindsTo (x : Build Reference) (g : Graph) (id : Nat) (h : Graph) : Prop :=
  ∃ r : Reference, r.binding = .declared id ∧ x.run g = .ok (r, h)

/-- Two runs that bind references to the same thing, or that both reject them. -/
inductive Concur (x y : Build Reference) (g h : Graph) : Prop
  | bound {id id' : Nat} {k l : Graph} (hx : BindsTo x g id k) (hy : BindsTo y h id' l)
      (halike : Alike k id l id') : Concur x y g h
  | rejected (hx : Rejects x g) (hy : Rejects y h) : Concur x y g h

theorem bindsTo_bindTo (module : Nat) {id : Nat} {accesses : List Access} (r : Reference)
    (h : accesses = [] ∨ ∀ i, g.entity? id ≠ some (.whole i)) :
    ∃ k, BindsTo (bindTo module accesses id r) g id k := by
  have hrun : ∃ k, (bindTo module accesses id r).run g = .ok ({ r with accesses, binding := .declared id }, k) := by
    rw [bindTo, run_get_bind]
    dsimp only
    split
    · exact ⟨g, rfl⟩
    · exact ⟨_, rfl⟩
    · exact ⟨_, rfl⟩
    · split
      · exact ⟨_, rfl⟩
      · exact ⟨g, rfl⟩
    · next i members v hkind =>
      obtain ⟨d, hd, hdk⟩ := Option.map_eq_some_iff.mp hkind
      have hwhole : g.entity? id = some (.whole i) := by
        rw [entity?, show g.declarations[id]? = some d from hd, Option.map_some, Declaration.entity, hdk]
      rcases h with rfl | h
      · exact ⟨_, rfl⟩
      · exact absurd hwhole (h i)
  obtain ⟨k, hrun⟩ := hrun
  exact ⟨k, _, rfl, hrun⟩

section
variable {module id i : Nat} {members : Table Nat} {v : Bool} {d : Declaration} {a : Access} {rest : List Access}
  {r : Reference} (hd : g.declarations[id]? = some d) (hkind : d.kind = .object i members v)
include hd hkind

theorem run_bindTo_member {m : Nat} (hm : members.get? a.name = some m) :
    (bindTo module (a :: rest) id r).run g =
      (bindTo module rest m { r with name := a.name, stop := a.stop }).run g := by
  have hobject : (g.declaration? id).map Declaration.kind = some (.object i members v) := by
    rw [declaration?, hd, Option.map_some, hkind]
  rw [bindTo, run_get_bind]
  simp only [hobject, hm]

theorem rejects_bindTo (hm : members.get? a.name = none) : Rejects (bindTo module (a :: rest) id r) g := by
  have hobject : (g.declaration? id).map Declaration.kind = some (.object i members v) := by
    rw [declaration?, hd, Option.map_some, hkind]
  refine .inr ⟨a.name, g.moduleId i, g.moduleId module,
    Location.ofOffset ((g.modules[module]?.map fun m => m.code).getD []) r.start, ?_⟩
  rw [bindTo, run_get_bind]
  simp only [hobject, hm]
  rfl

end

theorem BindsTo.later (hR : Ranged R n) {module id id' : Nat} {accesses : List Access} {r : Reference}
    (hg : Wired R n g) (hv : Visible R module g id) (hb : BindsTo (bindTo module accesses id r) g id' k) :
    Later g k := by
  obtain ⟨r', -, hrun⟩ := hb
  exact (keeps_bindTo hR module accesses id r hg hv r' k hrun).2.1

theorem Concur.congr {x x' y y' : Build Reference} (hc : Concur x y k l) (hx : x'.run g = x.run k)
    (hy : y'.run h = y.run l) : Concur x' y' g h := by
  cases hc with
  | bound hb hb' ha =>
    obtain ⟨r, hr, hrun⟩ := hb
    obtain ⟨r', hr', hrun'⟩ := hb'
    exact .bound ⟨r, hr, hx.trans hrun⟩ ⟨r', hr', hy.trans hrun'⟩ ha
  | rejected hj hj' =>
    refine .rejected ?_ ?_
    · rwa [Rejects, Misses, hx]
    · rwa [Rejects, Misses, hy]

section
variable (hR : Ranged R n) {i j : Nat} (hg : Wired R n g) (hh : Wired R n h) {id id' : Nat}
include hR hg hh

theorem concur_of_plain {accesses : List Access} {e : Entity} (hv : Visible R i g id) (hv' : Visible R j h id')
    (he : g.entity? id = some e) (he' : h.entity? id' = some e) (hplain : accesses = [] ∨ ∀ m, e ≠ .whole m)
    (r r' : Reference) : Concur (bindTo i accesses id r) (bindTo j accesses id' r') g h := by
  have hg' := hplain.imp_right fun hw m hm => hw m (Option.some.inj (he.symm.trans hm))
  have hh' := hplain.imp_right fun hw m hm => hw m (Option.some.inj (he'.symm.trans hm))
  obtain ⟨k, hk⟩ := bindsTo_bindTo i r hg'
  obtain ⟨l, hl⟩ := bindsTo_bindTo j r' hh'
  exact .bound hk hl ⟨e, (hk.later hR hg hv).entity id e he, (hl.later hR hh hv').entity id' e he'⟩

theorem concur_bindTo (accesses : List Access) (hv : Visible R i g id) (hv' : Visible R j h id')
    (ha : Alike g id h id') (r r' : Reference) :
    Concur (bindTo i accesses id r) (bindTo j accesses id' r') g h := by
  induction accesses generalizing id id' r r' with
  | nil =>
    obtain ⟨e, he, he'⟩ := ha
    exact concur_of_plain hR hg hh hv hv' he he' (.inl rfl) r r'
  | cons a rest ih =>
    obtain ⟨e, he, he'⟩ := ha
    cases e with
    | own _ => exact concur_of_plain hR hg hh hv hv' he he' (.inr nofun) r r'
    | outside _ _ => exact concur_of_plain hR hg hh hv hv' he he' (.inr nofun) r r'
    | whole m =>
      obtain ⟨d, hd, -⟩ := Option.map_eq_some_iff.mp he
      obtain ⟨d', hd', -⟩ := Option.map_eq_some_iff.mp he'
      obtain ⟨members, v, hkind⟩ := object_of_entity hd he
      obtain ⟨members', v', hkind'⟩ := object_of_entity hd' he'
      obtain ⟨hnames, hsettles⟩ := hg.complete id d m members v hd hkind List.not_mem_nil
      obtain ⟨hnames', hsettles'⟩ := hh.complete id' d' m members' v' hd' hkind' List.not_mem_nil
      have hkeys : members.keys = members'.keys :=
        hnames.trans ((exportNames_congr (hg.fits.routes.trans hh.fits.routes.symm) m).trans hnames'.symm)
      cases hk : members.get? a.name with
      | none =>
        have hk' : members'.get? a.name = none := by
          rw [Option.eq_none_iff_forall_ne_some, ← not_exists, ← Table.mem_keys_iff, ← hkeys,
            Table.mem_keys_iff, hk]
          exact fun ⟨_, h⟩ => nomatch h
        exact .rejected (rejects_bindTo hd hkind hk) (rejects_bindTo hd' hkind' hk')
      | some k =>
        obtain ⟨k', hk'⟩ : ∃ k', members'.get? a.name = some k' := by
          rw [← Table.mem_keys_iff, ← hkeys, Table.mem_keys_iff]
          exact ⟨k, hk⟩
        have halike : Alike g k h k' := (hsettles _ k (lookup_mem hk)).alike hR hg.fits hh.fits
          (hsettles' _ k' (lookup_mem hk'))
        exact (ih (hg.member hR hv hd hkind hk) (hh.member hR hv' hd' hkind' hk') halike _ _).congr
          (run_bindTo_member hd hkind hk) (run_bindTo_member hd' hkind' hk')

end

/-- A reference to an imported name: no scope of its statement declares the name, and it stands for an export of a
module of the build, or with a star for that module as a whole. -/
def IsImport (g : Graph) (i : Nat) (r : Reference) (q : Nat × String) : Prop :=
  (∃ m, g.modules[i]? = some m ∧ m.scopes.find? r.scope r.name = none) ∧ Borrows g.routes i r.name q

/-- In graphs with these tables every trace ends. -/
def TracingEnds (R : List Routes) : Prop :=
  ∀ g : Graph, g.routes = R → ∀ module name, ¬Endless (trace module name) g

theorem exists_traceBound (g : Graph) : ∃ fuel, g.traceBound = fuel + 4 := by
  have hpos : ∀ a b c : Nat, 0 < (a + 1) * ((b + 2) * (c + 2)) := fun a b c =>
    Nat.mul_pos (Nat.succ_pos a) (Nat.mul_pos (Nat.succ_pos _) (Nat.succ_pos _))
  refine ⟨g.traceBound - 4, ?_⟩
  rw [traceBound, Nat.mul_assoc, Nat.mul_assoc]
  have := hpos g.modules.length g.modules.length
    (g.modules.flatMap fun m => m.imports.keys ++ m.exports.keys ++ m.reexports.keys).length
  omega

theorem run_trace_import {i : Nat} {name : String} {q : Nat × String} (hq : Borrows g.routes i name q) :
    ∃ fuel, (trace i name).run g = StateT.run (do
      return some (← if q.2 == "*" then objectWithin (fuel + 2) q.1 else exportWithin (fuel + 2) q.1 q.2 i) :
        Build (Option Nat)) g := by
  obtain ⟨fuel, hbound⟩ := exists_traceBound g
  obtain ⟨m, s, hm, hd, hi, ht, hs⟩ := hq
  refine ⟨fuel, ?_⟩
  rw [trace, run_get_bind, hbound, traceWithin_eq, hm]
  simp only [hd, hi, ht]
  rw [followWithin, hs]
  split <;> rfl

def bound (module : Nat) (stats : LinkStats) (r : Reference) : Build Reference := do
  return (← bindReference module stats r).1

section
variable {i : Nat} {stats : LinkStats} {r : Reference} {q : Nat × String}

theorem run_bindReference_import (stats : LinkStats) (hr : IsImport g i r q) :
    ∃ s s', (bindReference i stats r).run g = StateT.run (do
      match ← trace i r.name with
      | some id => return (← bindTo i r.accesses id r, s)
      | none => do
        modify fun g => { g with globals := addNew r.name g.globals }
        return ({ r with binding := .global }, s') : Build (Reference × LinkStats)) g := by
  obtain ⟨⟨m, hm, hscope⟩, -⟩ := hr
  let counted := { stats with references := stats.references + 1 }
  refine ⟨{ counted with bound := counted.bound + 1 }, { counted with globals := counted.globals + 1 }, ?_⟩
  rw [bindReference, run_get_bind]
  simp only [hm, hscope, Option.any_none, Bool.false_eq_true, if_false, Option.isSome_none]
  rfl

theorem run_bound_import {id : Nat} (stats : LinkStats) (hr : IsImport g i r q)
    (htrace : (trace i r.name).run g = .ok (some id, h)) :
    (bound i stats r).run g = (bindTo i r.accesses id r).run h := by
  obtain ⟨s, s', hrun⟩ := run_bindReference_import stats hr
  rw [run_bind_of_ok htrace] at hrun
  rw [bound, StateT.run_bind, hrun]
  dsimp only
  rw [StateT.run_bind]
  cases (bindTo i r.accesses id r).run h <;> rfl

theorem rejects_bound_import (stats : LinkStats) (hr : IsImport g i r q) (hmiss : Misses (trace i r.name) g) :
    Rejects (bound i stats r) g := by
  obtain ⟨s, s', hrun⟩ := run_bindReference_import stats hr
  refine Rejects.bind (.inl ?_) _
  rw [Misses.congr hrun]
  exact hmiss.bind _

end

/-- What the trace of a module as a whole gives: a declaration with the module's exports as its members. -/
structure Whole (R : List Routes) (n i module id : Nat) (k : Graph) (members : Table Nat) : Prop where
  wired : Wired R n k
  visible : Visible R i k id
  object : ∃ d v, k.declarations[id]? = some d ∧ d.kind = .object module members v
  keys : members.keys = k.exportNames module
  settles : ∀ name m, members.get? name = some m → Settles k module name m

section
variable (hR : Ranged R n) (hends : TracingEnds R) (hg : Wired R n g) {i module : Nat} {r : Reference}
include hR hends hg

theorem trace_whole (hr : IsImport g i r (module, "*")) : Misses (trace i r.name) g ∨
    ∃ id k members, (trace i r.name).run g = .ok (some id, k) ∧ Whole R n i module id k members := by
  obtain ⟨fuel, hrun⟩ := run_trace_import hr.2
  have hnot := hends g hg.fits.routes i r.name
  rw [Misses, hrun]
  rw [Endless.congr hrun] at hnot
  simp only [beq_self_eq_true, if_true] at hrun hnot ⊢
  rcases (runsWithin (fuel + 2)).object g module with ⟨id, k, hobject, -⟩ | hmiss | hend
  · rw [run_bind_of_ok hobject] at hrun ⊢
    obtain ⟨t, hv⟩ := traces_trace hR i r.name g (some id) k hg.fits hrun
    obtain ⟨-, hid⟩ := (tracesWithin hR (fuel + 2)).object module g id k hg.fits hobject
    obtain ⟨d, hd, -⟩ := Option.map_eq_some_iff.mp hid
    obtain ⟨members, v, hkind⟩ := object_of_entity hd hid
    have hk := hg.explored t.toExplored
    obtain ⟨hnames, hsettles⟩ := hk.complete id d module members v hd hkind List.not_mem_nil
    exact .inr ⟨id, k, members, rfl, hk, hv id rfl, ⟨d, v, hd, hkind⟩, hnames,
      fun name m hm => hsettles name m (lookup_mem hm)⟩
  · exact .inl (hmiss.bind _)
  · exact absurd (hend.bind _) hnot

omit hR in
theorem trace_named {name : String} (hr : IsImport g i r (module, name)) (hname : name ≠ "*") :
    ∃ fuel, Misses (exportWithin (fuel + 2) module name i) g ∧ Misses (trace i r.name) g ∨
      ∃ id k, (exportWithin (fuel + 2) module name i).run g = .ok (id, k) ∧
        (trace i r.name).run g = .ok (some id, k) := by
  obtain ⟨fuel, hrun⟩ := run_trace_import hr.2
  have hnot := hends g hg.fits.routes i r.name
  have hb : (name == "*") = false := beq_eq_false_iff_ne.mpr hname
  rw [Endless.congr hrun] at hnot
  simp only [hb, Bool.false_eq_true, if_false] at hrun hnot
  refine ⟨fuel, ?_⟩
  rcases (runsWithin (fuel + 2)).export_ g module name i with ⟨id, k, hexport, -⟩ | hmiss | hend
  · exact .inr ⟨id, k, hexport, hrun.trans (run_bind_of_ok hexport)⟩
  · exact .inl ⟨hmiss, (Misses.congr hrun).mpr (hmiss.bind _)⟩
  · exact absurd (hend.bind _) hnot

theorem rejects_some_import (hh : Wired R n h) (hr : IsImport g i r (module, "*")) (hm : module < R.length)
    (hmiss : Misses (trace i r.name) g) : ∃ name, Provides R module name ∧ ∀ j q stats,
      IsImport h j q (module, name) → Rejects (bound j stats q) h := by
  obtain ⟨fuel, hrun⟩ := run_trace_import hr.2
  simp only [beq_self_eq_true, if_true] at hrun
  have hobject : Misses (objectWithin (fuel + 2) module) g := by
    rcases misses_bind.mp ((Misses.congr hrun).mp hmiss) with hobject | ⟨_, _, -, hpure⟩
    · exact hobject
    · exact absurd hpure not_misses_pure
  obtain ⟨name, hname, l, hl, hmember⟩ := misses_objectWithin hR hg.fits hm hobject
  refine ⟨name, (mem_exportNames hR hg.fits.routes hm name).mp hname, fun j q stats hq => ?_⟩
  by_cases hstar : name = "*"
  · subst hstar
    rcases trace_whole hR hends hh hq with hmiss | ⟨id, k, members, hrun', -⟩
    · exact rejects_bound_import stats hq hmiss
    · obtain ⟨fuel', hrun''⟩ := run_trace_import hq.2
      simp only [beq_self_eq_true, if_true] at hrun''
      obtain ⟨id', k', hwhole, -⟩ := run_bind_ok.mp (hrun''.symm.trans hrun')
      exact absurd hwhole ((failsWithin hR (fuel + 2) (fuel' + 2)).object module g h hg.fits hh.fits hh.complete
        hobject id' k')
  · obtain ⟨fuel', ⟨-, hmiss⟩ | ⟨id, k, hexport, -⟩⟩ := trace_named hends hh hq hstar
    · exact rejects_bound_import stats hq hmiss
    · exact absurd hexport ((failsWithin hR (fuel + 1) (fuel' + 2)).export_ module name module j l h hl hh.fits
        hh.complete hmember id k)

omit hg hends in
theorem run_bound_member {id : Nat} {members : Table Nat} {a : Access} {rest : List Access} (stats : LinkStats)
    (hr : IsImport g i r (module, "*")) (htrace : (trace i r.name).run g = .ok (some id, k))
    (hw : Whole R n i module id k members) (haccesses : r.accesses = a :: rest) :
    (∀ m, members.get? a.name = some m → Visible R i k m ∧
      (bound i stats r).run g = (bindTo i rest m { r with name := a.name, stop := a.stop }).run k) ∧
    (members.get? a.name = none → Rejects (bound i stats r) g) := by
  obtain ⟨d, v, hd, hkind⟩ := hw.object
  have hrun := run_bound_import stats hr htrace
  rw [haccesses] at hrun
  refine ⟨fun m hm => ⟨hw.wired.member hR hw.visible hd hkind hm, hrun.trans (run_bindTo_member hd hkind hm)⟩,
    fun hm => ?_⟩
  rw [Rejects, Misses, hrun]
  exact rejects_bindTo hd hkind hm

omit hg in
/-- A name that the module exports is a member of the module, and an import of the name leads to the same. -/
theorem concur_of_provides (hh : Wired R n h) {j id : Nat} {members : Table Nat} {r' : Reference} {a : Access}
    (hr : IsImport g i r (module, "*")) (hr' : IsImport h j r' (module, a.name)) (hname : a.name ≠ "*")
    (haccesses : r.accesses = a :: r'.accesses) (htrace : (trace i r.name).run g = .ok (some id, k))
    (hw : Whole R n i module id k members) {m : Nat} (hm : members.get? a.name = some m) (stats stats' : LinkStats) :
    Concur (bound i stats r) (bound j stats' r') g h := by
  obtain ⟨hv, hrun⟩ := (run_bound_member hR stats hr htrace hw haccesses).1 m hm
  obtain ⟨fuel', hmember⟩ := hw.settles a.name m hm
  obtain ⟨fuel, ⟨hmiss, -⟩ | ⟨id', l, hexport, htrace'⟩⟩ := trace_named hends hh hr' hname
  · exact absurd (hmember k (.refl k)) ((failsWithin hR (fuel + 2) fuel').export_ module a.name j module h k
      hh.fits hw.wired.fits hw.wired.complete hmiss m k)
  · have halike : Alike k m l id' := (agreeWithin hR fuel' (fuel + 2)).export_ module a.name module j k h m id' k l
      hw.wired.fits hh.fits (hmember k (.refl k)) hexport
    obtain ⟨t, hv'⟩ := traces_trace hR j r'.name h (some id') l hh.fits htrace'
    exact (concur_bindTo hR hw.wired (hh.explored t.toExplored) r'.accesses hv (hv' id' rfl) halike _ _).congr hrun
      (run_bound_import stats' hr' htrace')

theorem import_of_not_provides {name : String} (hprovides : ¬Provides R module name)
    (hr : IsImport g i r (module, name)) (hname : name ≠ "*") (stats : LinkStats) :
    (¬LeadsOut R module name → Rejects (bound i stats r) g) ∧
    (LeadsOut R module name → ∃ id k e, BindsTo (bound i stats r) g id k ∧
      k.entity? id = some (.outside e name)) := by
  obtain ⟨fuel, htrace⟩ := trace_named hends hg hr hname
  rcases export_of_notMem hR hg.fits hprovides (fuel + 2) i with hend | ⟨hout, id, k, e, hrun, hid⟩ | ⟨hout, hmiss⟩
  · rcases htrace with ⟨hmiss, -⟩ | ⟨id, k, hrun, -⟩
    · exact absurd hmiss (not_misses_of_endless hend)
    · exact absurd hend (not_endless_of_ok hrun)
  · rcases htrace with ⟨hmiss, -⟩ | ⟨id', k', hrun', htrace⟩
    · exact absurd hmiss (not_misses_of_ok hrun)
    · obtain ⟨rfl, rfl⟩ := Prod.mk.inj (Except.ok.inj (hrun.symm.trans hrun'))
      obtain ⟨t, hv⟩ := traces_trace hR i r.name g (some id) k hg.fits htrace
      obtain ⟨l, hl⟩ : ∃ l, BindsTo (bindTo i r.accesses id r) k id l :=
        bindsTo_bindTo i r (.inr fun j hj => nomatch hj.symm.trans hid)
      refine ⟨fun hnot => absurd hout hnot, fun _ => ⟨id, l, e, ?_,
        (hl.later hR (hg.explored t.toExplored) (hv id rfl)).entity id _ hid⟩⟩
      obtain ⟨r', hr', hbind⟩ := hl
      exact ⟨r', hr', (run_bound_import stats hr htrace).trans hbind⟩
  · rcases htrace with ⟨-, hmiss⟩ | ⟨id, k, hrun, -⟩
    · exact ⟨fun _ => rejects_bound_import stats hr hmiss, fun h => absurd h hout⟩
    · exact absurd hmiss (not_misses_of_ok hrun)

end

section
variable {modules : List (Module × Table Target)} {externals : List External}

/-- How a reference to a member of a module as a whole and one to a name imported from the module fare, in two
graphs of one build. If the module cannot be traced as a whole, no member of it can be referred to, and one of its
exports cannot be imported. Else both references come to the same thing if the module exports the name; if it
does not, there is no such member, and the name can be imported only if star exports lead out of the build. -/
theorem member_access_agrees_with_import (hf : Fetched modules externals)
    (hends : TracingEnds (starred modules externals).routes)
    (hg : Wired (starred modules externals).routes externals.length g)
    (hh : Wired (starred modules externals).routes externals.length h) {i j module : Nat} {r r' : Reference}
    {a : Access} (hr : IsImport g i r (module, "*")) (hr' : IsImport h j r' (module, a.name)) (hname : a.name ≠ "*")
    (haccesses : r.accesses = a :: r'.accesses) (stats stats' : LinkStats) :
    (Misses (trace i r.name) g → Rejects (bound i stats r) g ∧
      ∃ name, Provides (starred modules externals).routes module name ∧ ∀ l q s, IsImport h l q (module, name) →
        Rejects (bound l s q) h) ∧
    (¬Misses (trace i r.name) g → Provides (starred modules externals).routes module a.name →
      Concur (bound i stats r) (bound j stats' r') g h) ∧
    (¬Misses (trace i r.name) g → ¬Provides (starred modules externals).routes module a.name →
      Rejects (bound i stats r) g ∧
      (¬LeadsOut (starred modules externals).routes module a.name → Rejects (bound j stats' r') h) ∧
      (LeadsOut (starred modules externals).routes module a.name → ∃ id k e,
        BindsTo (bound j stats' r') h id k ∧ k.entity? id = some (.outside e a.name))) := by
  have hR := ranged_starred hf
  obtain ⟨m, s, hm, -, -, ht, -⟩ := hg.fits.routes ▸ hr.2
  have hmodule := hR.inside m (List.mem_of_getElem? hm) s.source module ht
  have hnames : ∀ id k members, Whole (starred modules externals).routes externals.length i module id k members →
      (Provides (starred modules externals).routes module a.name ↔ ∃ m, members.get? a.name = some m) := by
    intro id k members hw
    rw [← mem_exportNames hR hw.wired.fits.routes hmodule, ← hw.keys, Table.mem_keys_iff]
  refine ⟨fun hmiss => ⟨rejects_bound_import stats hr hmiss, rejects_some_import hR hends hg hh hr hmodule hmiss⟩,
    fun hwhole hprovides => ?_, fun hwhole hprovides => ?_⟩
  · obtain ⟨id, k, members, htrace, hw⟩ := (trace_whole hR hends hg hr).resolve_left hwhole
    obtain ⟨m, hm⟩ := (hnames id k members hw).mp hprovides
    exact concur_of_provides hR hends hh hr hr' hname haccesses htrace hw hm stats stats'
  · obtain ⟨id, k, members, htrace, hw⟩ := (trace_whole hR hends hg hr).resolve_left hwhole
    have hm : members.get? a.name = none :=
      Option.eq_none_iff_forall_ne_some.mpr fun m hm => hprovides ((hnames id k members hw).mpr ⟨m, hm⟩)
    exact ⟨(run_bound_member hR stats hr htrace hw haccesses).2 hm,
      import_of_not_provides hR hends hh hprovides hr' hname stats'⟩

end

theorem tracingEnds_of_not_forwards (h : ∀ p q, ¬Forwards R p q) : TracingEnds R := by
  rintro g rfl module name hend
  obtain ⟨-, q, -, hcircle⟩ := stuck_trace hend
  obtain ⟨p, ⟨⟨k, -, hforwards⟩, -⟩, -⟩ := Relation.TransGen.head'_iff.mp hcircle
  exact h _ _ hforwards

def memberUse : Reference := { name := "ns", start := 0, stop := 2, scope := 0, accesses := [⟨"c", 4⟩] }

def importUse : Reference := { name := "c", start := 5, stop := 6, scope := 0 }

def bothWays (m : Module) (targets : Table Target) : List (Module × Table Target) :=
  [(wholeModule "0" .other [memberUse, importUse]
      [("ns", ⟨"./1", "*", 0⟩), ("c", ⟨"./1", "c", 0⟩)] [] [], [("./1", .inside 1)]),
    (m, targets)]

section
variable {m : Module} {targets : Table Target} {externals : List External}

theorem fetched_bothWays (hm : m.Fresh) (htargets : ∀ s t, targets.get? s = some t →
      s ∈ m.sources ∧ ∃ e, t = .outside e ∧ e < externals.length) (hunused : ∀ e ∈ externals, e.declarations = []) :
    Fetched (bothWays m targets) externals := by
  have hall : ∀ e ∈ bothWays m targets, e.1.Fresh ∧ ∀ s t, e.2.get? s = some t → s ∈ e.1.sources ∧
      (t = .inside 1 ∨ ∃ k, t = .outside k ∧ k < externals.length) := by
    intro e he
    simp only [bothWays, List.mem_cons, List.not_mem_nil, or_false] at he
    rcases he with rfl | rfl
    · refine ⟨⟨by decide, by decide, by decide⟩, fun s t h => ?_⟩
      obtain ⟨rfl, rfl⟩ := Prod.mk.inj (List.mem_singleton.mp (lookup_mem h))
      exact ⟨by decide, .inl rfl⟩
    · exact ⟨hm, fun s t h => (htargets s t h).imp_right .inr⟩
  refine ⟨fun e he => (hall e he).1, fun e he s t h => ((hall e he).2 s t h).1, fun e he s i h => ?_,
    fun e he s i h => ?_, hunused⟩
  · rcases ((hall e he).2 s _ h).2 with h | ⟨k, h, -⟩
    · obtain rfl := Target.inside.inj h
      exact Nat.lt_succ_self 1
    · cases h
  · rcases ((hall e he).2 s _ h).2 with h | ⟨k, h, hk⟩
    · cases h
    · obtain rfl := Target.outside.inj h
      exact hk

theorem isImport_bothWays :
    IsImport (starred (bothWays m targets) externals) 0 memberUse (1, "*") ∧
    IsImport (starred (bothWays m targets) externals) 0 importUse (1, "c") :=
  ⟨⟨⟨_, rfl, rfl⟩, _, _, rfl, rfl, rfl, rfl, rfl⟩, ⟨_, rfl, rfl⟩, _, _, rfl, rfl, rfl, rfl, rfl⟩

end

def declared : List (Module × Table Target) :=
  bothWays (wholeModule "1" .variable [] [] [("c", ⟨"c", none, 0⟩)] [⟨"c", "c", some 0⟩]) []

theorem tracingEnds_declared : TracingEnds (starred declared []).routes := by
  refine tracingEnds_of_not_forwards ?_
  rintro ⟨i, name⟩ q ⟨m, hm, ⟨r, hr, -⟩ | ⟨-, e, he, m', s, hm', hd, -⟩⟩
  · rcases i with _ | _ | i
    · cases hm
      cases hr
    · cases hm
      cases hr
    · cases hm
  · rcases i with _ | _ | i
    · cases hm
      cases he
    · cases hm
      cases hm'
      obtain ⟨rfl, rfl⟩ := Prod.mk.inj (List.mem_singleton.mp (lookup_mem he))
      cases hd
    · cases hm

theorem member_access_agrees_with_import_declared : Fetched declared [] ∧
    TracingEnds (starred declared []).routes ∧ Provides (starred declared []).routes 1 "c" ∧
    Concur (bound 0 {} memberUse) (bound 0 {} importUse) (starred declared []) (starred declared []) := by
  have hf : Fetched declared [] :=
    fetched_bothWays ⟨by decide, by decide, by decide⟩ nofun nofun
  have hw := wired_starred hf
  have hprovides : Provides (starred declared []).routes 1 "c" := ⟨1, _, .refl, rfl, by decide, nofun⟩
  obtain ⟨-, hagree, -⟩ := member_access_agrees_with_import (a := ⟨"c", 4⟩) hf tracingEnds_declared hw hw
    isImport_bothWays.1 isImport_bothWays.2 (by decide) rfl {} {}
  refine ⟨hf, tracingEnds_declared, hprovides, hagree ?_ hprovides⟩
  have htrace : ((trace 0 memberUse.name).run (starred declared [])).isOk = true := by cbv
  rintro ⟨_, _, _, hmiss⟩
  rw [hmiss] at htrace
  cases htrace

def passedOn : List (Module × Table Target) :=
  bothWays { wholeModule "1" .reexport [] [] [] [] with starSources := ["ext"], sources := ["ext"] }
    [("ext", .outside 0)]

def passing : Graph := starred passedOn [{ id := "ext", name := "ext" }]

theorem fetched_passedOn : Fetched passedOn [{ id := "ext", name := "ext" }] := by
  refine fetched_bothWays ⟨by decide, by decide, by decide⟩ (fun s t h => ?_) fun e he => ?_
  · obtain ⟨rfl, rfl⟩ := Prod.mk.inj (List.mem_singleton.mp (lookup_mem h))
    exact ⟨by decide, 0, rfl, by decide⟩
  · rw [List.mem_singleton.mp he]

theorem tracingEnds_passing : TracingEnds passing.routes := by
  have hnothing : ∀ m ∈ passing.routes, m.exports = [] ∧ m.reexports = [] := by
    intro m hm
    rcases List.mem_cons.mp hm with rfl | hm
    · exact ⟨rfl, rfl⟩
    · rw [List.mem_singleton.mp hm]
      exact ⟨rfl, rfl⟩
  refine tracingEnds_of_not_forwards ?_
  rintro p q ⟨m, hm, hforwards⟩
  obtain ⟨hexports, hreexports⟩ := hnothing m (List.mem_of_getElem? hm)
  rw [hexports, hreexports] at hforwards
  rcases hforwards with ⟨r, hr, -⟩ | ⟨-, e, he, -⟩
  · cases hr
  · cases he

/-- A name that a module passes on from an external one can be imported, but an access to it is rejected. -/
theorem passed_on_name_no_member : Fetched passedOn [{ id := "ext", name := "ext" }] ∧
    TracingEnds passing.routes ∧ passing.IsImport 0 memberUse (1, "*") ∧ passing.IsImport 0 importUse (1, "c") ∧
    Rejects (bound 0 {} memberUse) passing ∧ ∃ id k e, BindsTo (bound 0 {} importUse) passing id k ∧
      k.entity? id = some (.outside e "c") := by
  have hR := ranged_starred fetched_passedOn
  have hw := wired_starred fetched_passedOn
  have hprovides : ¬Provides passing.routes 1 "c" :=
    mt (mem_exportNames hR hw.fits.routes (by decide) "c").mpr (by decide)
  have hout : LeadsOut passing.routes 1 "c" := ⟨by decide, 1, _, 0, .refl, rfl, List.mem_singleton_self _⟩
  obtain ⟨hmember, himport⟩ : passing.IsImport 0 memberUse (1, "*") ∧ passing.IsImport 0 importUse (1, "c") :=
    isImport_bothWays
  refine ⟨fetched_passedOn, tracingEnds_passing, hmember, himport, ?_,
    (import_of_not_provides hR tracingEnds_passing hw hprovides himport (by decide) {}).2 hout⟩
  rcases trace_whole hR tracingEnds_passing hw hmember with hmiss | ⟨id, k, members, htrace, hwhole⟩
  · exact rejects_bound_import {} hmember hmiss
  · refine (run_bound_member (a := ⟨"c", 4⟩) hR {} hmember htrace hwhole rfl).2 ?_
    rw [Option.eq_none_iff_forall_ne_some, ← not_exists, ← Table.mem_keys_iff, hwhole.keys,
      mem_exportNames hR hwhole.wired.fits.routes (by decide)]
    exact hprovides

end Graph

end Treeshake
