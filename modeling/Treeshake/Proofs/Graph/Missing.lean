import Treeshake.Proofs.Graph.Fuel
import Treeshake.Proofs.Graph.Meaning
/-!
Missing exports. Main statement: an export that a trace misses in one graph is traced to nothing in any graph
with the same tables, however much has been traced there.
-/
set_option autoImplicit false

namespace Treeshake.Graph

variable {R : List Routes} {n : Nat} {α β γ δ : Type} {g h k : Graph}

theorem misses_bind {x : Build α} {f : α → Build β} : Misses (x >>= f) g ↔
    Misses x g ∨ ∃ a h, x.run g = .ok (a, h) ∧ Misses (f a) h := by
  constructor
  · rintro ⟨name, exporter, importer, hrun⟩
    rw [StateT.run_bind] at hrun
    cases hx : x.run g with
    | error e =>
      rw [hx] at hrun
      obtain rfl : e = .missingExport name exporter importer := Except.error.inj hrun
      exact .inl ⟨name, exporter, importer, hx⟩
    | ok p =>
      rw [hx] at hrun
      exact .inr ⟨p.1, p.2, rfl, name, exporter, importer, hrun⟩
  · rintro (hx | ⟨a, h, hx, name, exporter, importer, hf⟩)
    · exact hx.bind f
    · exact ⟨name, exporter, importer, (run_bind_of_ok hx).trans hf⟩

theorem not_misses_of_ok {x : Build α} {a : α} (hx : x.run g = .ok (a, h)) : ¬Misses x g := by
  rintro ⟨name, exporter, importer, hrun⟩
  cases hx.symm.trans hrun

theorem not_misses_of_endless {x : Build α} (hx : Endless x g) : ¬Misses x g := by
  obtain ⟨_, _, hx⟩ := hx
  rintro ⟨_, _, _, hx'⟩
  cases hx.symm.trans hx'

theorem not_misses_pure {a : α} : ¬Misses (pure a : Build α) g := not_misses_of_ok rfl

theorem Misses.congr {x y : Build α} (hrun : x.run g = y.run g) : Misses x g ↔ Misses y g := by
  rw [Misses, Misses, hrun]

/-- Where the first step misses an export, the second gives nothing in a graph that has all its members. -/
def Fails (R : List Routes) (n : Nat) (x : Build α) (y : Build β) : Prop :=
  ∀ g h, Fits R n g → Fits R n h → Complete [] h → Misses x g → ∀ b k, y.run h ≠ .ok (b, k)

theorem Fails.of_never {x : Build α} {y : Build β} (hx : ∀ g, ¬Misses x g) : Fails R n x y :=
  fun g _ _ _ _ hmiss => absurd hmiss (hx g)

theorem Fails.bind {x : Build α} {y : Build β} {f : α → Build γ} {f' : β → Build δ}
    {P : Graph → α → Graph → β → Prop} {S : Graph → α → Prop} {S' : Graph → β → Prop}
    (hx : Fails R n x y) (htx : Traces R n x S) (hty : Traces R n y S') (hxy : Agree R n x y P)
    (hf : ∀ g a h b, Fits R n g → Fits R n h → Complete [] h → P g a h b → Misses (f a) g →
      ∀ c k, (f' b).run h ≠ .ok (c, k)) : Fails R n (x >>= f) (y >>= f') := by
  intro g h hg hh hc hmiss c k hrun
  obtain ⟨b, l, hy, hfb⟩ := run_bind_ok.mp hrun
  rcases misses_bind.mp hmiss with hmiss | ⟨a, j, hxa, hmiss⟩
  · exact hx g h hg hh hc hmiss b l hy
  · obtain ⟨t, -⟩ := htx g a j hg hxa
    obtain ⟨t', -⟩ := hty h b l hh hy
    exact hf j a l b t.fits t'.fits (t'.complete [] hc) (hxy g h a b j l hg hh hxa hy) hmiss c k hfb

theorem Fails.map {x : Build α} {y : Build β} {f : α → γ} {f' : β → δ} (hx : Fails R n x y) :
    Fails R n (do return f (← x)) (do return f' (← y)) := by
  intro g h hg hh hc hmiss c k hrun
  obtain ⟨b, l, hy, -⟩ := run_bind_ok.mp hrun
  rcases misses_bind.mp hmiss with hmiss | ⟨a, j, -, hmiss⟩
  · exact hx g h hg hh hc hmiss b l hy
  · exact not_misses_pure hmiss

theorem Fails.congr {x x' : Build α} {y y' : Build β} (hf : Fails R n x y)
    (hx : ∀ g : Graph, g.routes = R → x'.run g = x.run g)
    (hy : ∀ g : Graph, g.routes = R → y'.run g = y.run g) : Fails R n x' y' :=
  fun g h hg hh hc hmiss b k hrun =>
    hf g h hg hh hc ((Misses.congr (hx g hg.routes)).mp hmiss) b k (hy h hh.routes ▸ hrun)

theorem misses_mapM {f : β → Build α} {l : List β} {S : β → Graph → α → Prop}
    (hf : ∀ b ∈ l, Traces R n (f b) (S b)) (hg : Fits R n g) (hmiss : Misses (l.mapM f) g) :
    ∃ b ∈ l, ∃ h, Fits R n h ∧ Misses (f b) h := by
  induction l generalizing g with
  | nil => exact absurd hmiss not_misses_pure
  | cons b l ih =>
    rw [List.mapM_cons] at hmiss
    rcases misses_bind.mp hmiss with hmiss | ⟨a, h, hrun, hmiss⟩
    · exact ⟨b, List.mem_cons_self, g, hg, hmiss⟩
    · have hfits := (hf b List.mem_cons_self g a h hg hrun).1.fits
      rcases misses_bind.mp hmiss with hmiss | ⟨as, k, -, hmiss⟩
      · obtain ⟨c, hc, hrest⟩ := ih (fun c hc => hf c (List.mem_cons_of_mem b hc)) hfits hmiss
        exact ⟨c, List.mem_cons_of_mem b hc, hrest⟩
      · exact absurd hmiss not_misses_pure

theorem not_misses_externalDeclaration (external : Nat) (name : String) :
    ¬Misses (externalDeclaration external name) g := by
  have hrun := externalDeclaration_eq g external name
  split at hrun
  · exact not_misses_of_ok hrun
  · exact not_misses_of_ok hrun

structure FailsWithin (R : List Routes) (n fuel fuel' : Nat) : Prop where
  trace : ∀ module name, Fails R n (traceWithin fuel module name) (traceWithin fuel' module name)
  follow : ∀ target name importer importer',
    Fails R n (followWithin fuel target name importer) (followWithin fuel' target name importer')
  export_ : ∀ module name importer importer',
    Fails R n (exportWithin fuel module name importer) (exportWithin fuel' module name importer')
  find : ∀ module name visited,
    Fails R n (findExportWithin fuel module name visited) (findExportWithin fuel' module name visited)
  object : ∀ module, Fails R n (objectWithin fuel module) (objectWithin fuel' module)

section
variable {fuel fuel' : Nat}

theorem fails_traceWithin (h : FailsWithin R n fuel fuel') (module : Nat) (name : String) :
    Fails R n (traceWithin (fuel + 1) module name) (traceWithin (fuel' + 1) module name) := by
  refine Fails.congr ?_ (fun g hg => hg ▸ traceWithin_eq g fuel module name)
    fun g hg => hg ▸ traceWithin_eq g fuel' module name
  split
  · exact .of_never fun _ => not_misses_pure
  · split
    · exact .of_never fun _ => not_misses_pure
    · exact .of_never fun _ => not_misses_pure
    · split
      · exact .of_never fun _ => not_misses_pure
      · exact .map (h.follow _ _ module module)

theorem fails_followWithin (h : FailsWithin R n fuel fuel') (target : Target) (name : String)
    (importer importer' : Nat) : Fails R n (followWithin (fuel + 1) target name importer)
      (followWithin (fuel' + 1) target name importer') := by
  cases target with
  | outside e =>
    rw [followWithin]
    exact .of_never fun _ => not_misses_externalDeclaration e name
  | inside k =>
    rw [followWithin, followWithin]
    split
    · exact h.object k
    · exact h.export_ k name importer importer'

theorem fails_exportWithin (hR : Ranged R n) (h : FailsWithin R n fuel fuel') (module : Nat)
    (name : String) (importer importer' : Nat) : Fails R n (exportWithin (fuel + 1) module name importer)
      (exportWithin (fuel' + 1) module name importer') := by
  rw [exportWithin, exportWithin]
  refine Fails.bind (h.find module name []) ((tracesWithin hR fuel).find module name [])
    ((tracesWithin hR fuel').find module name []) ((agreeWithin hR fuel fuel').find module name []) ?_
  intro g r k r' _ _ _ hrr hmiss c l hrun
  rcases hrr.cases with ⟨id, id', visited, rfl, rfl, -⟩ | ⟨visited, rfl, rfl⟩
  · exact not_misses_pure hmiss
  · cases hrun

theorem fails_seek {search search' : Nat → List Nat → Build (Option Nat × List Nat)}
    {S S' : Nat → Graph → Option Nat × List Nat → Prop} {stars : List Target}
    (hx : ∀ i visited, Traces R n (search i visited) (S i))
    (hy : ∀ i visited, Traces R n (search' i visited) (S' i))
    (ha : ∀ i visited, Agree R n (search i visited) (search' i visited) AlikeResult)
    (hs : ∀ i visited, Fails R n (search i visited) (search' i visited)) (visited : List Nat) :
    Fails R n (seek search stars visited) (seek search' stars visited) := by
  induction stars generalizing visited with
  | nil => exact .of_never fun _ => not_misses_pure
  | cons t stars ih =>
    cases t with
    | outside e => exact ih visited
    | inside i =>
      refine Fails.bind (hs i visited) (hx i visited) (hy i visited) (ha i visited) ?_
      intro g r k r' hg hk hc hrr hmiss c l
      rcases hrr.cases with ⟨id, id', visited, rfl, rfl, -⟩ | ⟨visited, rfl, rfl⟩
      · exact absurd hmiss not_misses_pure
      · exact ih visited g k hg hk hc hmiss c l

theorem fails_findExportWithin (hR : Ranged R n) (h : FailsWithin R n fuel fuel') (module : Nat)
    (name : String) (visited : List Nat) : Fails R n (findExportWithin (fuel + 1) module name visited)
      (findExportWithin (fuel' + 1) module name visited) := by
  refine Fails.congr ?_ (fun g hg => hg ▸ findExportWithin_eq g fuel module name visited)
    fun g hg => hg ▸ findExportWithin_eq g fuel' module name visited
  split
  · exact .of_never fun _ => not_misses_pure
  · split
    · exact .of_never fun _ => not_misses_pure
    · next m hm =>
      split
      · split
        · exact .of_never fun _ => not_misses_pure
        · exact .map (h.follow _ _ module module)
      · exact .map (h.trace module _)
      · split
        · exact .of_never fun _ => not_misses_pure
        · refine Fails.bind (fails_seek (fun i v => (tracesWithin hR fuel).find i name v)
              (fun i v => (tracesWithin hR fuel').find i name v)
              (fun i v => (agreeWithin hR fuel fuel').find i name v) (fun i v => h.find i name v) _)
            (traces_stars hR (tracesWithin hR fuel) hm name (module :: visited))
            (traces_stars hR (tracesWithin hR fuel') hm name (module :: visited))
            (agree_seek (fun i v => (tracesWithin hR fuel).find i name v)
              (fun i v => (tracesWithin hR fuel').find i name v)
              (fun i v => (agreeWithin hR fuel fuel').find i name v) _) ?_
          intro g r k r' _ _ _ hrr hmiss
          rcases hrr.cases with ⟨id, id', visited, rfl, rfl, -⟩ | ⟨visited, rfl, rfl⟩
          · exact absurd hmiss not_misses_pure
          · dsimp only at hmiss
            split at hmiss
            · rcases misses_bind.mp hmiss with hmiss | ⟨a, j, -, hmiss⟩
              · exact absurd hmiss (not_misses_externalDeclaration _ name)
              · exact absurd hmiss not_misses_pure
            · exact absurd hmiss not_misses_pure

/-- A module that cannot be traced as a whole has an export that is missing, whatever else was traced before. -/
theorem misses_objectWithin (hR : Ranged R n) (hg : Fits R n g) {module : Nat} (hm : module < R.length)
    (hmiss : Misses (objectWithin (fuel + 1) module) g) : ∃ name ∈ g.exportNames module, ∃ h, Fits R n h ∧
      Misses (exportWithin fuel module name module) h := by
  have hbound : module < g.modules.length := by rwa [← length_routes, hg.routes]
  have hget := List.getElem?_eq_getElem hbound
  cases ho : g.modules[module].object with
  | some id =>
    have hobject : g.objectOf module = some id := by simp [objectOf, hget, ho]
    exact absurd hmiss (not_misses_of_ok (objectWithin_known hobject fuel))
  | none =>
    have hnone : g.objectOf module = none := by simp [objectOf, hget, ho]
    have hbase : g.modules[module].baseName ∈ g.baseNames := List.mem_map_of_mem (List.mem_of_getElem? hget)
    have hstart := extends_startObject hbound hnone hbase
    have hfits : Fits R n (g.startObject module g.modules[module].baseName) :=
      ⟨hstart.later.routes.trans hg.routes, hstart.later.externals.trans hg.externals,
        sound_startObject hg.sound hbound hnone hbase⟩
    have htraces : ∀ name ∈ g.exportNames module,
        Traces R n (do return (name, ← exportWithin fuel module name module)) fun _ _ => True :=
      fun name _ => ((tracesWithin hR fuel).export_ module name module).bind
        fun id => Traces.pure fun _ _ _ _ _ => trivial
    rw [Misses, objectWithin_new hget ho] at hmiss
    rcases misses_bind.mp hmiss with hmiss | ⟨_, _, -, _, _, _, hlast⟩
    · obtain ⟨name, hname, h, hh, hmember⟩ := misses_mapM htraces hfits hmiss
      rcases misses_bind.mp hmember with hmember | ⟨_, _, -, hpure⟩
      · exact ⟨name, hname, h, hh, hmember⟩
      · exact absurd hpure not_misses_pure
    · cases hlast

theorem fails_objectWithin (hR : Ranged R n) (hexport : ∀ fuel' module name importer importer',
      Fails R n (exportWithin fuel module name importer) (exportWithin fuel' module name importer'))
    (module : Nat) : Fails R n (objectWithin (fuel + 1) module) (objectWithin fuel' module) := by
  intro g h hg hh hc hmiss id k hrun
  obtain ⟨t, hid⟩ := (tracesWithin hR fuel').object module h id k hh hrun
  obtain ⟨d, hd, -⟩ := Option.map_eq_some_iff.mp hid
  obtain ⟨members, v, hkind⟩ := object_of_entity hd hid
  obtain ⟨hnames, hsettles⟩ := t.complete [] hc id d module members v hd hkind List.not_mem_nil
  have hm : module < R.length := by
    rw [← hh.routes, length_routes, ← Nat.not_le, ← List.getElem?_eq_none_iff]
    exact fun hnone => objectWithin_missing hnone _ _ hrun
  obtain ⟨name, hname, l, hl, hmember⟩ := misses_objectWithin hR hg hm hmiss
  rw [exportNames_congr (hg.routes.trans t.fits.routes.symm), ← hnames] at hname
  obtain ⟨⟨name, id'⟩, hmem, rfl⟩ := List.mem_map.mp hname
  obtain ⟨fuel'', hrun'⟩ := hsettles name id' hmem
  exact hexport fuel'' module name module module l k hl t.fits (t.complete [] hc) hmember id' k (hrun' k (.refl k))

theorem failsWithin (hR : Ranged R n) (fuel fuel' : Nat) : FailsWithin R n fuel fuel' := by
  induction fuel generalizing fuel' with
  | zero =>
    obtain ⟨htrace, hfollow, hexport, hfind, hobject⟩ := endless_zero
    exact ⟨fun module name => .of_never fun g => not_misses_of_endless (htrace g module name),
      fun target name importer _ => .of_never fun g => not_misses_of_endless (hfollow g target name importer),
      fun module name importer _ => .of_never fun g => not_misses_of_endless (hexport g module name importer),
      fun module name visited => .of_never fun g => not_misses_of_endless (hfind g module name visited),
      fun module => .of_never fun g => not_misses_of_endless (hobject g module)⟩
  | succ fuel ih =>
    have hobject : ∀ module, Fails R n (objectWithin (fuel + 1) module) (objectWithin fuel' module) :=
      fails_objectWithin hR fun fuel' => (ih fuel').export_
    cases fuel' with
    | zero =>
      have hnothing : ∀ {β γ : Type} {x : Build β} {y : Build γ}, (∀ g, Endless y g) → Fails R n x y :=
        fun hy _ h _ _ _ _ b k hrun => not_endless_of_ok hrun (hy h)
      obtain ⟨htrace, hfollow, hexport, hfind, -⟩ := endless_zero
      exact ⟨fun module name => hnothing (htrace · module name),
        fun target name _ importer => hnothing (hfollow · target name importer),
        fun module name _ importer => hnothing (hexport · module name importer),
        fun module name visited => hnothing (hfind · module name visited), hobject⟩
    | succ fuel' =>
      exact ⟨fails_traceWithin (ih fuel'), fails_followWithin (ih fuel'), fails_exportWithin hR (ih fuel'),
        fails_findExportWithin hR (ih fuel'), hobject⟩

end

end Treeshake.Graph
