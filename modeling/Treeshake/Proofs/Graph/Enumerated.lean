import Treeshake.Proofs.Graph.Exports
import Treeshake.Proofs.Graph.Precedence
/-!
The exports that are listed against those that can be traced. Main statement: the list of a module's exports names
each once, and a default only if it is the module's own; a trace of any other name succeeds only if star exports
lead out of the build, and a trace of a name of the list fails only at what some module has for the name that leads
nowhere.
-/
set_option autoImplicit false

namespace Treeshake

theorem Routes.targets_of_lead {m : Routes} {name other : String} {t : Target}
    (h : m.lead? name = some (.target t other)) : ∃ s, m.targets.get? s = some t := by
  have hget : ∀ s other', (m.targets.get? s).map (Lead.target · other') = some (.target t other) →
      m.targets.get? s = some t := by
    intro s other' h
    obtain ⟨t', ht, heq⟩ := Option.map_eq_some_iff.mp h
    cases heq
    exact ht
  rw [lead?] at h
  split at h
  · exact ⟨_, hget _ _ h⟩
  · rw [binding?] at h
    split at h
    · cases h
    · exact ⟨_, hget _ _ h⟩
    · cases h
  · cases h

namespace Graph

open Relation (ReflTransGen)

variable {R : List Routes} {n : Nat} {g : Graph} {name : String} {i k fuel : Nat} {m : Routes}

theorem nodup_collectExports (g : Graph) (fuel i : Nat) (withDefault : Bool) (found : List Nat × List String)
    (h : found.2.Nodup) : (g.collectExports fuel i withDefault found).2.Nodup := by
  induction fuel generalizing i withDefault found with
  | zero => exact h
  | succ fuel ih =>
    obtain ⟨visited, names⟩ := found
    unfold collectExports
    split
    · exact h
    · split
      · exact h
      · refine List.foldlRecOn (motive := fun found : List Nat × List String => found.2.Nodup) _ _
          (nodup_foldl_addNew _ h) fun found hf t _ => ?_
        cases t with
        | inside k => exact ih k false found hf
        | outside e => exact hf

theorem nodup_exportNames (g : Graph) (i : Nat) : (g.exportNames i).Nodup :=
  nodup_collectExports g _ i true _ List.nodup_nil

/-- What a module has for a name that it exports leads nowhere: its tables do not lead on from there, or they lead
to a module that does not have the name, or to one that passes it on and where it leads nowhere, or to a module as a
whole that has such a name. -/
inductive Dangles (R : List Routes) : Nat → String → Prop
  | nowhere {i : Nat} {name : String} {m : Routes} (hm : R[i]? = some m) (hown : name ∈ m.own)
      (hlead : m.lead? name = none) : Dangles R i name
  | missing {i k : Nat} {name other : String} {m : Routes} (hm : R[i]? = some m)
      (hlead : m.lead? name = some (.target (.inside k) other)) (hstar : other ≠ "*") (hnot : ¬Provides R k other)
      (hout : ¬LeadsOut R k other) : Dangles R i name
  | passed {i k l : Nat} {name other : String} {m : Routes} (hm : R[i]? = some m)
      (hlead : m.lead? name = some (.target (.inside k) other)) (hstar : other ≠ "*")
      (hl : ReflTransGen (Delegates R other) k l) (h : Dangles R l other) : Dangles R i name
  | member {i k l : Nat} {name other : String} {m : Routes} (hm : R[i]? = some m)
      (hlead : m.lead? name = some (.target (.inside k) "*")) (hother : Provides R k other)
      (hl : ReflTransGen (Delegates R other) k l) (h : Dangles R l other) : Dangles R i name

/-- An export is not there, or some module that star exports lead to has something for it that leads nowhere. -/
def Lacks (R : List Routes) (i : Nat) (name : String) : Prop :=
  (¬Provides R i name ∧ ¬LeadsOut R i name) ∨ ∃ k, ReflTransGen (Delegates R name) i k ∧ Dangles R k name

def LacksWithin (R : List Routes) (n fuel : Nat) : Prop :=
  ∀ (h : Graph) (j : Nat) (other : String) (importer : Nat), Fits R n h →
    Misses (exportWithin fuel j other importer) h → Lacks R j other

theorem dangles_of_misses (hR : Ranged R n) (hg : Fits R n g) {lead : Lead} {f : Nat} (hm : R[k]? = some m)
    (hlead : m.lead? name = some lead) (hmiss : Misses (lead.within f k) g)
    (hlacks : ∀ f' < f, LacksWithin R n f') : Dangles R k name := by
  cases lead with
  | declaration id => exact absurd hmiss not_misses_pure
  | target t other =>
    cases f with
    | zero => exact absurd hmiss (not_misses_of_endless ((rising_follow t other k).zero g))
    | succ f =>
      cases t with
      | outside e =>
        rw [Lead.within, followWithin] at hmiss
        exact absurd hmiss (not_misses_externalDeclaration e other)
      | inside j =>
        obtain ⟨s, hs⟩ := Routes.targets_of_lead hlead
        have hj := hR.inside m (List.mem_of_getElem? hm) s j hs
        rw [Lead.within, followWithin] at hmiss
        by_cases hstar : other = "*"
        · subst hstar
          rw [if_pos (by decide)] at hmiss
          cases f with
          | zero => exact absurd hmiss (not_misses_of_endless ((rising_object j).zero g))
          | succ f =>
            obtain ⟨member, hmember, h, hh, hmiss⟩ := misses_objectWithin hR hg hj hmiss
            have hprovides := (mem_exportNames hR hg.routes hj member).mp hmember
            obtain ⟨hnot, -⟩ | ⟨l, hl, hd⟩ := hlacks f (by omega) h j member j hh hmiss
            · exact absurd hprovides hnot
            · exact .member hm hlead hprovides hl hd
        · rw [if_neg (by simpa using hstar)] at hmiss
          obtain ⟨hnot, hout⟩ | ⟨l, hl, hd⟩ := hlacks f (Nat.lt_succ_self f) g j other k hg hmiss
          · exact .missing hm hlead hstar hnot hout
          · exact .passed hm hlead hstar hl hd

/-- An export that is there is missed only at what some module has for it, which leads nowhere and where nothing
comes of following it. -/
theorem missed_export (hR : Ranged R n) (hg : Fits R n g) {importer : Nat} (hlacks : ∀ f < fuel, LacksWithin R n f)
    (hmiss : Misses (exportWithin fuel i name importer) g) :
    (¬Provides R i name ∧ ¬LeadsOut R i name) ∨ ∃ k m, ReflTransGen (Delegates R name) i k ∧ R[k]? = some m ∧
      Dangles R k name ∧ ∀ lead, m.lead? name = some lead → ∃ f < fuel, Misses (lead.within f k) g := by
  cases lookup g i name fuel importer with
  | endless hend => exact absurd hmiss (not_misses_of_endless hend)
  | outside hway he hlast hrun =>
    exact absurd ((Misses.congr hrun).mp hmiss) (not_misses_externalDeclaration _ name)
  | @entry k f m lead hk hm hlead hf hrun =>
    have hmiss := (Misses.congr hrun).mp hmiss
    rw [hg.routes] at hk hm
    refine .inr ⟨k, m, hk, hm, dangles_of_misses hR hg hm hlead hmiss fun f' hf' => hlacks f' (by omega), ?_⟩
    rintro lead' hlead'
    obtain rfl := Option.some.inj (hlead.symm.trans hlead')
    exact ⟨f, hf, hmiss⟩
  | missing hnone =>
    by_cases hprovides : Provides R i name
    · obtain ⟨k, m, hk, hm, hown⟩ := hprovides.exists_own
      have hnothing : m.lead? name = none := by
        rw [hg.routes] at hnone
        exact Option.eq_none_iff_forall_ne_some.mpr fun lead hlead => (hnone k hk).1 ⟨m, lead, hm, hlead⟩
      refine .inr ⟨k, m, hk, hm, .nowhere hm hown hnothing, fun lead hlead => ?_⟩
      cases hnothing.symm.trans hlead
    · rcases export_of_notMem hR hg hprovides fuel importer with hend | ⟨-, _, _, _, hrun, -⟩ | ⟨hout, -⟩
      · exact absurd hmiss (not_misses_of_endless hend)
      · exact absurd hmiss (not_misses_of_ok hrun)
      · exact .inl ⟨hprovides, hout⟩

theorem lacksWithin (hR : Ranged R n) (fuel : Nat) : LacksWithin R n fuel := by
  induction fuel using Nat.strong_induction_on with
  | _ fuel ih =>
    intro h j other importer hh hmiss
    exact (missed_export hR hh ih hmiss).imp_right fun ⟨k, _, hk, _, hd, _⟩ => ⟨k, hk, hd⟩

/-- The exports of a module are listed once each, a default only if it is the module's own. An export that can be
traced is listed, unless star exports lead out of the build; and a trace of an export that is listed, if it ends,
fails only where some module that star exports lead to has something for the name that leads nowhere and that
nothing comes of. -/
theorem listed_exports_traced (hR : Ranged R n) (hg : Fits R n g) (hi : i < R.length) (name : String)
    (importer : Nat) :
    (g.exportNames i).Nodup ∧
    ("default" ∈ g.exportNames i → ∃ m, R[i]? = some m ∧ "default" ∈ m.own) ∧
    (∀ id h, (traceExport (.inside i) name importer).run g = .ok (id, h) →
      name ∈ g.exportNames i ∨ LeadsOut R i name) ∧
    (name ∈ g.exportNames i → ¬Endless (traceExport (.inside i) name importer) g →
      (∀ id h, (traceExport (.inside i) name importer).run g ≠ .ok (id, h)) →
      ∃ k, ReflTransGen (Delegates R name) i k ∧ Dangles R k name ∧ ∀ id h, ¬Comes g k name id h) := by
  have hlisted := mem_exportNames hR hg.routes hi
  refine ⟨nodup_exportNames g i, fun hdefault => ?_, fun id h hrun => ?_, fun hname hends hfails => ?_⟩
  · obtain ⟨k, m, -, hm, hown, hk⟩ := (hlisted "default").mp hdefault
    obtain rfl := hk rfl
    exact ⟨m, hm, hown⟩
  · have hrun : (exportWithin g.traceBound i name importer).run g = .ok (id, h) := hrun
    rw [hlisted]
    by_cases hprovides : Provides R i name
    · exact .inl hprovides
    · rcases export_of_notMem hR hg hprovides g.traceBound importer with hend | ⟨hout, -⟩ | ⟨-, hmiss⟩
      · exact absurd hend (not_endless_of_ok hrun)
      · exact .inr hout
      · exact absurd hmiss (not_misses_of_ok hrun)
  · have hmiss : Misses (exportWithin g.traceBound i name importer) g := by
      rcases (runsWithin g.traceBound).export_ g i name importer with ⟨id, h, hrun, -⟩ | hmiss | hend
      · exact absurd hrun (hfails id h)
      · exact hmiss
      · exact absurd hend hends
    obtain ⟨hnot, -⟩ | ⟨k, m, hk, hm, hd, hcomes⟩ :=
      missed_export hR hg (fun f _ => lacksWithin hR f) hmiss
    · exact absurd ((hlisted name).mp hname) hnot
    · refine ⟨k, hk, hd, ?_⟩
      rintro id h ⟨m', lead, hm', hlead, hrun⟩
      obtain rfl := Option.some.inj (hm.symm.trans (hg.routes ▸ hm'))
      obtain ⟨f, hf, hmiss⟩ := hcomes lead hlead
      have hfollow := (run_follow lead k hf.le).resolve_left fun hend => not_misses_of_endless hend hmiss
      exact not_misses_of_ok (hfollow.symm.trans hrun) hmiss

def undeclared : List (Module × Table Target) := [passingOn "0" [("./1", .inside 1)], exporting "1" false]

theorem listed_exports_traced_undeclared : Fetched undeclared [ext] ∧
    (starred undeclared [ext]).exportNames 0 = ["x"] ∧
    Misses (traceExport (.inside 0) "x" 0) (starred undeclared [ext]) ∧
    ∃ k, ReflTransGen (Delegates (starred undeclared [ext]).routes "x") 0 k ∧
      Dangles (starred undeclared [ext]).routes k "x" := by
  have hf : Fetched undeclared [ext] := by
    refine fetched_stars fun e he => ?_
    simp only [undeclared, List.mem_cons, List.not_mem_nil, or_false] at he
    rcases he with rfl | rfl
    · exact .inr ⟨_, _, rfl, by decide⟩
    · exact .inl ⟨_, _, rfl⟩
  have hnames : (starred undeclared [ext]).exportNames 0 = ["x"] := by decide
  have hmiss : Misses (traceExport (.inside 0) "x" 0) (starred undeclared [ext]) :=
    ⟨"x", "0", "0", by cbv⟩
  obtain ⟨-, -, -, hlisted⟩ :=
    listed_exports_traced (i := 0) (ranged_starred hf) (wired_starred hf).fits (by decide) "x" 0
  obtain ⟨k, hk, hd, -⟩ := hlisted (by rw [hnames]; exact List.mem_singleton_self "x")
    (fun hend => not_misses_of_endless hend hmiss) fun id h hrun => not_misses_of_ok hrun hmiss
  exact ⟨hf, hnames, hmiss, k, hk, hd⟩

end Graph

end Treeshake
