import Treeshake.Proofs.Graph.Scan
/-!
Marking as scanning. Main statement: where marking succeeds it is a scan that leaves nothing to scan, within
as many passes as there are statements and one more. Marking again marks nothing.
-/
set_option autoImplicit false

namespace Treeshake.Graph

variable {R : List Routes} {n : Nat} {g₀ g h : Graph}

theorem scans_use (g : Graph) (p : List Nat) : Scans (g, p) (g.use p, []) := by
  induction g, p using use.induct with
  | case1 g =>
    rw [use]
    exact .refl
  | case2 g id rest hd ih =>
    rw [use, hd]
    have hdrop : Scan (g, [] ++ id :: rest) (g, [] ++ rest) := .drop fun d hd' => by
      rw [declaration?, hd'] at hd
      cases hd
    exact .head hdrop ih
  | case3 g id rest d hd hskip ih =>
    rw [use, hd]
    simp only [hskip]
    have hdrop : Scan (g, [] ++ id :: rest) (g, [] ++ rest) := .drop fun d' hd' => by
      obtain rfl := Option.some.inj (hd.symm.trans hd')
      simpa using hskip
    exact .head hdrop ih
  | case4 g id rest d hd hskip next ih =>
    rw [use, hd]
    simp only [hskip]
    have huse : Scan (g, [] ++ id :: rest) (next.1, needs d ++ next.2 ++ ([] ++ rest)) := by
      refine .use hd ?_ ?_ <;> simp_all
    exact .head huse ih

theorem markExport_run {name : String} {u : Unit} : (markExport name).run g = .ok (u, h) ↔
    ∃ id k, (traceExport (.inside entry) name entry).run g = .ok (id, k) ∧
      h = (k.flagExport name id).use [id] := by
  rw [markExport, run_bind_ok]
  refine exists_congr fun id => exists_congr fun k => and_congr_right fun _ => ?_
  exact ⟨fun hrun => (Prod.mk.inj (Except.ok.inj hrun)).2.symm, fun heq => by rw [heq]; rfl⟩

def Exported (g : Graph) (name : String) : Prop :=
  ∃ id, (∀ h, Later g h → (traceExport (.inside entry) name entry).run h = .ok (id, h)) ∧
    (g.isInternal id = true → g.isUsed id = true)

section
variable (hR : Ranged R n) (hw : Wired R n g₀)
include hR hw

theorem Scans.waiting {a b : Graph × List Nat} (hG : Grown g₀ a.1)
    (hknown : ∀ k ∈ a.2, ∃ e, a.1.entity? k = some e) (h : Scans a b) :
    ∀ k ∈ a.2, k ∈ b.2 ∨ b.1.isUsed k = true ∨ b.1.isInternal k = false := by
  induction h with
  | refl => exact fun k hk => .inl hk
  | tail hsteps hstep ih =>
    intro k hk
    have hG' := Scans.grown hR hw hG hsteps
    have ha := hstep.advances hR hw (hG.trans hG')
    rcases ih k hk with hwaits | hused | hnot
    · exact ha.waiting k hwaits
    · exact .inr (.inl (ha.grown.isUsed hused))
    · obtain ⟨e, he⟩ := hknown k hk
      refine .inr (.inr (Bool.eq_false_iff.mpr fun hinternal => ?_))
      rw [ha.grown.later.isInternal_of_known (hG'.later.entity k e he) hinternal] at hnot
      cases hnot

omit hw in
theorem Exported.grown (hg : Fits R n g) {name : String} (he : Exported g name) (hG : Grown g h) :
    Exported h name := by
  obtain ⟨id, hrun, hused⟩ := he
  refine ⟨id, fun k hk => hrun k (hG.later.trans hk), fun hinternal => hG.isUsed (hused ?_)⟩
  obtain ⟨-, e, he, -⟩ := traces_traceExport hR entry name entry g id g hg (hrun g (.refl g))
  exact hG.later.isInternal_of_known he hinternal

theorem scans_markExport (hG : Grown g₀ g) {name : String} {u : Unit}
    (hname : name ∈ g.exportNames entry) (hrun : (markExport name).run g = .ok (u, h)) :
    Scans (g, []) (h, []) ∧ Exported h name := by
  obtain ⟨id, k, htrace, rfl⟩ := markExport_run.mp hrun
  obtain ⟨t, e, he, -⟩ := traces_traceExport hR entry name entry g id k (hG.fits hw.fits) htrace
  have hflag := grown_flagExport k name id
  have huse := scans_use (k.flagExport name id) [id]
  have hG' := (hG.trans t.grows).trans hflag
  have hknown : ∀ j ∈ [id], ∃ e, (k.flagExport name id).entity? j = some e := by
    intro j hj
    obtain rfl := List.mem_singleton.mp hj
    exact ⟨e, hflag.later.entity j e he⟩
  refine ⟨.head (.export_ hname htrace) huse, id, fun l hl => t.again l ?_, fun hinternal => ?_⟩
  · exact hflag.later.trans ((Scans.grown hR hw hG' huse).later.trans hl)
  · rcases huse.waiting hR hw hG' hknown id List.mem_cons_self with h | hused | hnot
    · cases h
    · exact hused
    · rw [hnot] at hinternal
      cases hinternal

theorem scans_markExports (hG : Grown g₀ g) {names : List String} {u : Unit}
    (hnames : ∀ name ∈ names, name ∈ g.exportNames entry)
    (hrun : (names.forM markExport).run g = .ok (u, h)) :
    Scans (g, []) (h, []) ∧ ∀ name ∈ names, Exported h name := by
  induction names generalizing g with
  | nil =>
    obtain ⟨-, rfl⟩ := run_pure_ok.mp hrun
    exact ⟨.refl, fun name hname => by cases hname⟩
  | cons name names ih =>
    obtain ⟨_, k, hfirst, hrest⟩ := run_bind_ok.mp hrun
    obtain ⟨hscans, hexported⟩ := scans_markExport hR hw hG (hnames name List.mem_cons_self) hfirst
    have hGk := Scans.grown hR hw hG hscans
    have hnames' : ∀ name ∈ names, name ∈ k.exportNames entry := fun name hname => by
      rw [exportNames_congr hGk.later.routes]
      exact hnames name (List.mem_cons_of_mem _ hname)
    obtain ⟨hscans', hexported'⟩ := ih (hG.trans hGk) hnames' hrest
    refine ⟨hscans.trans hscans', fun name' hname' => ?_⟩
    rcases List.mem_cons.mp hname' with rfl | hname'
    · exact hexported.grown hR ((hG.trans hGk).fits hw.fits) (Scans.grown hR hw (hG.trans hGk) hscans')
    · exact hexported' name' hname'

omit hR hw in
theorem markIfEffective_run {r : StatementRef} {b : Bool} :
    (markIfEffective r).run g = .ok (b, h) ↔ g.isIncluded r = true ∧ b = false ∧ h = g ∨
      g.isIncluded r = false ∧ ∃ k, (hasSideEffects r).run g = .ok (b, k) ∧
        h = if b then k.markStatement r else k := by
  rw [markIfEffective, run_get_bind]
  cases hi : g.isIncluded r with
  | true =>
    have hpure : (pure false : Build Bool).run g = .ok (b, h) ↔ b = false ∧ h = g :=
      run_pure_ok.trans (and_congr eq_comm eq_comm)
    simpa using hpure
  | false =>
    simp only [Bool.false_eq_true, if_false, false_and, true_and, false_or]
    rw [run_bind_ok]
    constructor
    · rintro ⟨effective, k, heffects, hrest⟩
      cases effective with
      | true =>
        obtain ⟨rfl, rfl⟩ := Prod.mk.inj (Except.ok.inj hrest)
        exact ⟨k, heffects, rfl⟩
      | false =>
        obtain ⟨rfl, rfl⟩ := Prod.mk.inj (Except.ok.inj hrest)
        exact ⟨k, heffects, rfl⟩
    · rintro ⟨k, heffects, rfl⟩
      refine ⟨b, k, heffects, ?_⟩
      cases b <;> rfl

/-- A statement that is included or has no effects. -/
def Inert (g : Graph) (r : StatementRef) : Prop :=
  g.isIncluded r = true ∨ (hasSideEffects r).run g = .ok (false, g)

omit hw in
theorem Inert.grown (hg : Fits R n g) {r : StatementRef} (hi : Inert g r) (hG : Grown g h)
    (hsame : ∀ r, h.isIncluded r = g.isIncluded r) : Inert h r := by
  rcases hi with hi | hrun
  · exact .inl (hG.included r hi)
  · exact .inr (hasSideEffects_later hR hg hrun hG (.inr hsame))

/-- What looking at statements does: if it marks none, nothing more is included, and none has effects. -/
structure Looked (rs : List StatementRef) (marked : Bool) (g h : Graph) : Prop where
  scans : Scans (g, []) (h, [])
  progress : marked = true → ∃ r s, g.statement? r = some s ∧ g.isIncluded r = false ∧
    h.isIncluded r = true
  same : marked = false → ∀ r, h.isIncluded r = g.isIncluded r
  inert : marked = false → ∀ r ∈ rs, Inert h r

theorem looked_markIfEffective (hG : Grown g₀ g) {r : StatementRef} {b : Bool}
    (hrun : (markIfEffective r).run g = .ok (b, h)) : Looked [r] b g h := by
  have hg := hG.fits hw.fits
  rcases markIfEffective_run.mp hrun with ⟨hi, rfl, rfl⟩ | ⟨hi, k, heffects, rfl⟩
  · refine ⟨.refl, fun h => (by cases h), fun _ _ => rfl, fun _ r' hr' => .inl ?_⟩
    rwa [List.mem_singleton.mp hr']
  · have t := hasSideEffects_explored hR hg heffects
    cases b with
    | true =>
      have huse := scans_use (k.keep r).1 (k.keep r).2
      have heffect : Scan (g, []) ((k.keep r).1, (k.keep r).2 ++ []) := .effect hi heffects
      rw [List.append_nil] at heffect
      have hG' := hG.trans (heffect.advances hR hw hG).grown
      refine ⟨.head heffect huse, fun _ => ?_, fun h => (by cases h), fun h => by cases h⟩
      cases hs : g.statement? r with
      | none =>
        rw [hasSideEffects_none hs] at heffects
        cases heffects
      | some s =>
        refine ⟨r, s, hs, hi, (Scans.grown hR hw hG' huse).included r ?_⟩
        exact isIncluded_keepOf (s := s) (by rw [t.grown.statement?, hs])
    | false =>
      refine ⟨.single (.idle hi heffects), fun h => (by cases h), fun _ => t.isIncluded, fun _ r' hr' => .inr ?_⟩
      rw [List.mem_singleton.mp hr']
      exact hasSideEffects_later hR hg heffects (.refl k) (.inr fun _ => rfl)

theorem looked_foldlM (hG : Grown g₀ g) {rs : List StatementRef} {marked b : Bool}
    (hrun : (rs.foldlM (fun marked r => do return (← markIfEffective r) || marked) marked : Build Bool).run g =
      .ok (b, h)) :
    ∃ b', b = (b' || marked) ∧ Looked rs b' g h := by
  induction rs generalizing g marked with
  | nil =>
    obtain ⟨rfl, rfl⟩ := run_pure_ok.mp hrun
    exact ⟨false, rfl, .refl, fun h => (by cases h), fun _ _ => rfl, fun _ r hr => by cases hr⟩
  | cons r rs ih =>
    rw [List.foldlM_cons, run_bind_ok] at hrun
    obtain ⟨marked', k, hfirst, hrest⟩ := hrun
    obtain ⟨b₁, l, hlook, hpure⟩ := run_bind_ok.mp hfirst
    obtain ⟨rfl, rfl⟩ := run_pure_ok.mp hpure
    have h₁ := looked_markIfEffective hR hw hG hlook
    have hGl := Scans.grown hR hw hG h₁.scans
    obtain ⟨b₂, rfl, h₂⟩ := ih (hG.trans hGl) hrest
    have hlh := Scans.grown hR hw (hG.trans hGl) h₂.scans
    refine ⟨b₂ || b₁, (Bool.or_assoc ..).symm, h₁.scans.trans h₂.scans, fun hb => ?_, fun hb r' => ?_,
      fun hb r' hr' => ?_⟩
    · rcases Bool.or_eq_true_iff.mp hb with hb | hb
      · obtain ⟨r', s', hs', hbefore, hafter⟩ := h₂.progress hb
        obtain ⟨s, hs, -⟩ := hGl.statement? hs'
        refine ⟨r', s, hs, Bool.eq_false_iff.mpr fun h => ?_, hafter⟩
        rw [hGl.included r' h] at hbefore
        cases hbefore
      · obtain ⟨r', s, hs, hbefore, hafter⟩ := h₁.progress hb
        exact ⟨r', s, hs, hbefore, hlh.included r' hafter⟩
    · obtain ⟨hb₂, hb₁⟩ := Bool.or_eq_false_iff.mp hb
      rw [h₂.same hb₂, h₁.same hb₁]
    · obtain ⟨hb₂, hb₁⟩ := Bool.or_eq_false_iff.mp hb
      rcases List.mem_cons.mp hr' with rfl | hr'
      · have hinert := h₁.inert hb₁ r' List.mem_cons_self
        exact hinert.grown hR ((hG.trans hGl).fits hw.fits) hlh (h₂.same hb₂)
      · exact h₂.inert hb₂ r' hr'

omit hR hw in
theorem mem_allStatements {r : StatementRef} :
    r ∈ g.allStatements ↔ ∃ s, g.statement? r = some s := by
  rw [allStatements, List.mem_flatten]
  constructor
  · rintro ⟨l, hl, hr⟩
    obtain ⟨⟨m, i⟩, hmem, rfl⟩ := List.mem_map.mp hl
    obtain ⟨j, hj, rfl⟩ := List.mem_map.mp hr
    have hm := List.mem_zipIdx_iff_getElem?.mp hmem
    refine ⟨m.statements.get ⟨j, List.mem_range.mp hj⟩, ?_⟩
    rw [statement?, hm]
    exact List.getElem?_eq_getElem _
  · rintro ⟨s, hs⟩
    obtain ⟨m, hm, hs⟩ := Option.bind_eq_some_iff.mp hs
    refine ⟨_, List.mem_map.mpr ⟨(m, r.module), List.mem_zipIdx_iff_getElem?.mpr hm, rfl⟩, ?_⟩
    exact List.mem_map.mpr ⟨r.index, List.mem_range.mpr (List.getElem?_eq_some_iff.mp hs).1, rfl⟩

omit hR hw in
theorem allStatements_congr (ho : h.outline = g.outline) : h.allStatements = g.allStatements := by
  have houtline : ∀ k : Graph, k.allStatements =
      (k.outline.zipIdx.map fun p => (List.range p.1.statements.length).map fun j => ⟨p.2, j⟩).flatten := by
    intro k
    rw [allStatements, outline, List.zipIdx_map, List.map_map]
    simp [Function.comp_def, LinkedModule.unasked, LinkedModule.unmarked]
  rw [houtline, houtline, ho]

def left (g : Graph) : Nat := g.allStatements.countP fun r => !g.isIncluded r

omit hR hw in
theorem left_lt (hG : Grown g h) {r : StatementRef} {s : Statement} (hs : g.statement? r = some s)
    (hbefore : g.isIncluded r = false) (hafter : h.isIncluded r = true) : h.left < g.left := by
  rw [left, left, allStatements_congr hG.outline]
  refine countP_lt (fun k hk => ?_) (mem_allStatements.mpr ⟨s, hs⟩) (by simp [hafter]) (by simp [hbefore])
  cases hi : g.isIncluded k with
  | false => rfl
  | true =>
    rw [hG.included k hi] at hk
    cases hk

/-- Passes end before their number runs out, and leave no statement with effects out. -/
theorem markPasses_settles {fuel passes total : Nat} (hG : Grown g₀ g) (hfuel : g.left < fuel)
    (hrun : (markPasses fuel passes).run g = .ok (total, h)) :
    Scans (g, []) (h, []) ∧ ∀ r s, h.statement? r = some s → Inert h r := by
  induction fuel generalizing g passes with
  | zero => omega
  | succ fuel ih =>
    rw [markPasses, run_bind_ok] at hrun
    obtain ⟨marked, k, hpass, hrest⟩ := hrun
    rw [markPass, run_get_bind] at hpass
    obtain ⟨b, hb, hl⟩ := looked_foldlM hR hw hG hpass
    rw [Bool.or_false] at hb
    subst hb
    have hk : Grown g k := Scans.grown hR hw hG hl.scans
    cases marked with
    | true =>
      obtain ⟨r, s, hs, hbefore, hafter⟩ := hl.progress rfl
      have hlt : k.left < g.left := left_lt hk hs hbefore hafter
      obtain ⟨hscans, hinert⟩ := ih (hG.trans hk) (by omega) hrest
      exact ⟨hl.scans.trans hscans, hinert⟩
    | false =>
      obtain ⟨-, rfl⟩ := Prod.mk.inj (Except.ok.inj hrest)
      refine ⟨hl.scans, fun r s hs => hl.inert rfl r ?_⟩
      rw [← allStatements_congr hk.outline]
      exact mem_allStatements.mpr ⟨s, hs⟩

theorem mark_settles {passes : Nat} (hrun : mark.run g₀ = .ok (passes, h)) :
    Scans (g₀, []) (h, []) ∧ Settled h := by
  rw [mark, run_get_bind, run_bind_ok] at hrun
  obtain ⟨_, k, hexports, hrest⟩ := hrun
  rw [run_get_bind] at hrest
  have hnames : ∀ name ∈ g₀.exportNames entry, name ∈ g₀.exportNames entry := fun _ h => h
  obtain ⟨hscans, hexported⟩ := scans_markExports hR hw (.refl g₀) hnames hexports
  have hG := Scans.grown hR hw (.refl g₀) hscans
  have hfuel : k.left < k.allStatements.length + 1 := Nat.lt_succ_of_le List.countP_le_length
  obtain ⟨hscans', hinert⟩ := markPasses_settles hR hw hG hfuel hrest
  have hG' := Scans.grown hR hw hG hscans'
  refine ⟨hscans.trans hscans', fun name hname => ?_, fun r s hs hi => ?_⟩
  · rw [exportNames_congr (hG.trans hG').later.routes] at hname
    obtain ⟨id, hid, hused⟩ := (hexported name hname).grown hR (hG.fits hw.fits) hG'
    exact ⟨id, hid h (.refl h), hused⟩
  · rcases hinert r s hs with hincluded | hrun
    · rw [isIncluded, hs, Option.any_some, hi] at hincluded
      cases hincluded
    · exact hrun

end

theorem included_congr (ho : h.outline = g.outline) (hsame : ∀ r, h.isIncluded r = g.isIncluded r) :
    h.included = g.included := by
  have hincluded : ∀ k : Graph, k.included =
      k.outline.mapIdx fun i m => (List.range m.statements.length).map fun j => k.isIncluded ⟨i, j⟩ := by
    intro k
    refine List.ext_getElem? fun i => ?_
    rw [included, outline, List.getElem?_map, List.getElem?_mapIdx, List.getElem?_map]
    cases hm : k.modules[i]? with
    | none => rfl
    | some m =>
      refine congrArg some (List.ext_getElem? fun j => ?_)
      have hlength : m.unasked.unmarked.statements.length = m.statements.length := List.length_map _
      rw [List.getElem?_map, List.getElem?_map, hlength]
      cases hs : m.statements[j]? with
      | none =>
        have hj := List.getElem?_eq_none_iff.mp hs
        rw [List.getElem?_eq_none (by simpa using hj)]
        rfl
      | some s =>
        rw [List.getElem?_range (List.getElem?_eq_some_iff.mp hs).1]
        simp [isIncluded, statement?, hm, hs]
  rw [hincluded, hincluded, ho, funext hsame]

theorem use_skip {id : Nat} (hid : ∀ d, g.declarations[id]? = some d → d.used = true ∨ d.isExternal = true) :
    g.use [id] = g := by
  rw [use]
  split
  · rw [use]
  · next d hd =>
    have hskip : (d.used || d.isExternal) = true := Bool.or_eq_true_iff.mpr (hid d hd)
    simp only [hskip, dite_true]
    rw [use]

section
variable (hR : Ranged R n) (hg : Fits R n g)
include hR hg

theorem Settled.exported (hs : Settled g) {name : String} (hname : name ∈ g.exportNames entry) :
    Exported g name := by
  obtain ⟨id, hrun, hused⟩ := hs.exports name hname
  obtain ⟨t, -⟩ := traces_traceExport hR entry name entry g id g hg hrun
  exact ⟨id, t.again, hused⟩

theorem markExport_again {k : Graph} {name : String} (he : Exported g name) (hG : Grown g k) :
    ∃ l, (markExport name).run k = .ok ((), l) ∧ Grown k l ∧ ∀ r, l.isIncluded r = k.isIncluded r := by
  obtain ⟨id, hrun, hused⟩ := he
  obtain ⟨-, e, he, -⟩ := traces_traceExport hR entry name entry g id g hg (hrun g (.refl g))
  have hG' := hG.trans (grown_flagExport k name id)
  refine ⟨k.flagExport name id, markExport_run.mpr ⟨id, k, hrun k hG.later, ?_⟩,
    grown_flagExport k name id, fun r => ?_⟩
  · refine (use_skip fun d hd => ?_).symm
    cases hx : d.isExternal with
    | true => exact .inr rfl
    | false =>
      have hinternal : (k.flagExport name id).isInternal id = true := by rw [isInternal_eq, hd]; simp [hx]
      have hu := hG'.isUsed (hused (hG'.later.isInternal_of_known he hinternal))
      obtain ⟨d', hd', hu'⟩ := isUsed_iff.mp hu
      obtain rfl := Option.some.inj (hd.symm.trans hd')
      exact .inl hu'
  · rw [isIncluded, statement?_flagExport, isIncluded]

theorem markExports_again {k : Graph} {names : List String} (he : ∀ name ∈ names, Exported g name)
    (hG : Grown g k) : ∃ l, (names.forM markExport).run k = .ok ((), l) ∧ Grown k l ∧
      ∀ r, l.isIncluded r = k.isIncluded r := by
  induction names generalizing k with
  | nil => exact ⟨k, rfl, .refl k, fun _ => rfl⟩
  | cons name names ih =>
    obtain ⟨l, hfirst, hkl, hsame⟩ := markExport_again hR hg (he name List.mem_cons_self) hG
    obtain ⟨m, hrest, hlm, hsame'⟩ := ih (fun name h => he name (List.mem_cons_of_mem _ h)) (hG.trans hkl)
    exact ⟨m, run_bind_ok.mpr ⟨_, l, hfirst, hrest⟩, hkl.trans hlm, fun r => (hsame' r).trans (hsame r)⟩

omit hR hg in
theorem markPass_again (hi : ∀ r ∈ g.allStatements, Inert g r) : markPass.run g = .ok (false, g) := by
  rw [markPass, run_get_bind]
  generalize g.allStatements = rs at hi
  induction rs with
  | nil => rfl
  | cons r rs ih =>
    have hfirst : (markIfEffective r).run g = .ok (false, g) := by
      rw [markIfEffective_run]
      cases hr : g.isIncluded r with
      | true => exact .inl ⟨rfl, rfl, rfl⟩
      | false =>
        refine .inr ⟨rfl, g, ?_, rfl⟩
        rcases hi r List.mem_cons_self with h | h
        · rw [h] at hr
          cases hr
        · exact h
    rw [List.foldlM_cons]
    refine run_bind_ok.mpr ⟨false, g, run_bind_ok.mpr ⟨false, g, hfirst, rfl⟩, ?_⟩
    exact ih fun r hr => hi r (List.mem_cons_of_mem _ hr)

theorem mark_again (hs : Settled g) : ∃ k, mark.run g = .ok (1, k) ∧ k.included = g.included := by
  obtain ⟨k, hexports, hG, hsame⟩ :=
    markExports_again hR hg (fun _ hname => hs.exported hR hg hname) (.refl g)
  have hinert : ∀ r ∈ k.allStatements, Inert k r := by
    intro r hr
    rw [allStatements_congr hG.outline] at hr
    obtain ⟨s, hrs⟩ := mem_allStatements.mp hr
    have hinert : Inert g r := by
      cases hi : s.included with
      | true => exact .inl (isIncluded_iff.mpr ⟨s, hrs, hi⟩)
      | false => exact .inr (hs.statements r s hrs hi)
    exact hinert.grown hR hg hG hsame
  refine ⟨k, ?_, included_congr hG.outline hsame⟩
  rw [mark, run_get_bind]
  refine run_bind_ok.mpr ⟨(), k, hexports, ?_⟩
  rw [run_get_bind, markPasses]
  exact run_bind_ok.mpr ⟨false, k, markPass_again hinert, rfl⟩

end

end Treeshake.Graph
