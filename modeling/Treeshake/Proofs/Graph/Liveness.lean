import Mathlib
import Treeshake.Proofs.Graph.Mark
/-!
Liveness. Main statement: marking gives the least closed sets, whatever comes first.
-/
set_option autoImplicit false

namespace Treeshake.Graph

/-- Whether a declaration of something is used, whatever its number. -/
def Uses (g : Graph) (e : Entity) : Prop := ∃ id, g.entity? id = some e ∧ g.isUsed id = true

section
variable {R : List Routes} {n : Nat} {g₀ g h : Graph} (hR : Ranged R n) (hw : Wired R n g₀)
  (hg : Grown g₀ g) (hh : Grown g₀ h)
include hR hw hg hh

theorem needs_alike {id id' k : Nat} {d d' : Declaration} (ha : Alike g id h id')
    (hd : g.declarations[id]? = some d) (hd' : h.declarations[id']? = some d') (hk : k ∈ needs d) :
    ∃ k' ∈ needs d', Alike g k h k' := by
  have hfg := hg.fits hw.fits
  have hfh := hh.fits hw.fits
  rcases counterpart hg hh hfg.sound hfh.sound ha with ⟨d₀, hd₀, rfl⟩ | ⟨hnone, hnone'⟩
  · obtain ⟨e, he, hkept⟩ := hg.kept _ d₀ hd₀
    obtain ⟨e', he', hkept'⟩ := hh.kept _ d₀ hd₀
    obtain rfl := Option.some.inj (hd.symm.trans he)
    obtain rfl := Option.some.inj (hd'.symm.trans he')
    rw [hkept.needs] at hk
    obtain ⟨x, hx⟩ := known_needs hR hw (.refl g₀) hd₀ hk
    exact ⟨k, hkept'.needs ▸ hk, x, hg.later.entity k x hx, hh.later.entity k x hx⟩
  · obtain ⟨-, haliases, hown⟩ := hg.bare id d hd hnone
    rcases mem_needs.mp hk with hnamed | ⟨i, members, v, hkind, hmember⟩
    · rw [haliases, standsFor_eq_none (hown id)] at hnamed
      simp at hnamed
    · obtain ⟨e, he, he'⟩ := ha
      have hwhole : e = .whole i := by
        rw [entity?, hd, Option.map_some, Declaration.entity, hkind] at he
        exact (Option.some.inj he).symm
      obtain ⟨members', v', hkind'⟩ := object_of_entity hd' (hwhole ▸ he')
      obtain ⟨k', hk', hak⟩ := members_alike hR hfg hfh (hg.complete hw.complete)
        (hh.complete hw.complete) hd hkind hd' hkind' hmember
      exact ⟨k', mem_needs.mpr (.inr ⟨i, members', v', hkind', hk'⟩), hak⟩

omit hR hw in
/-- Marks of one graph in place of those of another. -/
theorem isIncluded_exchange (r : StatementRef) :
    (h.withIncluded g.isIncluded).isIncluded r = g.isIncluded r := by
  rw [isIncluded_withIncluded]
  cases hi : g.isIncluded r with
  | false => simp
  | true =>
    obtain ⟨s, hs, -⟩ := isIncluded_iff.mp hi
    obtain ⟨s₀, hs₀, -⟩ := hg.statement? hs
    obtain ⟨s', hs', -⟩ := hh.statement?_later hs₀
    simp [hs']

theorem included_of_effects (hs : Settled g) {r : StatementRef} {k : Graph}
    (hrun : (hasSideEffects r).run (h.withIncluded g.isIncluded) = .ok (true, k)) :
    g.isIncluded r = true := by
  have hG : Grown g₀ (h.withIncluded g.isIncluded) := hh.withIncluded hg.included
  cases hrs : g.statement? r with
  | none =>
    cases hrs' : (h.withIncluded g.isIncluded).statement? r with
    | none =>
      rw [hasSideEffects_none hrs'] at hrun
      cases hrun
    | some s' =>
      obtain ⟨s₀, hs₀, -⟩ := hG.statement? hrs'
      obtain ⟨s, hgs, -⟩ := hg.statement?_later hs₀
      rw [hrs] at hgs
      cases hgs
  | some s =>
    cases hi : s.included with
    | true => exact isIncluded_iff.mpr ⟨s, hrs, hi⟩
    | false =>
      have hsame := hasSideEffects_agree hR (hG.fits hw.fits) (hg.fits hw.fits) hG hg
        (isIncluded_exchange hg hh) hrun (hs.statements r s hrs hi)
      cases hsame

/-- What is closed in one settled graph is closed in another. -/
theorem Closed.transport (hs : Settled g) (hs' : Settled h)
    (hc : Closed g g.isIncluded fun id => g.isUsed id = true) :
    Closed h g.isIncluded fun id => ∃ id', Alike h id g id' ∧ g.isUsed id' = true := by
  have hfg := hg.fits hw.fits
  have hfh := hh.fits hw.fits
  have hinternal : ∀ {id id' : Nat}, Alike h id g id' → h.isInternal id = true → g.isInternal id' = true := by
    rintro id id' ⟨e, he, he'⟩ hid
    obtain ⟨x, hex, hx⟩ := isInternal_iff.mp hid
    obtain rfl := Option.some.inj (he.symm.trans hex)
    exact isInternal_iff.mpr ⟨e, he', hx⟩
  have hneeds : ∀ {id k : Nat} {d : Declaration}, h.declarations[id]? = some d →
      (∃ id', Alike h id g id' ∧ g.isUsed id' = true) → k ∈ Graph.needs d → h.isInternal k = true →
      ∃ k', Alike h k g k' ∧ g.isUsed k' = true := by
    rintro id k d hd ⟨id', ha, hused⟩ hk hki
    obtain ⟨d', hd', hu⟩ := isUsed_iff.mp hused
    obtain ⟨k', hk', hak⟩ := needs_alike hR hw hh hg ha hd hd' hk
    exact ⟨k', hak, hc.needs hd' hused hk' (hinternal hak hki)⟩
  refine ⟨?_, ?_, fun id k d hd hid hk => hneeds hd hid (mem_needs_of_alias hk),
    fun id k d hd hid hkind => hneeds hd hid (mem_needs_of_underlying hkind),
    fun id k d i members asValue name hd hid hkind hk => hneeds hd hid (mem_needs_of_member hkind hk), ?_,
    fun r k => included_of_effects hR hw hg hh hs⟩
  · intro name hname id k hrun hid
    obtain ⟨id₁, hrun₁, -⟩ := hs'.exports name hname
    obtain ⟨rfl, rfl⟩ := Prod.mk.inj (Except.ok.inj (hrun₁.symm.trans hrun))
    rw [exportNames_congr (hfh.routes.trans hfg.routes.symm)] at hname
    obtain ⟨id', hrun', hused⟩ := hs.exports name hname
    have ha := agree_traceExport hR entry name entry h g id₁ id' h g hfh hfg hrun hrun'
    exact ⟨id', ha, hused (hinternal ha hid)⟩
  · rintro id d r hd ⟨id', ha, hused⟩ hr
    obtain ⟨d', hd', hu⟩ := isUsed_iff.mp hused
    have hsame := statement_alike hh hg hfh.sound hfg.sound ha hd hd'
    exact hc.statement id' d' r hd' hused (hsame ▸ hr)
  · intro r s x k hrs hr hx hk hki
    obtain ⟨s₀, hs₀, heq⟩ := hh.statement? hrs
    obtain ⟨s', hs'', heq'⟩ := hg.statement?_later hs₀
    have hreferences : s.references = s'.references := congrArg (·.references) (heq.trans heq'.symm)
    have hx₀ : x ∈ s₀.references := (congrArg (·.references) heq : s.references = s₀.references) ▸ hx
    obtain ⟨e, he⟩ := known_references hw (.refl g₀) hs₀ hx₀ (Reference.declaration?_eq_some.mpr hk)
    have ha : Alike h k g k := ⟨e, hh.later.entity k e he, hg.later.entity k e he⟩
    exact ⟨k, ha, hc.references r s' x k hs'' hr (hreferences ▸ hx) hk (hinternal ha hki)⟩

omit hg hh in
theorem settled_within (hsg : Scans (g₀, []) (g, [])) (hsh : Scans (g₀, []) (h, [])) (hs : Settled g)
    (hs' : Settled h) : (∀ r, h.isIncluded r = true → g.isIncluded r = true) ∧
      ∀ e, h.Uses e → g.Uses e := by
  have hg : Grown g₀ g := Scans.grown hR hw (.refl g₀) hsg
  have hh : Grown g₀ h := Scans.grown hR hw (.refl g₀) hsh
  have hclosed := Owing.closed (Scans.owing hR hw (.refl g₀) hw.owing hsg) hs
  have htransport := hclosed.transport hR hw hg hh hs hs'
  have hwithin := Scans.within hR hw (.refl g₀) htransport (hw.within h _ _) hsh
  refine ⟨hwithin.included, fun e he => ?_⟩
  obtain ⟨id, hid, hused⟩ := he
  obtain ⟨id', ⟨e', he, he'⟩, hused'⟩ := hwithin.used id hused
  obtain rfl := Option.some.inj (he.symm.trans hid)
  exact ⟨id', he', hused'⟩

end

/-- Marking includes and uses the least sets that are closed, and so does any scan of the exports, the
statements and the declarations that wait, in whatever order; marking again includes nothing more. -/
theorem mark_least_closed {g h : Graph} {passes : Nat} (hg : g.Linked)
    (hrun : mark.run g = .ok (passes, h)) :
    Closed h h.isIncluded (fun id => h.isUsed id = true) ∧
      (∀ S D, Closed h S D → (∀ r, h.isIncluded r = true → S r = true) ∧
        ∀ id, h.isUsed id = true → D id) ∧
      (Scans (g, []) (h, []) ∧ Settled h) ∧
      (∀ k, Scans (g, []) (k, []) → Settled k → k.included = h.included ∧ ∀ e, k.Uses e ↔ h.Uses e) ∧
      ∃ k, mark.run h = .ok (1, k) ∧ k.included = h.included := by
  obtain ⟨R, n, hR, hw⟩ := hg.wired
  obtain ⟨hscans, hsettled⟩ := mark_settles hR hw hrun
  have hG : Grown g h := Scans.grown hR hw (.refl g) hscans
  refine ⟨Owing.closed (Scans.owing hR hw (.refl g) hw.owing hscans) hsettled, fun S D hc => ?_,
    ⟨hscans, hsettled⟩, fun k hscans' hsettled' => ?_, mark_again hR (hG.fits hw.fits) hsettled⟩
  · have hwithin := Scans.within hR hw (.refl g) hc (hw.within h S D) hscans
    exact ⟨hwithin.included, hwithin.used⟩
  · have hG' : Grown g k := Scans.grown hR hw (.refl g) hscans'
    obtain ⟨hi, hu⟩ := settled_within hR hw hscans hscans' hsettled hsettled'
    obtain ⟨hi', hu'⟩ := settled_within hR hw hscans' hscans hsettled' hsettled
    refine ⟨included_congr (hG'.outline.trans hG.outline.symm) fun r => ?_, fun e => ⟨hu e, hu' e⟩⟩
    exact Bool.eq_iff_iff.mpr ⟨hi r, hi' r⟩

def exampleModule : Module where
  id := "main"
  code := []
  firstCode := ""
  maps := []
  draft := Draft.ofText ""
  statements := [
    { kind := .other, start := 0, stop := 0, next := 0, nodeStart := 0,
      references := [{ name := "c", start := 0, stop := 0, scope := 0 }] },
    { kind := .other, start := 0, stop := 0, next := 0, nodeStart := 0 },
    { kind := .other, start := 0, stop := 0, next := 0, nodeStart := 0 },
    { kind := .other, start := 0, stop := 0, next := 0, nodeStart := 0,
      effects := { targets := [some "c"] } }]
  scopes := {}
  imports := []
  exports := [("a", ⟨"a", none, 0⟩)]
  reexports := []
  starSources := []
  sources := []
  bindings := [⟨"a", "a", some 0⟩, ⟨"b", "b", some 1⟩, ⟨"c", "c", some 2⟩]

theorem fetched_example : Fetched [(exampleModule, [])] [] where
  fresh e he := by
    obtain rfl := List.mem_singleton.mp he
    exact ⟨by decide, by decide, by decide⟩
  sources e he s t h := by
    obtain rfl := List.mem_singleton.mp he
    cases h
  inside e he s i h := by
    obtain rfl := List.mem_singleton.mp he
    cases h
  outside e he s i h := by
    obtain rfl := List.mem_singleton.mp he
    cases h
  unused e he := by cases he

theorem mark_least_closed_one_module : ∃ g h passes, g.Linked ∧ mark.run g = .ok (passes, h) ∧
    h.included = [[true, false, true, true]] ∧ Closed h h.isIncluded fun id => h.isUsed id = true := by
  have hrun : ((bind.run (ofModules [(exampleModule, [])] [])).toOption.bind fun p =>
      (mark.run p.2).toOption).map (fun p => p.2.included) = some [[true, false, true, true]] := by
    cbv
  obtain ⟨⟨passes, h⟩, hmark, hincluded⟩ := Option.map_eq_some_iff.mp hrun
  obtain ⟨⟨stats, g⟩, hbind, hmark⟩ := Option.bind_eq_some_iff.mp hmark
  have hg : g.Linked := ⟨_, _, stats, fetched_example, ok_of_toOption hbind⟩
  exact ⟨g, h, passes, hg, ok_of_toOption hmark, hincluded, (mark_least_closed hg (ok_of_toOption hmark)).1⟩

end Treeshake.Graph
