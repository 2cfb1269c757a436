import Treeshake.Proofs.Graph.Marking
import Treeshake.Proofs.Graph.Meaning
/-!
Side effects. Main statements: a statement with effects keeps them when more statements are included, and in
two graphs that come from one and include the same statements, the same statements have effects.
-/
set_option autoImplicit false

namespace Treeshake.Graph

variable {R : List Routes} {n : Nat} {g h k : Graph}

theorem Kept.isExternal {d e : Declaration} (h : Kept d e) : e.isExternal = d.isExternal := by
  rw [Bool.eq_iff_iff, isExternal_iff e 0, isExternal_iff d 0, h.entity]

theorem Kept.isObject {d e : Declaration} (h : Kept d e) : e.isObject = d.isObject := by
  rw [Bool.eq_iff_iff, isObject_iff e 0, isObject_iff d 0, h.entity]

theorem isObservable_of_get {id : Nat} {d : Declaration} (hd : g.declarations[id]? = some d) :
    g.isObservable id = (d.isExternal || d.isObject || d.statement.all g.isIncluded) := by
  rw [isObservable, declaration?, hd]

theorem Grown.isObservable (hG : Grown g h) {id : Nat} {e : Entity} (he : g.entity? id = some e)
    (hid : g.isObservable id = true) : h.isObservable id = true := by
  obtain ⟨d, hd, -⟩ := Option.map_eq_some_iff.mp he
  obtain ⟨d', hd', hkept⟩ := hG.kept id d hd
  rw [isObservable_of_get hd] at hid
  rw [isObservable_of_get hd', hkept.isExternal, hkept.isObject, hkept.statement]
  cases hs : d.statement with
  | none => simp
  | some r =>
    simp only [hs, Option.all_some, Bool.or_eq_true] at hid ⊢
    exact hid.imp_right (hG.included r)

/-- Declarations of one thing in two graphs that come from one: either it was there before, under the same
number, or both are new. -/
theorem counterpart {g₀ : Graph} (hg : Grown g₀ g) (hh : Grown g₀ h) (hsg : g.Sound) (hsh : h.Sound)
    {id id' : Nat} (ha : Alike g id h id') :
    (∃ d, g₀.declarations[id]? = some d ∧ id' = id) ∨
      g₀.declarations[id]? = none ∧ g₀.declarations[id']? = none := by
  obtain ⟨e, he, he'⟩ := ha
  cases hd : g₀.declarations[id]? with
  | some d =>
    have hentity : g₀.entity? id = some (d.entity id) := by rw [entity?, hd, Option.map_some]
    have heq := Option.some.inj (he.symm.trans (hg.later.entity id _ hentity))
    exact .inl ⟨d, rfl, hsh.entity_inj he' (heq ▸ hh.later.entity id _ hentity)⟩
  | none =>
    cases hd' : g₀.declarations[id']? with
    | none => exact .inr ⟨rfl, rfl⟩
    | some d' =>
      have hentity : g₀.entity? id' = some (d'.entity id') := by rw [entity?, hd', Option.map_some]
      have heq := Option.some.inj (he'.symm.trans (hh.later.entity id' _ hentity))
      have hsame := hsg.entity_inj he (heq ▸ hg.later.entity id' _ hentity)
      rw [hsame, hd'] at hd
      cases hd

theorem statement_alike {g₀ : Graph} (hg : Grown g₀ g) (hh : Grown g₀ h) (hsg : g.Sound)
    (hsh : h.Sound) {id id' : Nat} {d d' : Declaration} (ha : Alike g id h id')
    (hd : g.declarations[id]? = some d) (hd' : h.declarations[id']? = some d') :
    d.statement = d'.statement := by
  rcases counterpart hg hh hsg hsh ha with ⟨d₀, hd₀, rfl⟩ | ⟨hnone, hnone'⟩
  · obtain ⟨e, he, hkept⟩ := hg.kept _ d₀ hd₀
    obtain ⟨e', he', hkept'⟩ := hh.kept _ d₀ hd₀
    obtain rfl := Option.some.inj (hd.symm.trans he)
    obtain rfl := Option.some.inj (hd'.symm.trans he')
    rw [hkept.statement, hkept'.statement]
  · rw [(hg.bare id d hd hnone).1, (hh.bare id' d' hd' hnone').1]

theorem isObservable_alike {g₀ : Graph} (hg : Grown g₀ g) (hh : Grown g₀ h) (hsg : g.Sound)
    (hsh : h.Sound) {id id' : Nat} (ha : Alike g id h id')
    (hincluded : ∀ r, g.isIncluded r = h.isIncluded r) : g.isObservable id = h.isObservable id' := by
  obtain ⟨e, he, he'⟩ := ha
  obtain ⟨d, hd, hde⟩ := Option.map_eq_some_iff.mp he
  obtain ⟨d', hd', hde'⟩ := Option.map_eq_some_iff.mp he'
  have hstatement := statement_alike hg hh hsg hsh ⟨e, he, he'⟩ hd hd'
  have hexternal : d.isExternal = d'.isExternal := by
    rw [Bool.eq_iff_iff, isExternal_iff d id, isExternal_iff d' id', hde, hde']
  have hobject : d.isObject = d'.isObject := by
    rw [Bool.eq_iff_iff, isObject_iff d id, isObject_iff d' id', hde, hde']
  have hsame : g.isIncluded = h.isIncluded := funext hincluded
  rw [isObservable_of_get hd, isObservable_of_get hd', hstatement, hexternal, hobject, hsame]

theorem anyTarget_some {module : Nat} {name : String} {rest : List (Option String)} {b : Bool} :
    (anyTarget module (some name :: rest)).run g = .ok (b, h) ↔
      ∃ found k, (trace module name).run g = .ok (found, k) ∧
        if found.all k.isObservable then b = true ∧ h = k
        else (anyTarget module rest).run k = .ok (b, h) := by
  rw [anyTarget, run_bind_ok]
  refine exists_congr fun found => exists_congr fun k => and_congr_right fun _ => ?_
  have hpure : (pure true : Build Bool).run k = .ok (b, h) ↔ b = true ∧ h = k :=
    run_pure_ok.trans (and_congr eq_comm eq_comm)
  cases found with
  | none => exact hpure
  | some id =>
    rw [run_get_bind]
    by_cases hk : k.isObservable id = true
    · simp only [hk, if_true, Option.all_some]
      exact hpure
    · simp [hk]

/-- Looking for effects traces, and depends on nothing else but what is included. -/
theorem anyTarget_explored (hR : Ranged R n) {module : Nat} {targets : List (Option String)} {b : Bool}
    (hg : Fits R n g) (hrun : (anyTarget module targets).run g = .ok (b, h)) : Explored R n g h := by
  induction targets generalizing g with
  | nil =>
    obtain ⟨-, rfl⟩ := run_pure_ok.mp hrun
    exact .refl hg
  | cons target rest ih =>
    cases target with
    | none =>
      obtain ⟨-, rfl⟩ := run_pure_ok.mp hrun
      exact .refl hg
    | some name =>
      obtain ⟨found, k, htrace, hrest⟩ := anyTarget_some.mp hrun
      obtain ⟨t, -⟩ := traces_trace hR module name g found k hg htrace
      split at hrest
      · obtain ⟨-, rfl⟩ := hrest
        exact t.toExplored
      · exact t.toExplored.trans (ih t.fits hrest)

theorem anyTarget_later (hR : Ranged R n) {module : Nat} {targets : List (Option String)} {b : Bool}
    (hg : Fits R n g) (hrun : (anyTarget module targets).run g = .ok (b, h)) (hG : Grown h k)
    (hb : b = true ∨ ∀ r, k.isIncluded r = h.isIncluded r) :
    (anyTarget module targets).run k = .ok (b, k) := by
  induction targets generalizing g with
  | nil =>
    obtain ⟨rfl, -⟩ := run_pure_ok.mp hrun
    exact run_pure_ok.mpr ⟨rfl, rfl⟩
  | cons target rest ih =>
    cases target with
    | none =>
      obtain ⟨rfl, -⟩ := run_pure_ok.mp hrun
      exact run_pure_ok.mpr ⟨rfl, rfl⟩
    | some name =>
      obtain ⟨found, l, htrace, hrest⟩ := anyTarget_some.mp hrun
      obtain ⟨t, hv⟩ := traces_trace hR module name g found l hg htrace
      have hl : Explored R n l h := by
        split at hrest
        · obtain ⟨-, rfl⟩ := hrest
          exact .refl t.fits
        · exact anyTarget_explored hR t.fits hrest
      have hlk := hl.grows.trans hG
      refine anyTarget_some.mpr ⟨found, k, t.again k hlk.later, ?_⟩
      have hmono : found.all l.isObservable = true → found.all k.isObservable = true := by
        cases found with
        | none => exact fun h => h
        | some id =>
          obtain ⟨e, he, -⟩ := hv id rfl
          exact hlk.isObservable he
      split at hrest
      · next hall =>
        rw [if_pos (hmono hall)]
        exact ⟨hrest.1, rfl⟩
      · next hall =>
        by_cases hk : found.all k.isObservable = true
        · rw [if_pos hk]
          refine ⟨?_, rfl⟩
          rcases hb with hb | hsame
          · exact hb
          · exfalso
            cases found with
            | none => exact hall rfl
            | some id =>
              obtain ⟨e, he, -⟩ := hv id rfl
              have heq : l.isObservable id = k.isObservable id :=
                isObservable_alike (.refl l) hlk t.fits.sound (hlk.sound t.fits.sound)
                  ⟨e, he, hlk.later.entity id e he⟩ fun r => by rw [hsame, hl.isIncluded]
              exact hall (heq.trans hk)
        · rw [if_neg hk]
          exact ih t.fits hrest

theorem anyTarget_agree (hR : Ranged R n) {g₀ g' h' : Graph} {module : Nat}
    {targets : List (Option String)} {b b' : Bool} (hg : Fits R n g) (hh : Fits R n h)
    (hG : Grown g₀ g) (hH : Grown g₀ h) (hincluded : ∀ r, g.isIncluded r = h.isIncluded r)
    (hrun : (anyTarget module targets).run g = .ok (b, g'))
    (hrun' : (anyTarget module targets).run h = .ok (b', h')) : b = b' := by
  induction targets generalizing g h with
  | nil =>
    obtain ⟨rfl, -⟩ := run_pure_ok.mp hrun
    exact (run_pure_ok.mp hrun').1
  | cons target rest ih =>
    cases target with
    | none =>
      obtain ⟨rfl, -⟩ := run_pure_ok.mp hrun
      exact (run_pure_ok.mp hrun').1
    | some name =>
      obtain ⟨found, k, htrace, hrest⟩ := anyTarget_some.mp hrun
      obtain ⟨found', l, htrace', hrest'⟩ := anyTarget_some.mp hrun'
      obtain ⟨t, -⟩ := traces_trace hR module name g found k hg htrace
      obtain ⟨t', -⟩ := traces_trace hR module name h found' l hh htrace'
      have hGk := hG.trans t.grows
      have hHl := hH.trans t'.grows
      have hsame : ∀ r, k.isIncluded r = l.isIncluded r := fun r => by
        rw [t.isIncluded, t'.isIncluded, hincluded]
      have hfound := agree_trace hR module name g h found found' k l hg hh htrace htrace'
      have hall : found.all k.isObservable = found'.all l.isObservable := by
        cases found with
        | none =>
          cases found' with
          | none => rfl
          | some id' => exact hfound.elim
        | some id =>
          cases found' with
          | none => exact hfound.elim
          | some id' => exact isObservable_alike hGk hHl t.fits.sound t'.fits.sound hfound hsame
      rw [hall] at hrest
      split at hrest
      · next hk =>
        rw [if_pos hk] at hrest'
        rw [hrest.1, hrest'.1]
      · next hk =>
        rw [if_neg hk] at hrest'
        exact ih t.fits t'.fits hGk hHl hsame hrest hrest'

theorem hasSideEffects_none {r : StatementRef} (hs : g.statement? r = none) :
    (hasSideEffects r).run g = .ok (false, g) := by
  rw [hasSideEffects, run_get_bind, hs]
  rfl

theorem hasSideEffects_some {r : StatementRef} {s : Statement} (hs : g.statement? r = some s) :
    (hasSideEffects r).run g =
      if s.effects.calls then .ok (true, g) else (anyTarget r.module s.effects.targets).run g := by
  rw [hasSideEffects, run_get_bind, hs]
  dsimp only
  split <;> rfl

theorem hasSideEffects_explored (hR : Ranged R n) {r : StatementRef} {b : Bool} (hg : Fits R n g)
    (hrun : (hasSideEffects r).run g = .ok (b, h)) : Explored R n g h := by
  cases hs : g.statement? r with
  | none =>
    rw [hasSideEffects_none hs] at hrun
    obtain ⟨-, rfl⟩ := Prod.mk.inj (Except.ok.inj hrun)
    exact .refl hg
  | some s =>
    rw [hasSideEffects_some hs] at hrun
    split at hrun
    · obtain ⟨-, rfl⟩ := Prod.mk.inj (Except.ok.inj hrun)
      exact .refl hg
    · exact anyTarget_explored hR hg hrun

theorem hasSideEffects_later (hR : Ranged R n) {r : StatementRef} {b : Bool} (hg : Fits R n g)
    (hrun : (hasSideEffects r).run g = .ok (b, h)) (hG : Grown h k)
    (hb : b = true ∨ ∀ r, k.isIncluded r = h.isIncluded r) :
    (hasSideEffects r).run k = .ok (b, k) := by
  have hgk := (hasSideEffects_explored hR hg hrun).grows.trans hG
  cases hs : g.statement? r with
  | none =>
    rw [hasSideEffects_none hs] at hrun
    obtain ⟨rfl, -⟩ := Prod.mk.inj (Except.ok.inj hrun)
    refine hasSideEffects_none ?_
    cases hk : k.statement? r with
    | none => rfl
    | some s' =>
      obtain ⟨s, hs', -⟩ := hgk.statement? hk
      rw [hs] at hs'
      cases hs'
  | some s =>
    obtain ⟨s', hs', heq⟩ := hgk.statement?_later hs
    have heffects : s'.effects = s.effects := congrArg (·.effects) heq
    rw [hasSideEffects_some hs] at hrun
    rw [hasSideEffects_some hs', heffects]
    split at hrun
    · next hcalls =>
      obtain ⟨rfl, -⟩ := Prod.mk.inj (Except.ok.inj hrun)
      rw [if_pos hcalls]
    · next hcalls =>
      rw [if_neg hcalls]
      exact anyTarget_later hR hg hrun hG hb

theorem hasSideEffects_agree (hR : Ranged R n) {g₀ g' h' : Graph} {r : StatementRef} {b b' : Bool}
    (hg : Fits R n g) (hh : Fits R n h) (hG : Grown g₀ g) (hH : Grown g₀ h)
    (hincluded : ∀ r, g.isIncluded r = h.isIncluded r)
    (hrun : (hasSideEffects r).run g = .ok (b, g')) (hrun' : (hasSideEffects r).run h = .ok (b', h')) :
    b = b' := by
  cases hs : g.statement? r with
  | none =>
    cases hs' : h.statement? r with
    | none =>
      rw [hasSideEffects_none hs] at hrun
      rw [hasSideEffects_none hs'] at hrun'
      obtain ⟨rfl, -⟩ := Prod.mk.inj (Except.ok.inj hrun)
      exact (Prod.mk.inj (Except.ok.inj hrun')).1
    | some s' =>
      obtain ⟨s₀, hs₀, -⟩ := hH.statement? hs'
      obtain ⟨s, hs'', -⟩ := hG.statement?_later hs₀
      rw [hs] at hs''
      cases hs''
  | some s =>
    obtain ⟨s₀, hs₀, heq⟩ := hG.statement? hs
    obtain ⟨s', hs', heq'⟩ := hH.statement?_later hs₀
    have heffects : s'.effects = s.effects := congrArg (·.effects) (heq'.trans heq.symm)
    rw [hasSideEffects_some hs] at hrun
    rw [hasSideEffects_some hs', heffects] at hrun'
    split at hrun
    · next hcalls =>
      rw [if_pos hcalls] at hrun'
      obtain ⟨rfl, -⟩ := Prod.mk.inj (Except.ok.inj hrun)
      exact (Prod.mk.inj (Except.ok.inj hrun')).1
    · next hcalls =>
      rw [if_neg hcalls] at hrun'
      exact anyTarget_agree hR hg hh hG hH hincluded hrun hrun'

end Treeshake.Graph
