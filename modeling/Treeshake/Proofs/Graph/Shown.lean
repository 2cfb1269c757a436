import Mathlib
import Treeshake.Graph.Render
import Treeshake.Proofs.Graph.Built
/-!
What the output names and what it shows. Main statements: whatever a build names is used, and so is what it has the
name of; and of what is used the output shows the value of a default export that nothing replaces and the object of a
module, unless the module is used as a member of another one only.
-/
set_option autoImplicit false

namespace Treeshake

/-- Whether the output has no binding of a declaration but the property of its exports. -/
def Declaration.writesThrough (es6 : Bool) (d : Declaration) : Bool :=
  !es6 && d.kind == .binding && d.exported && d.reassigned

namespace Graph

variable {R : List Routes} {n : Nat} {g h k : Graph} {id : Nat} {e : Declaration}

/-- The declaration whose name the output has for another one, through default exports that stand for
others; `seen` are those passed already. -/
def ownerWithin (g : Graph) : Nat → List Nat → Nat → Nat
  | 0, _, id => id
  | fuel + 1, seen, id =>
    match (g.declaration? id).bind (·.standsFor) with
    | none => id
    | some underlying =>
      if !g.isReassigned underlying && !seen.contains underlying then
        g.ownerWithin fuel (id :: seen) underlying
      else id

def owner (g : Graph) (id : Nat) : Nat := g.ownerWithin (g.declarations.length + 1) [] id

theorem ownerWithin_of_standsFor (fuel : Nat) (seen : List Nat)
    (h : (g.declaration? id).bind (·.standsFor) = none) : g.ownerWithin fuel seen id = id := by
  cases fuel with
  | zero => rfl
  | succ fuel => rw [ownerWithin, h]

theorem nameWithin_owner {es6 : Bool} {fuel : Nat} {seen : List Nat}
    (he : g.declaration? (g.ownerWithin fuel seen id) = some e) (hexternal : e.isExternal = false)
    (hthrough : e.writesThrough es6 = false) : g.nameWithin es6 fuel seen id = e.name := by
  induction fuel generalizing seen id with
  | zero =>
    rw [ownerWithin] at he
    rw [nameWithin, he, Option.map_some, Option.getD_some]
  | succ fuel ih =>
    rw [nameWithin]
    rw [ownerWithin] at he
    cases hd : g.declaration? id with
    | none =>
      rw [hd, Option.bind_none] at he
      cases hd.symm.trans he
    | some d =>
      rw [hd, Option.bind_some, Declaration.standsFor] at he
      dsimp only
      cases hkind : d.kind with
      | binding =>
        rw [hkind] at he
        obtain rfl := Option.some.inj (hd.symm.trans he)
        simp only [Declaration.writesThrough, hkind, beq_self_eq_true, Bool.and_true] at hthrough
        simp [hthrough]
      | defaultValue underlying =>
        rw [hkind] at he
        cases underlying with
        | none =>
          obtain rfl := Option.some.inj (hd.symm.trans he)
          rfl
        | some underlying =>
          dsimp only at he ⊢
          split at he
          · next hthere =>
            rw [if_pos hthere]
            exact ih he
          · next hthere =>
            rw [if_neg hthere]
            obtain rfl := Option.some.inj (hd.symm.trans he)
            rfl
      | object module members asValue =>
        rw [hkind] at he
        obtain rfl := Option.some.inj (hd.symm.trans he)
        rfl
      | external module name =>
        rw [hkind] at he
        obtain rfl := Option.some.inj (hd.symm.trans he)
        rw [Declaration.isExternal, hkind] at hexternal
        cases hexternal

/-- What marking leaves: what is used has its statement and all it needs, and what included statements refer
to and exports of the entry lead to is used and has a value. -/
structure Live (g : Graph) : Prop where
  sound : g.Sound
  statement : ∀ (id : Nat) (d : Declaration) (r : StatementRef), g.declarations[id]? = some d →
    d.used = true → d.statement = some r → g.isIncluded r = true
  needs : ∀ (id k : Nat) (d : Declaration), g.declarations[id]? = some d → d.used = true → k ∈ needs d →
    g.isInternal k = true → g.isUsed k = true
  references : ∀ (r : StatementRef) (s : Statement) (x : Reference) (id : Nat), g.statement? r = some s →
    s.included = true → x ∈ s.references → x.declaration? = some id →
    (g.isInternal id = true → g.isUsed id = true) ∧
      ∃ d, g.declarations[id]? = some d ∧ d.HasValue
  exports : ∀ name ∈ g.exportNames entry, ∃ id,
    (∀ h, Later g h → (traceExport (.inside entry) name entry).run h = .ok (id, h)) ∧
      (g.isInternal id = true → g.isUsed id = true) ∧
      ∃ d, g.declarations[id]? = some d ∧ d.HasValue

theorem isInternal_of_declaration (he : g.declarations[id]? = some e) (hexternal : e.isExternal = false) :
    g.isInternal id = true := by
  rw [isInternal_eq, he, Option.any_some, hexternal]
  rfl

theorem standsFor_of_not_internal (h : g.isInternal id = false) :
    (g.declaration? id).bind (·.standsFor) = none := by
  cases hd : g.declaration? id with
  | none => rfl
  | some d =>
    rw [isInternal_eq, show g.declarations[id]? = some d from hd, Option.any_some, Bool.not_eq_false',
      Declaration.isExternal] at h
    rw [Option.bind_some, Declaration.standsFor]
    split at h
    · next hkind => rw [hkind]
    · cases h

theorem Live.owner (hl : Live g) {fuel : Nat} {seen : List Nat} (hused : g.isUsed id = true)
    (he : g.declaration? (g.ownerWithin fuel seen id) = some e) (hexternal : e.isExternal = false) :
    e.used = true := by
  obtain ⟨d, hd, hu⟩ := isUsed_iff.mp hused
  have hget : g.declaration? id = some d := hd
  induction fuel generalizing seen id d with
  | zero =>
    obtain rfl := Option.some.inj (hget.symm.trans he)
    exact hu
  | succ fuel ih =>
    rw [ownerWithin, hget, Option.bind_some] at he
    split at he
    · obtain rfl := Option.some.inj (hget.symm.trans he)
      exact hu
    · next underlying hstands =>
      split at he
      · have hneeded : underlying ∈ Graph.needs d := mem_needs.mpr (.inl (.inr hstands))
        cases hinternal : g.isInternal underlying with
        | true =>
          have hused' := hl.needs id underlying d hd hu hneeded hinternal
          obtain ⟨d', hd', hu'⟩ := isUsed_iff.mp hused'
          exact ih hused' he d' hd' hu' hd'
        | false =>
          rw [ownerWithin_of_standsFor _ _ (standsFor_of_not_internal hinternal)] at he
          rw [isInternal_of_declaration he hexternal] at hinternal
          cases hinternal
      · obtain rfl := Option.some.inj (hget.symm.trans he)
        exact hu

theorem lasting_valued : Lasting fun g _ r => ∀ id, r.declaration? = some id →
    ∃ d, g.declarations[id]? = some d ∧ d.HasValue where
  steady hs hr id hid := by
    obtain ⟨d, hd, hv⟩ := hr id hid
    obtain ⟨e, he, hde⟩ := hs.declarations id d hd
    exact ⟨e, he, hde hv⟩
  became := by
    intro h f r r' _ hbecame hthere id hid
    cases hbecame with
    | inner => cases hid
    | global => cases hid
    | declared _ _ hv =>
      obtain ⟨d, hd⟩ := hthere id hid
      exact ⟨d, hd, hv id d hid hd⟩

section
variable {g₀ : Graph} (hR : Ranged R n) (hw : Wired R n g₀)

def Presents (g : Graph) (name : String) : Prop := ∃ id,
  (∀ h, Later g h → (traceExport (.inside entry) name entry).run h = .ok (id, h)) ∧
    ∃ d, g.declarations[id]? = some d ∧ d.HasValue

theorem Presents.grown {name : String} (hp : Presents g name) (hG : Grown g h) : Presents h name := by
  obtain ⟨id, hrun, d, hd, hv⟩ := hp
  obtain ⟨e, he, hde⟩ := hG.steady.declarations id d hd
  exact ⟨id, fun k hk => hrun k (hG.later.trans hk), e, he, hde hv⟩

include hR hw

theorem presents_markExport (hG : Grown g₀ g) {name : String} {u : Unit}
    (hrun : (markExport name).run g = .ok (u, h)) : Grown g h ∧ Presents h name := by
  obtain ⟨id, k, htrace, rfl⟩ := markExport_run.mp hrun
  obtain ⟨t, e, he, -⟩ := traces_traceExport hR entry name entry g id k (hG.fits hw.fits) htrace
  have hflag := grown_flagExport k name id
  have huse : Grown (k.flagExport name id) ((k.flagExport name id).use [id]) :=
    Scans.grown hR hw ((hG.trans t.grows).trans hflag) (scans_use (k.flagExport name id) [id])
  obtain ⟨d, hd, -⟩ := Option.map_eq_some_iff.mp (hflag.later.entity id e he)
  have hpresents : Presents (k.flagExport name id) name :=
    ⟨id, fun l hl => t.again l (hflag.later.trans hl), d, hd, hasValue_useAsValue hd⟩
  exact ⟨(t.grows.trans hflag).trans huse, hpresents.grown huse⟩

theorem presents_markExports (hG : Grown g₀ g) {names : List String} {u : Unit}
    (hrun : (names.forM markExport).run g = .ok (u, h)) :
    Grown g h ∧ ∀ name ∈ names, Presents h name := by
  induction names generalizing g with
  | nil =>
    obtain ⟨-, rfl⟩ := run_pure_ok.mp hrun
    exact ⟨.refl g, nofun⟩
  | cons name names ih =>
    obtain ⟨_, k, hfirst, hrest⟩ := run_bind_ok.mp hrun
    obtain ⟨hGk, hpresents⟩ := presents_markExport hR hw hG hfirst
    obtain ⟨hGh, hothers⟩ := ih (hG.trans hGk) hrest
    exact ⟨hGk.trans hGh, List.forall_mem_cons.mpr ⟨hpresents.grown hGh, hothers⟩⟩

theorem live_mark {passes : Nat}
    (hall : Everywhere (fun g _ r => ∀ id, r.declaration? = some id →
      ∃ d, g.declarations[id]? = some d ∧ d.HasValue) g₀)
    (hrun : mark.run g₀ = .ok (passes, h)) : Live h := by
  obtain ⟨hscans, hsettled⟩ := mark_settles hR hw hrun
  have hG : Grown g₀ h := Scans.grown hR hw (.refl g₀) hscans
  have hclosed := Owing.closed (Scans.owing hR hw (.refl g₀) hw.owing hscans) hsettled
  refine ⟨hG.sound hw.fits.sound, fun id d r hd hu hr => ?_, fun id k d hd hu hk => ?_,
    fun r s x id hs hi hx hid => ⟨?_, ?_⟩, fun name hname => ?_⟩
  · exact hclosed.statement id d r hd (isUsed_iff.mpr ⟨d, hd, hu⟩) hr
  · exact hclosed.needs hd (isUsed_iff.mpr ⟨d, hd, hu⟩) hk
  · exact hclosed.references r s x id hs (isIncluded_iff.mpr ⟨s, hs, hi⟩) hx
      (Reference.declaration?_eq_some.mp hid)
  · obtain ⟨m, hm, hsm⟩ := Option.bind_eq_some_iff.mp hs
    exact (hall.idles lasting_valued hG.idles).reference hm (List.mem_of_getElem? hsm) hx id hid
  · rw [exportNames_congr hG.later.routes] at hname
    rw [mark, run_get_bind, run_bind_ok] at hrun
    obtain ⟨_, k, hexports, hrest⟩ := hrun
    obtain ⟨hGk, hpresents⟩ := presents_markExports hR hw (.refl g₀) hexports
    rw [run_get_bind] at hrest
    have hfuel : k.left < k.allStatements.length + 1 := Nat.lt_succ_of_le List.countP_le_length
    have hGh := Scans.grown hR hw hGk (markPasses_settles hR hw hGk hfuel hrest).1
    obtain ⟨id, htrace, hvalue⟩ := (hpresents name hname).grown hGh
    rw [← exportNames_congr hG.later.routes] at hname
    obtain ⟨id', htrace', hused⟩ := hsettled.exports name hname
    obtain ⟨rfl, -⟩ := Prod.mk.inj (Except.ok.inj ((htrace h (.refl h)).symm.trans htrace'))
    exact ⟨id, htrace, hused, hvalue⟩

end

theorem Live.renamed (hl : Live g) (hr : Renamed g h) : Live h where
  sound := hr.sound hl.sound
  statement id e r he hu hs := by
    obtain ⟨d, hd, heq⟩ := hr.declaration he
    have hused : d.used = e.used := congrArg (·.used) heq
    have hstatement : d.statement = e.statement := congrArg (·.statement) heq
    rw [hr.isIncluded]
    exact hl.statement id d r hd (hused.trans hu) (hstatement.trans hs)
  needs id k e he hu hk hinternal := by
    obtain ⟨d, hd, heq⟩ := hr.declaration he
    have hused : d.used = e.used := congrArg (·.used) heq
    have hneeds : Graph.needs d.nameless = Graph.needs e.nameless := congrArg Graph.needs heq
    rw [hr.isInternal] at hinternal
    rw [hr.isUsed]
    exact hl.needs id k d hd (hused.trans hu) (hneeds.symm ▸ hk : k ∈ Graph.needs d.nameless) hinternal
  references r s x id hs hi hx hid := by
    rw [hr.statement?] at hs
    obtain ⟨hused, d, hd, hv⟩ := hl.references r s x id hs hi hx hid
    rw [hr.isInternal, hr.isUsed]
    obtain ⟨e, he, heq⟩ := hr.declaration_later hd
    exact ⟨hused, e, he, fun i members hkind => hv i members ((congrArg (·.kind) heq).symm.trans hkind)⟩
  exports name hname := by
    rw [exportNames_congr hr.later.routes] at hname
    obtain ⟨id, htrace, hused, d, hd, hv⟩ := hl.exports name hname
    obtain ⟨e, he, heq⟩ := hr.declaration_later hd
    refine ⟨id, fun k hk => htrace k (hr.later.trans hk), ?_, e, he, fun i members hkind =>
      hv i members ((congrArg (·.kind) heq).symm.trans hkind)⟩
    rw [hr.isInternal, hr.isUsed]
    exact hused

/-- Where the output names a declaration for itself: at a reference of an included statement, and where it
shows what an export of the entry leads to. -/
inductive Mentioned (g : Graph) (id : Nat) : Prop
  | reference (r : StatementRef) (s : Statement) (x : Reference) (hs : g.statement? r = some s)
      (hincluded : s.included = true) (hx : x ∈ s.references) (hid : x.declaration? = some id)
  | export_ (name : String) (hname : name ∈ g.exportNames entry)
      (hrun : (traceExport (.inside entry) name entry).run g = .ok (id, g))

/-- Whether the output names a declaration, for itself or as a member of an object that it shows. -/
def Named (g : Graph) (id : Nat) : Prop :=
  g.Mentioned id ∨ ∃ i d module members, g.declaration? i = some d ∧ needsObject d = true ∧
    d.kind = .object module members true ∧ id ∈ members.values

/-- What the output has of a declaration that is used: the object of a module that is used as a value, and the value
of a default export that no other declaration replaces. -/
structure Renders (g : Graph) (id : Nat) (e : Declaration) : Prop where
  object : ∀ i members v, e.kind = .object i members v → ∃ m, g.modules[i]? = some m ∧
    ∀ es6, g.renderObject? m es6 = if v then
      some ("\n\nvar " ++ e.name ++ r" = {" ++ "\n" ++
        ",\n".intercalate (members.map (g.renderMember es6 m.draft.indentUnit)) ++ "\n" ++ r"};" ++ "\n\n")
      else none
  value : ∀ underlying, e.kind = .defaultValue underlying → g.isReplaced e = false →
    ∀ (m : LinkedModule) (s : Statement) (start : Nat) (form : DefaultForm),
    m.declarations.get? "default" = some id → s.kind = .exportDefault start form →
    form ≠ .declaration → g.isRedundant m s = false ∧ ∀ es6 d,
      g.renderDefault m es6 s start form d =
        match form with
        | .anonymousFunction headEnd =>
          d.overwrite s.nodeStart headEnd (Text.slice start headEnd m.code ++ " " ++ e.name) false
        | _ => d.overwrite s.nodeStart start ("var " ++ e.name ++ " = ") false

theorem renderName_default {underlying : Option Nat} {es6 : Bool} (he : g.declaration? id = some e)
    (hkind : e.kind = .defaultValue underlying) (hreplaced : g.isReplaced e = false) :
    g.renderName id es6 = e.name := by
  rw [renderName, nameWithin, he]
  dsimp only
  rw [isReplaced, Declaration.standsFor, hkind] at hreplaced
  rw [hkind]
  cases underlying with
  | none => rfl
  | some underlying =>
    rw [Option.any_some] at hreplaced
    dsimp only
    rw [hreplaced, Bool.false_and]
    rfl

theorem Live.renders (hl : Live g) (he : g.declaration? id = some e) (hu : e.used = true)
    (hexternal : e.isExternal = false) : g.Renders id e where
  object i members v hkind := by
    have hentity : g.entity? id = some (.whole i) := by
      rw [entity?, show g.declarations[id]? = some e from he, Option.map_some, Declaration.entity, hkind]
    obtain ⟨m, hm, hobject⟩ := Option.bind_eq_some_iff.mp ((hl.sound.object i id).mpr hentity)
    refine ⟨m, hm, fun es6 => ?_⟩
    rw [renderObject?, hobject, Option.bind_some, he]
    obtain ⟨name, kind, statement, reassigned, exported, used, aliases⟩ := e
    obtain rfl : kind = .object i members v := hkind
    obtain rfl : used = true := hu
    cases v <;> rfl
  value underlying hvalue hreplaced m s start form hdefault hkind hform := by
    have hnot : (form == DefaultForm.declaration) = false := beq_eq_false_iff_ne.mpr hform
    refine ⟨?_, fun es6 d => ?_⟩
    · rw [isRedundant, hkind]
      dsimp only
      rw [hdefault, Option.bind_some, he, Option.any_some, hreplaced, Bool.and_false]
    · rw [renderDefault, hnot, hdefault]
      dsimp only
      rw [he, Option.any_some, hu, Bool.or_true, renderName_default he hvalue hreplaced]
      cases form <;> rfl

theorem Live.named (hl : Live g) (hid : g.Named id) (hinternal : g.isInternal id = true) :
    g.isUsed id = true := by
  rcases hid with hmentioned | ⟨i, d, module, members, hd, hobject, hkind, hmember⟩
  · cases hmentioned with
    | reference r s x hs hincluded hx hid => exact (hl.references r s x id hs hincluded hx hid).1 hinternal
    | export_ name hname hrun =>
      obtain ⟨id', htrace, hused, -⟩ := hl.exports name hname
      obtain ⟨rfl, -⟩ := Prod.mk.inj (Except.ok.inj ((htrace g (.refl g)).symm.trans hrun))
      exact hused hinternal
  · have hneeded : id ∈ Graph.needs d := mem_needs.mpr (.inr ⟨module, members, true, hkind, hmember⟩)
    rw [needsObject, hkind] at hobject
    dsimp only at hobject
    rw [Bool.true_and] at hobject
    exact hl.needs i id d hd hobject hneeded hinternal

theorem Live.mentioned (hl : Live g) (hid : g.Mentioned id) {d : Declaration}
    (hd : g.declaration? id = some d) : d.HasValue := by
  cases hid with
  | reference r s x hs hincluded hx hid =>
    obtain ⟨-, d', hd', hv⟩ := hl.references r s x id hs hincluded hx hid
    obtain rfl := Option.some.inj (hd.symm.trans hd')
    exact hv
  | export_ name hname hrun =>
    obtain ⟨id', htrace, -, d', hd', hv⟩ := hl.exports name hname
    obtain ⟨rfl, -⟩ := Prod.mk.inj (Except.ok.inj ((htrace g (.refl g)).symm.trans hrun))
    obtain rfl := Option.some.inj (hd.symm.trans hd')
    exact hv

theorem Built.live {modules : List (Module × Table Target)} {externals : List External}
    (hf : Fetched modules externals) (hg : Built modules externals g) : Live g := by
  obtain ⟨stats, l, passes, h, order, hbind, hmark, rfl⟩ := hg
  have hw := wired_bind (ranged_starred hf) (wired_starred hf) hbind
  have hall := everywhere_linked lasting_valued hf hbind fun e he s hs r hr hunbound id hid => by
    rw [Reference.declaration?, hunbound] at hid
    cases hid
  exact (live_mark (ranged_starred hf) hw hall hmark).renamed (renamed_deconflict h order)

def wholes : List (Module × Table Target) :=
  [(wholeModule "0" .other [{ name := "h", start := 0, stop := 1, scope := 0 }]
      [("h", ⟨"./1", "*", 0⟩)] [] [], [("./1", .inside 1)]),
    (wholeModule "1" .exportClause [] [("deep", ⟨"./2", "*", 0⟩)] [("deep", ⟨"deep", none, 0⟩)] [],
      [("./2", .inside 2)]),
    (wholeModule "2" .variable [] [] [("value", ⟨"value", none, 0⟩)] [⟨"value", "value", some 0⟩], [])]

def whole : Option Graph := do
  let (_, g) ← (bind.run (ofModules wholes [])).toOption
  let (_, h) ← (mark.run g).toOption
  return (h.deconflict [2, 1, 0]).1

theorem built_whole (h : whole = some g) : Built wholes [] g := by
  simp only [whole, Option.bind_eq_bind, Option.bind_eq_some_iff] at h
  obtain ⟨⟨stats, l⟩, hbind, ⟨passes, k⟩, hmark, heq⟩ := h
  exact ⟨stats, l, passes, k, [2, 1, 0], ok_of_toOption hbind, ok_of_toOption hmark,
    (Option.some.inj heq).symm⟩

/-- A module that is used as a member only has a name, but no object under it. -/
theorem member_object_missing : ∃ g e m, Built wholes [] g ∧ g.Named 2 ∧ g.isInternal 2 = true ∧
    g.owner 2 = 2 ∧ g.declaration? 2 = some e ∧ e.statement = none ∧ e.writesThrough true = false ∧
    g.renderName 2 true = "_2" ∧ e.kind = .object 2 [("value", 0)] false ∧ g.modules[2]? = some m ∧
    g.renderObject? m true = none := by
  have hrun : whole.map (fun g => (g.declaration? 1).bind fun d => (g.declaration? 2).bind fun e =>
      g.modules[2]?.map fun m => (needsObject d, d.kind, g.isInternal 2, g.owner 2, e.statement,
        e.writesThrough true, g.renderName 2 true, e.kind, g.renderObject? m true)) =
      some (some (true, .object 1 [("deep", 2)] true, true, 2, none, false, "_2",
        .object 2 [("value", 0)] false, none)) := by
    cbv
  obtain ⟨g, hg, hvalue⟩ := Option.map_eq_some_iff.mp hrun
  obtain ⟨d, hd, hvalue⟩ := Option.bind_eq_some_iff.mp hvalue
  obtain ⟨e, he, hvalue⟩ := Option.bind_eq_some_iff.mp hvalue
  obtain ⟨m, hm, hvalue⟩ := Option.map_eq_some_iff.mp hvalue
  simp only [Prod.mk.injEq] at hvalue
  obtain ⟨hobject, hkind, hinternal, howner, hstatement, hthrough, hname, hkind', hnone⟩ := hvalue
  have hnamed : g.Named 2 := .inr ⟨1, d, 1, _, hd, hobject, hkind, List.mem_singleton.mpr rfl⟩
  exact ⟨g, e, m, built_whole hg, hnamed, hinternal, howner, he, hstatement, hthrough, hname, hkind', hm,
    hnone⟩

end Graph

end Treeshake
