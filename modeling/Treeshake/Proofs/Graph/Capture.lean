import Mathlib
import Treeshake.Graph.Render
import Treeshake.Proofs.Graph.Built
import Treeshake.Proofs.Scope.Displace
/-!
The names of references in the output. Main statement: where the names that make room for others meet
nothing, every reference has the name of what it is bound to, and still leads there.
-/
set_option autoImplicit false

namespace Treeshake

namespace Reference

structure Plain (r : Reference) : Prop where
  undotted : '.' ∉ r.name.toList
  accesses : ∀ a ∈ r.accesses, '.' ∉ a.name.toList ∧ r.start + a.name.utf8ByteSize < a.stop

def IsWhole (r : Reference) : Prop := r.name.utf8ByteSize = r.stop - r.start

/-- A reference is bound as the scopes around it have it. -/
structure Resolved (f : ScopeForest) (r : Reference) : Prop where
  inner : r.binding = .inner → f.containsLocal r.scope r.name = true
  global : r.binding = .global → f.containsLocal r.scope r.name = false
  declared : r.declaration?.isSome → r.IsWhole → f.containsLocal r.scope r.name = false

variable {f : ScopeForest} {r r' : Reference}

theorem Resolved.of_unbound (h : r.binding = .unbound) : r.Resolved f := by
  refine ⟨fun hi => ?_, fun hg => ?_, fun hd => ?_⟩
  · rw [h] at hi
    cases hi
  · rw [h] at hg
    cases hg
  · rw [declaration?, h] at hd
    cases hd

theorem Plain.of_bare (rs : List Reference) (h : ∀ r ∈ rs, '.' ∉ r.name.toList ∧ r.accesses = []) :
    ∀ r ∈ rs, r.Plain := by
  intro r hr
  refine ⟨(h r hr).1, fun a ha => ?_⟩
  rw [(h r hr).2] at ha
  cases ha

theorem Plain.narrowed (h : r.Plain) (hn : r.Narrowed r.accesses r') : r'.Plain := by
  cases hn with
  | whole id => exact ⟨h.undotted, h.accesses⟩
  | member a rest id ha hrest =>
    exact ⟨(h.accesses a ha).1, fun b hb => h.accesses b (hrest hb)⟩

theorem Plain.resolved_narrowed (h : r.Plain) (hlocal : f.containsLocal r.scope r.name = false)
    (hn : r.Narrowed r.accesses r') : r'.Resolved f := by
  cases hn with
  | whole id => exact ⟨nofun, nofun, fun _ _ => hlocal⟩
  | member a rest id ha hrest =>
    refine ⟨nofun, nofun, fun _ hwhole => ?_⟩
    have hbehind := (h.accesses a ha).2
    change a.name.utf8ByteSize = a.stop - r.start at hwhole
    omega

end Reference

namespace Graph

theorem lasting_resolved : Lasting fun _ f r => r.Plain ∧ r.Resolved f where
  steady _ h := h
  became := by
    rintro h f r r' ⟨hplain, -⟩ hbecame -
    cases hbecame with
    | inner hlocal => exact ⟨⟨hplain.undotted, hplain.accesses⟩, fun _ => hlocal, nofun, nofun⟩
    | global hlocal => exact ⟨⟨hplain.undotted, hplain.accesses⟩, nofun, fun _ => hlocal, nofun⟩
    | declared hlocal hn => exact ⟨hplain.narrowed hn, hplain.resolved_narrowed hlocal hn⟩

variable {g h : Graph} {m : LinkedModule} {es6 : Bool} {references : List Reference} {r : Reference}
  {i : Nat}

/-- The name of a reference in the output, among the references of its statement. -/
def emitted (g : Graph) (m : LinkedModule) (es6 : Bool) (references : List Reference) (r : Reference) :
    String :=
  (g.newName? es6 r).getD (displaced (g.captured m es6 references) r.name)

/-- The references that get a name put in their place: first those bound to declarations of another name,
then those that make room for them. -/
def changed (g : Graph) (m : LinkedModule) (es6 : Bool) (references : List Reference) : List Reference :=
  references.filter (fun r => (g.newName? es6 r).isSome) ++
    references.filter fun r => (g.newName? es6 r).isNone && (g.captured m es6 references).contains r.name

theorem replaceReferences_eq (g : Graph) (m : LinkedModule) (es6 : Bool) (s : Statement) (d : Draft) :
    g.replaceReferences m es6 s d = (g.changed m es6 s.references).foldlM
      (fun d r => substitute d r (g.emitted m es6 s.references r)) d := by
  rw [changed, List.foldlM_append, List.foldlM_filter, replaceReferences]
  refine congrArg₂ (· >>= ·) (congrArg (fun f => s.references.foldlM f d) ?_) (funext fun d => ?_)
  · funext d r
    rw [emitted]
    cases g.newName? es6 r <;> rfl
  · rw [List.foldlM_filter]
    refine congrArg (fun f => s.references.foldlM f d) ?_
    funext d r
    rw [emitted, displaced]
    cases g.newName? es6 r with
    | some name => rfl
    | none =>
      simp only [Option.isNone_none, Bool.true_and, Option.getD_none]
      by_cases hc : (g.captured m es6 s.references).contains r.name = true
      · rw [if_pos hc, if_pos hc, if_pos hc]
      · rw [if_neg hc, if_neg hc]
        rfl

theorem emitted_of_notMem_changed (hr : r ∈ references) (hc : r ∉ g.changed m es6 references) :
    g.emitted m es6 references r = r.name := by
  rw [changed, List.mem_append, List.mem_filter, List.mem_filter, not_or] at hc
  cases hn : g.newName? es6 r with
  | some name => exact absurd ⟨hr, by rw [hn]; rfl⟩ hc.1
  | none =>
    rw [emitted, hn, Option.getD_none]
    refine displaced_of_notMem fun hmem => hc.2 ⟨hr, ?_⟩
    rw [hn, List.contains_iff_mem.mpr hmem]
    rfl

theorem newName?_eq_some {name : String} (h : g.newName? es6 r = some name) :
    ∃ id, r.declaration? = some id ∧ name = g.renderName id es6 := by
  obtain ⟨id, hid, hname⟩ := Option.bind_eq_some_iff.mp h
  dsimp only at hname
  split at hname
  · cases hname
  · exact ⟨id, hid, (Option.some.inj hname).symm⟩

theorem newName?_eq_none {id : Nat} (hid : r.declaration? = some id) (h : g.newName? es6 r = none) :
    r.name = g.renderName id es6 ∧ r.IsWhole := by
  rw [newName?, hid, Option.bind_some] at h
  dsimp only at h
  split at h
  · next hkept =>
    rw [Bool.and_eq_true, beq_iff_eq, beq_iff_eq] at hkept
    exact ⟨hkept.1, (congrArg String.utf8ByteSize hkept.1).trans hkept.2⟩
  · cases h

theorem newName?_of_not_declared (h : r.declaration? = none) : g.newName? es6 r = none := by
  rw [newName?, h, Option.bind_none]

/-- A reference to a declaration gets its name, unless it has that name and makes room for another. -/
theorem emitted_eq_renderName_iff {id : Nat} (hid : r.declaration? = some id) :
    g.emitted m es6 references r = g.renderName id es6 ↔
      (g.newName? es6 r = none → r.name ∉ g.captured m es6 references) := by
  cases hn : g.newName? es6 r with
  | some name =>
    obtain ⟨id', hid', rfl⟩ := newName?_eq_some hn
    obtain rfl := Option.some.inj (hid.symm.trans hid')
    rw [emitted, hn]
    exact ⟨fun _ => nofun, fun _ => rfl⟩
  | none =>
    rw [emitted, hn, Option.getD_none, ← (newName?_eq_none hid hn).1]
    constructor
    · intro heq _ hmem
      rw [displaced_of_mem hmem] at heq
      have hlength := congrArg String.length heq
      simp at hlength
    · exact fun hn => displaced_of_notMem (hn rfl)

/-- The names that make room for others meet nothing: only local references keep a captured name, and
what is put behind one gives a name that no scope and no reference has. -/
def Apart (g : Graph) (m : LinkedModule) (es6 : Bool) (references : List Reference) : Prop :=
  (∀ r ∈ references, g.newName? es6 r = none → r.name ∈ g.captured m es6 references →
    r.binding = .inner) ∧
  ∀ c ∈ g.captured m es6 references, (∀ s ∈ m.scopes.scopes, c ++ "$$" ∉ s.names) ∧
    ∀ r ∈ references, leadingIdentifier ((g.newName? es6 r).getD r.name) ≠ c ++ "$$"

instance : Decidable (g.Apart m es6 references) := inferInstanceAs (Decidable (_ ∧ _))

theorem Apart.declares {c : String} (h : g.Apart m es6 references) (hc : c ∈ g.captured m es6 references)
    (s : Nat) : m.scopes.declares s (c ++ "$$") = false := by
  refine Bool.eq_false_iff.mpr fun hd => ?_
  rw [ScopeForest.declares_iff, ScopeForest.names] at hd
  cases hs : m.scopes.scopes[s]? with
  | none => simp [hs] at hd
  | some x =>
    rw [hs, Option.map_some, Option.getD_some] at hd
    exact (h.2 c hc).1 x (List.mem_of_getElem? hs) hd

theorem leadingIdentifier_of_undotted {name : String} (h : '.' ∉ name.toList) :
    leadingIdentifier name = name := by
  have hall : name.toList.takeWhile (· != '.') = name.toList := by
    rw [List.takeWhile_eq_self_iff]
    exact fun c hc => bne_iff_ne.mpr fun heq => h (heq ▸ hc)
  rw [leadingIdentifier, hall, String.ofList_toList]

/-- A new name that a local one would capture is captured. -/
theorem mem_captured {name : String} (hr : r ∈ references) (hn : g.newName? es6 r = some name)
    (hlocal : m.scopes.containsLocal r.scope (leadingIdentifier name) = true) :
    leadingIdentifier name ∈ g.captured m es6 references := by
  refine List.mem_filterMap.mpr ⟨r, hr, ?_⟩
  rw [hn, Option.bind_some]
  exact if_pos hlocal

/-- What the output makes of a reference: it has the name of its declaration, which no local name captures;
or the name that its scope now has, as all references to the same have it; or its own name. -/
structure Emits (g : Graph) (m : LinkedModule) (es6 : Bool) (references : List Reference)
    (r : Reference) : Prop where
  declared : ∀ id, r.declaration? = some id →
    g.emitted m es6 references r = g.renderName id es6 ∧
      (m.scopes.displace (g.captured m es6 references)).containsLocal r.scope
        (leadingIdentifier (g.renderName id es6)) = false
  inner : r.binding = .inner → m.scopes.containsLocal r.scope r.name = true ∧
    (m.scopes.displace (g.captured m es6 references)).find? r.scope (g.emitted m es6 references r) =
      m.scopes.find? r.scope r.name ∧
    ∀ r' ∈ references, r'.binding = .inner → r'.name = r.name →
      g.emitted m es6 references r' = g.emitted m es6 references r
  global : r.binding = .global → g.emitted m es6 references r = r.name ∧
    (m.scopes.displace (g.captured m es6 references)).containsLocal r.scope r.name = false

theorem declaration?_of_inner (h : r.binding = .inner) : r.declaration? = none := by
  rw [Reference.declaration?, h]

theorem emitted_of_inner (h : r.binding = .inner) : g.emitted m es6 references r =
    displaced (g.captured m es6 references) r.name := by
  rw [emitted, newName?_of_not_declared (declaration?_of_inner h), Option.getD_none]

theorem Apart.emits (ha : g.Apart m es6 references) (hr : r ∈ references) (hplain : r.Plain)
    (hresolved : r.Resolved m.scopes) : g.Emits m es6 references r where
  declared id hid := by
    have hkept : g.newName? es6 r = none → r.name ∉ g.captured m es6 references := by
      intro hn hmem
      rw [declaration?_of_inner (ha.1 r hr hn hmem)] at hid
      cases hid
    refine ⟨(emitted_eq_renderName_iff hid).mpr hkept, ?_⟩
    have hfresh := fun c hc => (ha.2 c hc).2 r hr
    cases hn : g.newName? es6 r with
    | some name =>
      obtain ⟨id', hid', rfl⟩ := newName?_eq_some hn
      obtain rfl := Option.some.inj (hid.symm.trans hid')
      simp only [hn, Option.getD_some] at hfresh
      exact ScopeForest.containsLocal_displace hfresh (mem_captured hr hn)
    | none =>
      obtain ⟨hname, hwhole⟩ := newName?_eq_none hid hn
      have hleading := leadingIdentifier_of_undotted hplain.undotted
      simp only [hn, Option.getD_none, hleading] at hfresh
      rw [← hname, hleading]
      refine ScopeForest.containsLocal_displace hfresh fun hlocal => ?_
      rw [hresolved.declared (by rw [hid]; rfl) hwhole] at hlocal
      cases hlocal
  inner hinner := by
    refine ⟨hresolved.inner hinner, ?_, fun r' _ hinner' hname => ?_⟩
    · rw [emitted_of_inner hinner]
      exact ScopeForest.find?_displace (hresolved.inner hinner) fun c hc => ha.declares hc
    · rw [emitted_of_inner hinner, emitted_of_inner hinner', hname]
  global hglobal := by
    have hn : g.newName? es6 r = none := by
      refine newName?_of_not_declared ?_
      rw [Reference.declaration?, hglobal]
    have hkept : r.name ∉ g.captured m es6 references := by
      intro hmem
      rw [ha.1 r hr hn hmem] at hglobal
      cases hglobal
    have hfresh : ∀ c ∈ g.captured m es6 references, r.name ≠ c ++ "$$" := by
      intro c hc
      have hleading := (ha.2 c hc).2 r hr
      rwa [hn, Option.getD_none, leadingIdentifier_of_undotted hplain.undotted] at hleading
    refine ⟨by rw [emitted, hn, Option.getD_none, displaced_of_notMem hkept], ?_⟩
    refine ScopeForest.containsLocal_displace hfresh fun hlocal => ?_
    rw [hresolved.global hglobal] at hlocal
    cases hlocal

def PlainModules (modules : List (Module × Table Target)) : Prop :=
  ∀ e ∈ modules, ∀ s ∈ e.1.statements, ∀ r ∈ s.references, r.Plain

section
variable {modules : List (Module × Table Target)} {externals : List External}

theorem Built.resolved (hf : Fetched modules externals) (hp : PlainModules modules)
    (hg : Built modules externals g) (hm : g.modules[i]? = some m) {s : Statement}
    (hs : s ∈ m.statements) (hr : r ∈ s.references) : r.Plain ∧ r.Resolved m.scopes := by
  obtain ⟨stats, l, passes, h, order, hbind, hmark, rfl⟩ := hg
  have hw := wired_bind (ranged_starred hf) (wired_starred hf) hbind
  obtain ⟨hscans, -⟩ := mark_settles (ranged_starred hf) hw hmark
  have hgrown : Grown l h := Scans.grown (ranged_starred hf) hw (.refl l) hscans
  have hlinked := everywhere_linked lasting_resolved hf hbind fun e he s hs r hr hunbound =>
    ⟨hp e he s hs r hr, .of_unbound hunbound⟩
  rw [(renamed_deconflict h order).modules] at hm
  exact (hlinked.idles lasting_resolved hgrown.idles).reference hm hs hr

/-- In a build, the references of a statement get the names put in their place that they are emitted under,
one that is bound to a declaration gets its name unless it has it and makes room for another, and where the
names that make room meet nothing, each reference still leads to what it is bound to. -/
theorem references_lead_where_bound (hf : Fetched modules externals) (hp : PlainModules modules)
    (hg : Built modules externals g) (es6 : Bool) (hm : g.modules[i]? = some m)
    {s : Statement} (hs : s ∈ m.statements) :
    (∀ d, g.replaceReferences m es6 s d = (g.changed m es6 s.references).foldlM
      (fun d r => substitute d r (g.emitted m es6 s.references r)) d) ∧
    (∀ r ∈ s.references, r ∉ g.changed m es6 s.references →
      g.emitted m es6 s.references r = r.name) ∧
    (∀ r ∈ s.references, ∀ id, r.declaration? = some id →
      (g.emitted m es6 s.references r = g.renderName id es6 ↔
        (g.newName? es6 r = none → r.name ∉ g.captured m es6 s.references))) ∧
    (g.Apart m es6 s.references → ∀ r ∈ s.references, g.Emits m es6 s.references r) := by
  refine ⟨replaceReferences_eq g m es6 s, fun r hr => emitted_of_notMem_changed hr,
    fun r _ id hid => emitted_eq_renderName_iff hid, fun ha r hr => ?_⟩
  obtain ⟨hplain, hbound⟩ := hg.resolved hf hp hm hs hr
  exact ha.emits hr hplain hbound

end

def adder : List Reference :=
  [{ name := "x", start := 15, stop := 16, scope := 1 },
    { name := "x", start := 27, stop := 28, scope := 1 },
    { name := "y", start := 31, stop := 32, scope := 1 }]

/-- A module that imports the variable of another under two names, next to a function with a parameter of
the first name, whose body reads the second; `before` is what stands in front of the function. -/
def shadowing (before : List Reference) : List (Module × Table Target) :=
  [({
      id := "main"
      code := []
      firstCode := ""
      maps := []
      draft := Draft.ofText ""
      statements := [
        { kind := .other, start := 0, stop := 0, next := 0, nodeStart := 0,
          references := before ++ adder }]
      scopes := ⟨[⟨none, .statement, []⟩, ⟨some 0, .function, ["x"]⟩]⟩
      imports := [("x", ⟨"./dep", "x", 0⟩), ("y", ⟨"./dep", "x", 0⟩)]
      exports := []
      reexports := []
      starSources := []
      sources := ["./dep"]
      bindings := [] }, [("./dep", .inside 1)]),
    ({
      id := "dep"
      code := []
      firstCode := ""
      maps := []
      draft := Draft.ofText ""
      statements := [
        { kind := .other, start := 0, stop := 0, next := 0, nodeStart := 0, scope := some 0,
          references := [{ name := "x", start := 4, stop := 5, scope := 0 }] }]
      scopes := ⟨[⟨none, .statement, ["x"]⟩]⟩
      imports := []
      exports := [("x", ⟨"x", none, 0⟩)]
      reexports := []
      starSources := []
      sources := []
      bindings := [⟨"x", "x", some 0⟩] }, [])]

def importedArgument : Reference := { name := "x", start := 2, stop := 3, scope := 0 }

theorem fetched_shadowing {before : List Reference} (hb : ∀ r ∈ before, r.binding = .unbound) :
    Fetched (shadowing before) [] := by
  have htargets : ∀ e ∈ shadowing before, ∀ s t, e.2.get? s = some t → s ∈ e.1.sources ∧ t = .inside 1 := by
    intro e he s t h
    have hmem := lookup_mem h
    rcases List.mem_cons.mp he with rfl | he
    · obtain ⟨rfl, rfl⟩ := Prod.mk.inj (List.mem_singleton.mp hmem)
      exact ⟨List.mem_singleton.mpr rfl, rfl⟩
    · obtain rfl := List.mem_singleton.mp he
      cases hmem
  refine ⟨fun e he => ?_, fun e he s t h => (htargets e he s t h).1, fun e he s i h => ?_,
    fun e he s i h => ?_, nofun⟩
  · rcases List.mem_cons.mp he with rfl | he
    · refine ⟨fun s hs => ?_, fun s hs r hr => ?_, nofun⟩
      · obtain rfl := List.mem_singleton.mp hs
        rfl
      · obtain rfl := List.mem_singleton.mp hs
        rcases List.mem_append.mp hr with hr | hr
        · exact hb r hr
        · exact (by decide : ∀ r ∈ adder, r.binding = .unbound) r hr
    · obtain rfl := List.mem_singleton.mp he
      exact ⟨by decide, by decide, by decide⟩
  · obtain rfl := Target.inside.inj (htargets e he s _ h).2
    exact Nat.lt_succ_self 1
  · cases (htargets e he s _ h).2

theorem plain_shadowing {before : List Reference} (hb : ∀ r ∈ before, r.Plain) :
    PlainModules (shadowing before) := by
  intro e he s hs r hr
  rcases List.mem_cons.mp he with rfl | he
  · obtain rfl := List.mem_singleton.mp hs
    rcases List.mem_append.mp hr with hr | hr
    · exact hb r hr
    · exact .of_bare adder (by decide) r hr
  · obtain rfl := List.mem_singleton.mp he
    obtain rfl := List.mem_singleton.mp hs
    exact .of_bare _ (by decide) r hr

def shadowed (before : List Reference) : Option (Graph × LinkedModule × Statement) := do
  let (_, g) ← (bind.run (ofModules (shadowing before) [])).toOption
  let (_, h) ← (mark.run g).toOption
  let k := (h.deconflict [1, 0]).1
  let m ← k.modules[0]?
  let s ← m.statements[0]?
  return (k, m, s)

theorem built_shadowed {before : List Reference} {k : Graph} {m : LinkedModule} {s : Statement}
    (h : shadowed before = some (k, m, s)) :
    Built (shadowing before) [] k ∧ k.modules[0]? = some m ∧ s ∈ m.statements := by
  simp only [shadowed, Option.bind_eq_bind, Option.bind_eq_some_iff] at h
  obtain ⟨⟨stats, g⟩, hbind, ⟨passes, h⟩, hmark, m', hm, s', hs, heq⟩ := h
  obtain ⟨rfl, rfl, rfl⟩ : _ ∧ _ ∧ _ := by simpa using heq
  exact ⟨⟨stats, g, passes, h, [1, 0], ok_of_toOption hbind, ok_of_toOption hmark, rfl⟩, hm,
    List.mem_of_getElem? hs⟩

theorem references_lead_where_bound_shadowing : ∃ g m s, Built (shadowing []) [] g ∧
    g.modules[0]? = some m ∧ s ∈ m.statements ∧
    s.references.map (g.emitted m true s.references) = ["x$$", "x$$", "x"] ∧
    ∀ r ∈ s.references, g.Emits m true s.references r := by
  have hrun : (shadowed []).map (fun p => (decide (p.1.Apart p.2.1 true p.2.2.references),
      p.2.2.references.map (p.1.emitted p.2.1 true p.2.2.references))) =
      some (true, ["x$$", "x$$", "x"]) := by
    cbv
  obtain ⟨⟨g, m, s⟩, hshadowed, hvalue⟩ := Option.map_eq_some_iff.mp hrun
  obtain ⟨hapart, hnames⟩ := Prod.mk.inj hvalue
  obtain ⟨hg, hm, hs⟩ := built_shadowed hshadowed
  exact ⟨g, m, s, hg, hm, hs, hnames, (references_lead_where_bound (fetched_shadowing (List.forall_mem_nil _))
    (plain_shadowing (List.forall_mem_nil _)) hg true hm hs).2.2.2 (of_decide_eq_true hapart)⟩

/-- Another reference with the name that makes room does so too, although it is bound to a declaration. -/
theorem captured_argument_leads_nowhere : ∃ g m s, Built (shadowing [importedArgument]) [] g ∧
    g.modules[0]? = some m ∧ s ∈ m.statements ∧ ∃ r ∈ s.references, ∃ id, r.declaration? = some id ∧
    g.renderName id true = "x" ∧ g.emitted m true s.references r = "x$$" := by
  have hrun : (shadowed [importedArgument]).bind (fun p => p.2.2.references[0]?.bind fun r =>
      r.declaration?.map fun id => (p.1.renderName id true, p.1.emitted p.2.1 true p.2.2.references r)) =
      some ("x", "x$$") := by
    cbv
  obtain ⟨⟨g, m, s⟩, hshadowed, hvalue⟩ := Option.bind_eq_some_iff.mp hrun
  obtain ⟨r, hr, hvalue⟩ := Option.bind_eq_some_iff.mp hvalue
  obtain ⟨id, hid, hvalue⟩ := Option.map_eq_some_iff.mp hvalue
  obtain ⟨hname, hemitted⟩ := Prod.mk.inj hvalue
  obtain ⟨hg, hm, hs⟩ := built_shadowed hshadowed
  exact ⟨g, m, s, hg, hm, hs, r, List.mem_of_getElem? hr, id, hid, hname, hemitted⟩

end Graph

end Treeshake
