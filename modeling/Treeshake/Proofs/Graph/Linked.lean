import Treeshake.Proofs.Graph.Bind
import Treeshake.Proofs.Module.Fresh
/-!
Linked graphs. Main statement: in the graph that comes from binding modules nothing is marked, and all it
names is there.
-/
set_option autoImplicit false

namespace Treeshake

namespace Graph

/-- Fresh modules whose sources lead to modules and external modules that there are. -/
structure Fetched (modules : List (Module × Table Target)) (externals : List External) : Prop where
  fresh : ∀ e ∈ modules, e.1.Fresh
  sources : ∀ e ∈ modules, ∀ s t, e.2.get? s = some t → s ∈ e.1.sources
  inside : ∀ e ∈ modules, ∀ s i, e.2.get? s = some (.inside i) → i < modules.length
  outside : ∀ e ∈ modules, ∀ s i, e.2.get? s = some (.outside i) → i < externals.length
  unused : ∀ e ∈ externals, e.declarations = []

theorem Fetched.of_inside {modules : List (Module × Table Target)} (hfresh : ∀ e ∈ modules, e.1.Fresh)
    (htargets : ∀ e ∈ modules, ∀ p ∈ e.2, p.1 ∈ e.1.sources ∧ ∃ i < modules.length, p.2 = .inside i) :
    Fetched modules [] where
  fresh := hfresh
  sources e he s t h := (htargets e he _ (lookup_mem h)).1
  inside e he s i h := by
    obtain ⟨-, k, hk, heq⟩ := htargets e he _ (lookup_mem h)
    exact Target.inside.inj heq ▸ hk
  outside e he s i h := by
    obtain ⟨-, k, -, heq⟩ := htargets e he _ (lookup_mem h)
    cases heq
  unused e he := by cases he

def wholeModule (id : String) (kind : StatementKind) (references : List Reference)
    (imports : Table ImportSpecifier) (exports : Table ExportSpecifier) (bindings : List TopBinding) :
    Module where
  id
  code := []
  firstCode := ""
  maps := []
  draft := Draft.ofText ""
  statements := [{
    kind, start := 0, stop := 0, next := 0, nodeStart := 0, references
    effects := { calls := !references.isEmpty } }]
  scopes := {}
  imports
  exports
  reexports := []
  starSources := []
  sources := imports.values.map (·.source)
  bindings

/-- A graph whose references have been bound. -/
def Linked (g : Graph) : Prop :=
  ∃ modules externals stats, Fetched modules externals ∧
    bind.run (ofModules modules externals) = .ok (stats, g)

structure Linking (next module : Nat) (ms : List (Module × Table Target)) (linked : List LinkedModule)
    (declared : List Declaration) : Prop where
  length : linked.length = ms.length
  modules : ∀ (i : Nat) (m : LinkedModule), linked[i]? = some m → ∃ e, ms[i]? = some e ∧
    m.toModule = e.1 ∧ m.targets = e.2 ∧ m.object = none
  own : ∀ (i : Nat) (m : LinkedModule), linked[i]? = some m → ∀ name id, (name, id) ∈ m.declarations →
    next ≤ id ∧ ∃ d : Declaration, declared[id - next]? = some d ∧
      ∀ r, d.statement = some r → r.module = module + i
  kind : ∀ d ∈ declared, d.kind = .binding ∨ d.kind = .defaultValue none
  plain : ∀ d ∈ declared, d.used = false ∧ d.aliases = []
  placed : ∀ d ∈ declared, ∀ r, d.statement = some r → ∃ i e, ms[i]? = some e ∧
    r.module = module + i ∧ r.index < e.1.statements.length

theorem mem_declareBindings {next module : Nat} {m : Module} {name : String} {id : Nat}
    (h : (name, id) ∈ (declareBindings next module m).1) :
    next ≤ id ∧ ∃ d : Declaration, (declareBindings next module m).2[id - next]? = some d ∧
      ∀ r, d.statement = some r → r.module = module := by
  obtain ⟨i, hi, heq⟩ := List.mem_mapIdx.mp h
  obtain ⟨-, rfl⟩ := Prod.mk.inj heq
  refine ⟨by omega, ?_⟩
  rw [Nat.add_sub_cancel_left, declareBindings, List.getElem?_map, List.getElem?_eq_getElem hi]
  refine ⟨_, rfl, fun r hr => ?_⟩
  obtain ⟨index, -, rfl⟩ := Option.map_eq_some_iff.mp hr
  rfl

theorem linkAll_cons (next module : Nat) (m : Module) (targets : Table Target)
    (ms : List (Module × Table Target)) : linkAll next module ((m, targets) :: ms) =
      let declared := (declareBindings next module m).2
      ({ m with targets, declarations := (declareBindings next module m).1 } ::
        (linkAll (next + declared.length) (module + 1) ms).1,
        declared ++ (linkAll (next + declared.length) (module + 1) ms).2) := rfl

theorem linking (next module : Nat) (ms : List (Module × Table Target)) (hms : ∀ e ∈ ms, e.1.Fresh) :
    Linking next module ms (linkAll next module ms).1 (linkAll next module ms).2 := by
  induction ms generalizing next module with
  | nil => exact ⟨rfl, by simp [linkAll], by simp [linkAll], by simp [linkAll], by simp [linkAll],
      by simp [linkAll]⟩
  | cons e ms ih =>
    obtain ⟨m, targets⟩ := e
    have ih := ih (next + (declareBindings next module m).2.length) (module + 1)
      fun e he => hms e (List.mem_cons_of_mem _ he)
    have hfresh := hms (m, targets) List.mem_cons_self
    have hmem : ∀ d ∈ (declareBindings next module m).2, ∃ b ∈ m.bindings, d = {
        name := b.name
        kind := if b.key == "default" then .defaultValue none else .binding
        statement := b.statement.map fun index => ⟨module, index⟩ } := by
      intro d hd
      obtain ⟨b, hb, rfl⟩ := List.mem_map.mp hd
      exact ⟨b, hb, rfl⟩
    rw [linkAll_cons]
    refine ⟨?_, ?_, ?_, ?_, ?_, ?_⟩
    · simp [ih.length]
    · intro i l hl
      cases i with
      | zero =>
        obtain rfl := Option.some.inj hl
        exact ⟨(m, targets), rfl, rfl, rfl, rfl⟩
      | succ i => exact ih.modules i l hl
    · intro i l hl name id hid
      cases i with
      | zero =>
        obtain rfl := Option.some.inj hl
        obtain ⟨hle, d, hd, hr⟩ := mem_declareBindings hid
        refine ⟨hle, d, ?_, hr⟩
        exact (List.getElem?_append_left (List.getElem?_eq_some_iff.mp hd).1).trans hd
      | succ i =>
        obtain ⟨hle, d, hd, hr⟩ := ih.own i l hl name id hid
        refine ⟨by omega, d, ?_, fun r h => (hr r h).trans (by omega)⟩
        rw [List.getElem?_append_right (by omega), ← hd, Nat.sub_sub]
    · intro d hd
      rcases List.mem_append.mp hd with hd | hd
      · obtain ⟨b, -, rfl⟩ := hmem d hd
        dsimp only
        split
        · exact .inr rfl
        · exact .inl rfl
      · exact ih.kind d hd
    · intro d hd
      rcases List.mem_append.mp hd with hd | hd
      · obtain ⟨b, -, rfl⟩ := hmem d hd
        exact ⟨rfl, rfl⟩
      · exact ih.plain d hd
    · intro d hd r hr
      rcases List.mem_append.mp hd with hd | hd
      · obtain ⟨b, hb, rfl⟩ := hmem d hd
        obtain ⟨index, hindex, rfl⟩ := Option.map_eq_some_iff.mp hr
        exact ⟨0, (m, targets), rfl, rfl, hfresh.placed b hb index hindex⟩
      · obtain ⟨i, e, he, hmodule, hindex⟩ := ih.placed d hd r hr
        exact ⟨i + 1, e, he, by omega, hindex⟩

/-- A graph before its references are bound, but with its star exports. -/
def starred (modules : List (Module × Table Target)) (externals : List External) : Graph :=
  let g := ofModules modules externals
  { g with modules := g.modules.map (·.bindStars) }

section
variable {modules : List (Module × Table Target)} {externals : List External}

theorem module_starred (hf : Fetched modules externals) {i : Nat} {m : LinkedModule}
    (hm : (starred modules externals).modules[i]? = some m) :
    ∃ e l, modules[i]? = some e ∧ (linkAll 0 0 modules).1[i]? = some l ∧ m = l.bindStars ∧
      l.toModule = e.1 ∧ l.targets = e.2 ∧ l.object = none := by
  rw [starred, ofModules, List.getElem?_map] at hm
  obtain ⟨l, hl, rfl⟩ := Option.map_eq_some_iff.mp hm
  obtain ⟨e, he, h⟩ := (linking 0 0 modules hf.fresh).modules i l hl
  exact ⟨e, l, he, hl, rfl, h⟩

theorem mem_routes_starred (hf : Fetched modules externals) {m : Routes}
    (hm : m ∈ (starred modules externals).routes) :
    ∃ e ∈ modules, m.targets = e.2 ∧ ∀ t ∈ m.stars, ∃ s, m.targets.get? s = some t := by
  obtain ⟨i, hi⟩ := List.mem_iff_getElem?.mp hm
  rw [getElem?_routes] at hi
  obtain ⟨m', hm', rfl⟩ := Option.map_eq_some_iff.mp hi
  obtain ⟨e, l, he, -, rfl, -, htargets, -⟩ := module_starred hf hm'
  refine ⟨e, List.mem_of_getElem? he, htargets, fun t ht => ?_⟩
  obtain ⟨s, -, hs⟩ := List.mem_filterMap.mp ht
  exact ⟨s, hs⟩

theorem length_routes_starred (hf : Fetched modules externals) :
    (starred modules externals).routes.length = modules.length := by
  rw [length_routes, starred, ofModules, List.length_map]
  exact (linking 0 0 modules hf.fresh).length

theorem ranged_starred (hf : Fetched modules externals) :
    Ranged (starred modules externals).routes externals.length where
  inside m hm s i hs := by
    obtain ⟨e, he, htargets, -⟩ := mem_routes_starred hf hm
    rw [length_routes_starred hf]
    exact hf.inside e he s i (htargets ▸ hs)
  outside m hm s i hs := by
    obtain ⟨e, he, htargets, -⟩ := mem_routes_starred hf hm
    exact hf.outside e he s i (htargets ▸ hs)
  stars m hm := by
    obtain ⟨e, -, -, hstars⟩ := mem_routes_starred hf hm
    exact hstars

theorem entity?_starred (hf : Fetched modules externals) {id : Nat} {e : Entity}
    (he : (starred modules externals).entity? id = some e) : e = .own id := by
  obtain ⟨d, hd, rfl⟩ := Option.map_eq_some_iff.mp he
  have hkind := (linking 0 0 modules hf.fresh).kind d (List.mem_of_getElem? hd)
  rw [Declaration.entity]
  rcases hkind with hkind | hkind <;> rw [hkind]

theorem sound_starred (hf : Fetched modules externals) : (starred modules externals).Sound where
  own i m name id hm hid := by
    rw [getElem?_routes] at hm
    obtain ⟨m', hm', rfl⟩ := Option.map_eq_some_iff.mp hm
    obtain ⟨e, l, -, hl, rfl, -, -, -⟩ := module_starred hf hm'
    obtain ⟨-, d, hd, hr⟩ := (linking 0 0 modules hf.fresh).own i l hl name id hid
    have hget : (starred modules externals).declarations[id]? = some d := hd
    refine ⟨d, hget, ?_, fun r h => by simpa using hr r h⟩
    exact entity?_starred hf (by rw [entity?, hget, Option.map_some])
  object i id := by
    have hnone : (starred modules externals).objectOf i = none := by
      unfold objectOf
      cases hm : (starred modules externals).modules[i]? with
      | none => rfl
      | some m =>
        obtain ⟨e, l, -, -, rfl, -, -, hobject⟩ := module_starred hf hm
        exact hobject
    rw [hnone]
    refine ⟨fun h => (by cases h), fun h => ?_⟩
    cases entity?_starred hf h
  external e name id := by
    have hnone : (starred modules externals).externalId? e name = none := by
      unfold externalId?
      cases hx : (starred modules externals).externals[e]? with
      | none => rfl
      | some x =>
        have hmem : x ∈ externals := List.mem_of_getElem? hx
        simp [hf.unused x hmem, Table.get?]
    rw [hnone]
    refine ⟨fun h => (by cases h), fun h => ?_⟩
    cases entity?_starred hf h

theorem statement_starred (hf : Fetched modules externals) {r : StatementRef} {s : Statement}
    (hs : (starred modules externals).statement? r = some s) :
    ∃ e ∈ modules, s ∈ e.1.statements := by
  obtain ⟨m, hm, hs⟩ := Option.bind_eq_some_iff.mp hs
  obtain ⟨e, l, he, -, rfl, hmodule, -, -⟩ := module_starred hf hm
  exact ⟨e, List.mem_of_getElem? he, hmodule ▸ List.mem_of_getElem? hs⟩

theorem wired_starred (hf : Fetched modules externals) :
    Wired (starred modules externals).routes externals.length (starred modules externals) where
  fits := ⟨rfl, rfl, sound_starred hf⟩
  complete id d i members v hd hkind _ := by
    rcases (linking 0 0 modules hf.fresh).kind d (List.mem_of_getElem? hd) with h | h <;>
      simp [h] at hkind
  unused id d hd := ((linking 0 0 modules hf.fresh).plain d (List.mem_of_getElem? hd)).1
  placed id d r hd hr := by
    obtain ⟨i, e, he, hmodule, hindex⟩ :=
      (linking 0 0 modules hf.fresh).placed d (List.mem_of_getElem? hd) r hr
    have hbound : i < (starred modules externals).modules.length := by
      rw [← length_routes, length_routes_starred hf]
      exact (List.getElem?_eq_some_iff.mp he).1
    have hm := List.getElem?_eq_getElem hbound
    obtain ⟨e', l, he', -, hl, hmodule', -, -⟩ := module_starred hf hm
    obtain rfl := Option.some.inj (he.symm.trans he')
    have hindex' : r.index < l.bindStars.statements.length := by
      rw [← hmodule'] at hindex
      exact hindex
    refine ⟨l.bindStars.statements[r.index], ?_⟩
    rw [Graph.statement?, hmodule, Nat.zero_add, hm, hl]
    exact List.getElem?_eq_getElem hindex'
  owned id d r hd _ := entity?_starred hf (by rw [entity?, hd, Option.map_some])
  named id k d hd hk := by
    have hmem := List.mem_of_getElem? hd
    rw [((linking 0 0 modules hf.fresh).plain d hmem).2, Declaration.standsFor] at hk
    rcases (linking 0 0 modules hf.fresh).kind d hmem with h | h <;> simp [h] at hk
  unmarked r s hs := by
    obtain ⟨e, he, hmem⟩ := statement_starred hf hs
    exact (hf.fresh e he).unmarked s hmem
  bound r s hs x hx id hid := by
    obtain ⟨e, he, hmem⟩ := statement_starred hf hs
    rw [Reference.declaration?, (hf.fresh e he).unbound s hmem x hx] at hid
    cases hid
  sources i m hm s t ht := by
    obtain ⟨e, l, he, -, rfl, hmodule, htargets, -⟩ := module_starred hf hm
    have hsources : l.bindStars.sources = e.1.sources := congrArg Module.sources hmodule
    rw [hsources]
    exact hf.sources e (List.mem_of_getElem? he) s t (htargets ▸ ht)

end

theorem Linked.wired {g : Graph} (hg : g.Linked) : ∃ R n, Ranged R n ∧ Wired R n g := by
  obtain ⟨modules, externals, stats, hf, hrun⟩ := hg
  exact ⟨_, _, ranged_starred hf, wired_bind (ranged_starred hf) (wired_starred hf) hrun⟩

end Graph

end Treeshake
