import Mathlib.Logic.Relation
import Treeshake.Graph.Trace
/-!
How a graph grows. Tracing reads the tables of modules, which stay, and the registers of modules as a whole
and of names of external modules, which only gain entries. Main statement: a graph that has grown keeps
what every declaration is.
-/
set_option autoImplicit false

namespace Treeshake

/-- What tracing reads of a module. -/
structure Routes where
  declarations : Table Nat
  imports : Table ImportSpecifier
  exports : Table ExportSpecifier
  reexports : Table Reexport
  targets : Table Target
  stars : List Target

def LinkedModule.routes (m : LinkedModule) : Routes :=
  ⟨m.declarations, m.imports, m.exports, m.reexports, m.targets, m.stars⟩

def LinkedModule.unasked (m : LinkedModule) : LinkedModule := { m with object := none }

/-- What a declaration is, whatever its number: one that a module's text makes, a module as a whole, or a
name of an external module. -/
inductive Entity where
  | own (id : Nat)
  | whole (module : Nat)
  | outside (external : Nat) (name : String)
  deriving DecidableEq

def Declaration.entity (id : Nat) (d : Declaration) : Entity :=
  match d.kind with
  | .object module _ _ => .whole module
  | .external external name => .outside external name
  | _ => .own id

namespace Graph

def routes (g : Graph) : List Routes := g.modules.map (·.routes)

theorem getElem?_routes (g : Graph) (i : Nat) : g.routes[i]? = g.modules[i]?.map (·.routes) := by
  simp [routes]

theorem length_routes (g : Graph) : g.routes.length = g.modules.length := by simp [routes]

theorem getElem?_modify_eq {α : Type} (l : List α) (i j : Nat) (f : α → α) :
    (l.modify i f)[j]? = if i = j then l[j]?.map f else l[j]? := by
  rw [List.getElem?_modify]
  split <;> simp

theorem map_modify_of_eq {α β : Type} {f : α → α} {p : α → β} (hf : ∀ a, p (f a) = p a) (l : List α)
    (i : Nat) : (l.modify i f).map p = l.map p := by
  refine List.ext_getElem? fun j => ?_
  simp only [List.getElem?_map, List.getElem?_modify]
  cases l[j]? <;> split <;> simp [hf]

theorem countP_lt {α : Type} {p q : α → Bool} {l : List α} (hpq : ∀ a, p a = true → q a = true)
    {a : α} (ha : a ∈ l) (hp : p a = false) (hq : q a = true) : l.countP p < l.countP q := by
  induction l with
  | nil => cases ha
  | cons b l ih =>
    have hle : l.countP p ≤ l.countP q := List.countP_mono_left fun a _ => hpq a
    rw [List.countP_cons, List.countP_cons]
    rcases List.mem_cons.mp ha with rfl | ha
    · rw [if_neg (by simp [hp]), if_pos hq]
      omega
    · have hlt := ih ha
      by_cases hb : p b = true
      · rw [if_pos hb, if_pos (hpq b hb)]
        omega
      · rw [if_neg hb]
        omega

theorem routes_modifyModule {g : Graph} {i : Nat} {f : LinkedModule → LinkedModule}
    (hf : ∀ m, (f m).routes = m.routes) : (g.modifyModule i f).routes = g.routes :=
  map_modify_of_eq hf g.modules i

theorem collectExports_congr {g h : Graph} (hr : g.routes = h.routes) (fuel module : Nat)
    (withDefault : Bool) (found : List Nat × List String) :
    g.collectExports fuel module withDefault found =
      h.collectExports fuel module withDefault found := by
  induction fuel generalizing module withDefault found with
  | zero => rfl
  | succ fuel ih =>
    obtain ⟨visited, names⟩ := found
    have hm : g.modules[module]?.map (·.routes) = h.modules[module]?.map (·.routes) := by
      rw [← getElem?_routes, hr, getElem?_routes]
    cases hg : g.modules[module]? with
    | none =>
      cases hh : h.modules[module]? with
      | none => simp [collectExports, hg, hh]
      | some m => simp [hg, hh] at hm
    | some m =>
      cases hh : h.modules[module]? with
      | none => simp [hg, hh] at hm
      | some m' =>
        simp [hg, hh, LinkedModule.routes] at hm
        simp [collectExports, hg, hh, hm, ih]

theorem exportNames_congr {g h : Graph} (hr : g.routes = h.routes) (module : Nat) :
    g.exportNames module = h.exportNames module := by
  rw [exportNames, exportNames, collectExports_congr hr, ← length_routes, hr, length_routes]

theorem traceBound_congr {g h : Graph} (hr : g.routes = h.routes) : g.traceBound = h.traceBound := by
  have hentries : ∀ k : Graph,
      (k.modules.flatMap fun m => m.imports.keys ++ m.exports.keys ++ m.reexports.keys) =
        k.routes.flatMap fun m => m.imports.keys ++ m.exports.keys ++ m.reexports.keys := by
    intro k
    rw [routes, List.flatMap_map]
    rfl
  rw [traceBound, traceBound, hentries, hentries, ← length_routes, hr, length_routes]

def entity? (g : Graph) (id : Nat) : Option Entity := g.declarations[id]?.map (·.entity id)

theorem object_of_entity {g : Graph} {id i : Nat} {d : Declaration} (hd : g.declarations[id]? = some d)
    (he : g.entity? id = some (.whole i)) : ∃ members v, d.kind = .object i members v := by
  rw [entity?, hd, Option.map_some] at he
  have hentity := Option.some.inj he
  unfold Declaration.entity at hentity
  cases hkind : d.kind <;> simp [hkind] at hentity
  exact ⟨_, _, by rw [hentity]⟩

def objectOf (g : Graph) (module : Nat) : Option Nat := g.modules[module]?.bind (·.object)

def externalId? (g : Graph) (external : Nat) (name : String) : Option Nat :=
  g.externals[external]?.bind fun e => e.declarations.get? name

def namesExports (g : Graph) (external : Nat) : Bool := g.externals[external]?.any (·.exportsNames)

/-- All that tracing has found in one graph it finds again in the other. -/
structure Later (g h : Graph) : Prop where
  routes : h.routes = g.routes
  externals : h.externals.length = g.externals.length
  object : ∀ i id, g.objectOf i = some id → h.objectOf i = some id
  external : ∀ e name id, g.externalId? e name = some id → h.externalId? e name = some id
  names : ∀ e, g.namesExports e = true → h.namesExports e = true
  entity : ∀ id e, g.entity? id = some e → h.entity? id = some e

theorem Later.refl (g : Graph) : Later g g :=
  ⟨rfl, rfl, fun _ _ h => h, fun _ _ _ h => h, fun _ h => h, fun _ _ h => h⟩

theorem Later.trans {g h k : Graph} (h₁ : Later g h) (h₂ : Later h k) : Later g k where
  routes := h₂.routes.trans h₁.routes
  externals := h₂.externals.trans h₁.externals
  object i id ho := h₂.object i id (h₁.object i id ho)
  external e name id he := h₂.external e name id (h₁.external e name id he)
  names e hn := h₂.names e (h₁.names e hn)
  entity id e he := h₂.entity id e (h₁.entity id e he)

def baseNames (g : Graph) : List String := g.modules.map fun m => m.baseName

theorem baseNames_congr {g h : Graph}
    (hm : h.modules.map LinkedModule.unasked = g.modules.map LinkedModule.unasked) : h.baseNames = g.baseNames := by
  have hnames := congrArg (List.map fun m : LinkedModule => m.baseName) hm
  rw [List.map_map, List.map_map] at hnames
  exact hnames

/-- A declaration that only tracing makes: nothing uses it yet, it needs no statement, and one of a module as a
whole is called as the module's file is. -/
structure Passive (bases : List String) (d : Declaration) : Prop where
  used : d.used = false
  aliases : d.aliases = []
  statement : d.statement = none
  kind : ∀ id, d.entity id ≠ .own id
  name : d.isExternal = true ∨ d.name ∈ bases

/-- Growth by tracing: everything else stays as it is. -/
structure Extends (g h : Graph) : Prop where
  later : Later g h
  modules : h.modules.map LinkedModule.unasked = g.modules.map LinkedModule.unasked
  declarations : ∃ new, h.declarations = g.declarations ++ new ∧ ∀ d ∈ new, Passive g.baseNames d
  called : h.externals.map (·.name) = g.externals.map (·.name)
  globals : h.globals = g.globals
  objects : h.objects = g.objects
  entryExports : h.entryExports = g.entryExports

theorem Extends.refl (g : Graph) : Extends g g :=
  ⟨.refl g, rfl, ⟨[], by simp, by simp⟩, rfl, rfl, rfl, rfl⟩

theorem Extends.trans {g h k : Graph} (h₁ : Extends g h) (h₂ : Extends h k) : Extends g k where
  later := h₁.later.trans h₂.later
  modules := h₂.modules.trans h₁.modules
  declarations := by
    obtain ⟨new₁, hd₁, hp₁⟩ := h₁.declarations
    obtain ⟨new₂, hd₂, hp₂⟩ := h₂.declarations
    rw [baseNames_congr h₁.modules] at hp₂
    refine ⟨new₁ ++ new₂, by rw [hd₂, hd₁, List.append_assoc], fun d hd => ?_⟩
    exact (List.mem_append.mp hd).elim (hp₁ d) (hp₂ d)
  called := h₂.called.trans h₁.called
  globals := h₂.globals.trans h₁.globals
  objects := h₂.objects.trans h₁.objects
  entryExports := h₂.entryExports.trans h₁.entryExports

theorem Extends.declaration {g h : Graph} (he : Extends g h) {id : Nat} {d : Declaration}
    (hd : g.declarations[id]? = some d) : h.declarations[id]? = some d := by
  obtain ⟨new, hnew, -⟩ := he.declarations
  rw [hnew, List.getElem?_append_left (List.getElem?_eq_some_iff.mp hd).1]
  exact hd

theorem Extends.passive {g h : Graph} (he : Extends g h) {id : Nat} {d : Declaration}
    (hd : h.declarations[id]? = some d) (hid : g.declarations.length ≤ id) : Passive g.baseNames d := by
  obtain ⟨new, hnew, hp⟩ := he.declarations
  rw [hnew, List.getElem?_append_right hid] at hd
  exact hp d (List.mem_of_getElem? hd)

theorem Extends.statement? {g h : Graph} (he : Extends g h) (r : StatementRef) :
    h.statement? r = g.statement? r := by
  have hstatement : ∀ k : Graph, k.statement? r =
      (k.modules.map LinkedModule.unasked)[r.module]?.bind fun m => m.statements[r.index]? := by
    intro k
    cases hm : k.modules[r.module]? <;> simp [Graph.statement?, hm, LinkedModule.unasked]
  rw [hstatement, hstatement, he.modules]

/-- The tables and registers agree with the declarations: what a module declares is its own, and each
whole module and each name of an external one has at most one declaration, found by its register. -/
structure Sound (g : Graph) : Prop where
  own : ∀ (i : Nat) (m : Routes) (name : String) (id : Nat), g.routes[i]? = some m →
    (name, id) ∈ m.declarations → ∃ d : Declaration, g.declarations[id]? = some d ∧
      d.entity id = .own id ∧ ∀ r : StatementRef, d.statement = some r → r.module = i
  object : ∀ i id, g.objectOf i = some id ↔ g.entity? id = some (.whole i)
  external : ∀ e name id, g.externalId? e name = some id ↔ g.entity? id = some (.outside e name)

theorem Sound.entity_inj {g : Graph} (hg : g.Sound) {id id' : Nat} {e : Entity}
    (h : g.entity? id = some e) (h' : g.entity? id' = some e) : id = id' := by
  cases e with
  | own k =>
    have hown : ∀ j, g.entity? j = some (.own k) → j = k := by
      intro j hj
      obtain ⟨d, -, hd⟩ := Option.map_eq_some_iff.mp hj
      unfold Declaration.entity at hd
      split at hd <;> simp_all
    rw [hown id h, hown id' h']
  | whole i => exact Option.some.inj (((hg.object i id).mpr h).symm.trans ((hg.object i id').mpr h'))
  | outside e name =>
    exact Option.some.inj (((hg.external e name id).mpr h).symm.trans ((hg.external e name id').mpr h'))

def facts? (g : Graph) (id : Nat) : Option (Entity × Option StatementRef) :=
  g.declarations[id]?.map fun d => (d.entity id, d.statement)

theorem entity?_eq (g : Graph) (id : Nat) : g.entity? id = (g.facts? id).map (·.1) := by
  simp [entity?, facts?, Function.comp_def]

theorem Sound.congr {g h : Graph} (hg : g.Sound) (hr : h.routes = g.routes)
    (hd : ∀ id, h.facts? id = g.facts? id) (ho : ∀ i, h.objectOf i = g.objectOf i)
    (he : ∀ e name, h.externalId? e name = g.externalId? e name) : h.Sound where
  own i m name id hm hmem := by
    obtain ⟨d, hget, hentity, hstatement⟩ := hg.own i m name id (hr ▸ hm) hmem
    have hfacts := hd id
    rw [facts?, facts?, hget, Option.map_some] at hfacts
    obtain ⟨d', hget', heq⟩ := Option.map_eq_some_iff.mp hfacts
    obtain ⟨h₁, h₂⟩ := Prod.mk.inj heq
    exact ⟨d', hget', h₁.trans hentity, h₂ ▸ hstatement⟩
  object i id := by rw [ho, entity?_eq, hd, ← entity?_eq, hg.object]
  external e name id := by rw [he, entity?_eq, hd, ← entity?_eq, hg.external]

theorem Later.of_facts {g h : Graph} (hr : h.routes = g.routes)
    (hl : h.externals.length = g.externals.length) (hd : ∀ id, h.facts? id = g.facts? id)
    (ho : ∀ i, h.objectOf i = g.objectOf i)
    (he : ∀ e name, h.externalId? e name = g.externalId? e name)
    (hn : ∀ e, g.namesExports e = true → h.namesExports e = true) : Later g h where
  routes := hr
  externals := hl
  object i id h := (ho i).trans h
  external e name id h := (he e name).trans h
  names := hn
  entity id e h := by rwa [entity?_eq, hd, ← entity?_eq]

end Graph

end Treeshake
