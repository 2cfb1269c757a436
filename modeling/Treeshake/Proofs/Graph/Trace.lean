import Treeshake.Proofs.Graph.Build
import Treeshake.Proofs.Graph.Growth
import Treeshake.Proofs.Table
/-!
Tracing. Main statements: a trace only adds to a graph, what it finds can be seen from the module where it
starts, and in every later graph the same trace finds the same declaration and adds nothing.
-/
set_option autoImplicit false

namespace Treeshake

namespace Graph

def Leads (R : List Routes) (i k : Nat) : Prop :=
  ∃ m s, R[i]? = some m ∧ m.targets.get? s = some (.inside k)

def Reaches (R : List Routes) : Nat → Nat → Prop := Relation.ReflTransGen (Leads R)

def Shows (R : List Routes) (i : Nat) : Entity → Prop
  | .own id => ∃ k m name, Reaches R i k ∧ R[k]? = some m ∧ (name, id) ∈ m.declarations
  | .whole k => Reaches R i k
  | .outside _ _ => True

def Visible (R : List Routes) (i : Nat) (g : Graph) (id : Nat) : Prop :=
  ∃ e, g.entity? id = some e ∧ Shows R i e

theorem Shows.of_reaches {R : List Routes} {i k : Nat} {e : Entity} (h : Reaches R i k)
    (he : Shows R k e) : Shows R i e := by
  cases e with
  | own id =>
    obtain ⟨l, m, name, hl, hm, hd⟩ := he
    exact ⟨l, m, name, h.trans hl, hm, hd⟩
  | whole l => exact h.trans he
  | outside e name => trivial

theorem Visible.of_reaches {R : List Routes} {i k : Nat} {g : Graph} {id : Nat}
    (h : Reaches R i k) (hv : Visible R k g id) : Visible R i g id := by
  obtain ⟨e, he, hs⟩ := hv
  exact ⟨e, he, hs.of_reaches h⟩

theorem Visible.later {R : List Routes} {i : Nat} {g h : Graph} {id : Nat}
    (hv : Visible R i g id) (hl : Later g h) : Visible R i h id := by
  obtain ⟨e, he, hs⟩ := hv
  exact ⟨e, hl.entity id e he, hs⟩

structure Ranged (R : List Routes) (n : Nat) : Prop where
  inside : ∀ m ∈ R, ∀ s i, m.targets.get? s = some (.inside i) → i < R.length
  outside : ∀ m ∈ R, ∀ s e, m.targets.get? s = some (.outside e) → e < n
  stars : ∀ m ∈ R, ∀ t ∈ m.stars, ∃ s, m.targets.get? s = some t

structure Fits (R : List Routes) (n : Nat) (g : Graph) : Prop where
  routes : g.routes = R
  externals : g.externals.length = n
  sound : g.Sound

/-- From now on an export of a module is always traced to the same declaration. -/
def Settles (g : Graph) (module : Nat) (name : String) (id : Nat) : Prop :=
  ∃ fuel, ∀ h, Later g h → (exportWithin fuel module name module).run h = .ok (id, h)

theorem Settles.later {g h : Graph} {module : Nat} {name : String} {id : Nat}
    (hs : Settles g module name id) (hl : Later g h) : Settles h module name id := by
  obtain ⟨fuel, hrun⟩ := hs
  exact ⟨fuel, fun k hk => hrun k (hl.trans hk)⟩

/-- Every module as a whole has all its members, but for the modules that are being traced. -/
def Complete (tracing : List Nat) (g : Graph) : Prop :=
  ∀ (id : Nat) (d : Declaration) (i : Nat) (members : Table Nat) (asValue : Bool),
    g.declarations[id]? = some d → d.kind = .object i members asValue → i ∉ tracing →
      members.map (·.1) = g.exportNames i ∧
        ∀ name id', (name, id') ∈ members → Settles g i name id'

theorem Complete.later {g h : Graph} {tracing : List Nat} (hc : Complete tracing g) (hl : Later g h)
    (hd : ∀ (id : Nat) (e : Declaration), h.declarations[id]? = some e →
      ∃ d : Declaration, g.declarations[id]? = some d ∧
        ∀ i members v, e.kind = .object i members v → ∃ v', d.kind = .object i members v') :
    Complete tracing h := by
  intro id e i members v he hkind hi
  obtain ⟨d, hget, hobject⟩ := hd id e he
  obtain ⟨v', hkind'⟩ := hobject i members v hkind
  obtain ⟨hnames, hmembers⟩ := hc id d i members v' hget hkind' hi
  refine ⟨hnames.trans (exportNames_congr hl.routes.symm i), fun name k hmem => ?_⟩
  exact (hmembers name k hmem).later hl

/-- What tracing makes of a graph. -/
structure Explored (R : List Routes) (n : Nat) (g h : Graph) : Prop where
  grown : Extends g h
  fits : Fits R n h
  complete : ∀ tracing, Complete tracing g → Complete tracing h

theorem Explored.refl {R : List Routes} {n : Nat} {g : Graph} (hg : Fits R n g) : Explored R n g g :=
  ⟨.refl g, hg, fun _ hc => hc⟩

theorem Explored.trans {R : List Routes} {n : Nat} {g h k : Graph} (h₁ : Explored R n g h)
    (h₂ : Explored R n h k) : Explored R n g k :=
  ⟨h₁.grown.trans h₂.grown, h₂.fits, fun tracing hc => h₂.complete tracing (h₁.complete tracing hc)⟩

/-- What a run that traces does to the graph, and that every later graph has it done already. -/
structure Traced (R : List Routes) (n : Nat) {α : Type} (x : Build α) (g : Graph) (a : α)
    (h : Graph) : Prop extends Explored R n g h where
  again : ∀ k, Later h k → x.run k = .ok (a, k)

/-- The step only traces, and what it gives has a property. -/
def Traces (R : List Routes) (n : Nat) {α : Type} (x : Build α) (Q : Graph → α → Prop) : Prop :=
  ∀ g a h, Fits R n g → x.run g = .ok (a, h) → Traced R n x g a h ∧ Q h a

section
variable {R : List Routes} {n : Nat} {α β : Type}

theorem Traces.pure {a : α} {Q : Graph → α → Prop} (hQ : ∀ g, Fits R n g → Q g a) :
    Traces R n (Pure.pure a) Q := by
  intro g b h hg hrun
  obtain ⟨rfl, rfl⟩ := run_pure_ok.mp hrun
  exact ⟨⟨.refl hg, fun k _ => run_pure_ok.mpr ⟨rfl, rfl⟩⟩, hQ g hg⟩

theorem Traces.bind {x : Build α} {f : α → Build β} {P : Graph → α → Prop} {Q : Graph → β → Prop}
    (hx : Traces R n x P)
    (hf : ∀ a, Traces R n (f a) fun h b => ∀ g, Later g h → P g a → Q h b) :
    Traces R n (x >>= f) Q := by
  intro g b k hg hrun
  obtain ⟨a, h, hxa, hfb⟩ := run_bind_ok.mp hrun
  obtain ⟨t₁, hP⟩ := hx g a h hg hxa
  obtain ⟨t₂, hQ⟩ := hf a h b k t₁.fits hfb
  refine ⟨⟨t₁.toExplored.trans t₂.toExplored, fun l hl => ?_⟩, ?_⟩
  · exact run_bind_ok.mpr ⟨a, l, t₁.again l (t₂.grown.later.trans hl), t₂.again l hl⟩
  · exact hQ h t₂.grown.later hP

theorem Traces.fail {x : Build α} {Q : Graph → α → Prop} (hx : ∀ g r, x.run g ≠ .ok r) :
    Traces R n x Q := fun g a h _ hrun => absurd hrun (hx g (a, h))

theorem Traces.mono {x : Build α} {P Q : Graph → α → Prop} (hx : Traces R n x P)
    (hPQ : ∀ g a, P g a → Q g a) : Traces R n x Q := by
  intro g a h hg hrun
  obtain ⟨t, hP⟩ := hx g a h hg hrun
  exact ⟨t, hPQ h a hP⟩

theorem Traces.congr {x y : Build α} {Q : Graph → α → Prop} (hy : Traces R n y Q)
    (hxy : ∀ g : Graph, g.routes = R → x.run g = y.run g) : Traces R n x Q := by
  intro g a h hg hrun
  obtain ⟨t, hQ⟩ := hy g a h hg (hxy g hg.routes ▸ hrun)
  refine ⟨⟨t.toExplored, fun k hk => ?_⟩, hQ⟩
  rw [hxy k (hk.routes.trans t.fits.routes)]
  exact t.again k hk

end

def nameExport (g : Graph) (external : Nat) (name : String) : Graph :=
  if name != "default" && name != "*" then
    g.modifyExternal external fun e => { e with exportsNames := true }
  else g

def declareExternal (g : Graph) (external : Nat) (name : String) : Graph :=
  (g.push { name, kind := .external external name }).modifyExternal external fun e =>
    { e with declarations := e.declarations.insert name g.declarations.length }

theorem externalDeclaration_eq (g : Graph) (external : Nat) (name : String) :
    (externalDeclaration external name).run g =
      match (g.nameExport external name).externalId? external name with
      | some id => .ok (id, g.nameExport external name)
      | none => .ok (g.declarations.length, (g.nameExport external name).declareExternal external name) := by
  have hrun : ∀ k : Graph, StateT.run (do
      let g ← get
      match g.externals[external]?.bind fun e => e.declarations.get? name with
      | some id => return id
      | none =>
        let id := g.declarations.length
        set ((g.push { name, kind := .external external name }).modifyExternal external fun e =>
          { e with declarations := e.declarations.insert name id })
        return id : Build Nat) k =
      match k.externalId? external name with
      | some id => .ok (id, k)
      | none => .ok (k.declarations.length, k.declareExternal external name) := by
    intro k
    rw [run_get_bind, externalId?]
    cases (k.externals[external]?.bind fun e => e.declarations.get? name) <;> rfl
  by_cases hn : (name != "default" && name != "*") = true
  · have := hrun (g.nameExport external name)
    simp only [nameExport, if_pos hn] at this ⊢
    rw [externalDeclaration, if_pos hn]
    exact this
  · have := hrun g
    simp only [nameExport, if_neg hn] at this ⊢
    rw [externalDeclaration, if_neg hn]
    exact this

theorem externalId?_modify {g : Graph} {external : Nat} {f : External → External} (e : Nat)
    (name : String) : (g.modifyExternal external f).externalId? e name =
      if external = e then g.externals[e]?.bind fun x => (f x).declarations.get? name
      else g.externalId? e name := by
  simp only [externalId?, modifyExternal, List.getElem?_modify]
  cases g.externals[e]? <;> split <;> simp_all

theorem namesExports_modify {g : Graph} {external : Nat} {f : External → External} (e : Nat) :
    (g.modifyExternal external f).namesExports e =
      if external = e then g.externals[e]?.any fun x => (f x).exportsNames else g.namesExports e := by
  simp only [namesExports, modifyExternal, List.getElem?_modify]
  cases g.externals[e]? <;> split <;> simp_all

theorem externalId?_nameExport (g : Graph) (external : Nat) (name : String) (e : Nat) (n : String) :
    (g.nameExport external name).externalId? e n = g.externalId? e n := by
  unfold nameExport
  split
  · rw [externalId?_modify]
    split <;> rfl
  · rfl

theorem later_modifyExternal {g : Graph} {external : Nat} {f : External → External}
    (hd : ∀ e, (f e).declarations = e.declarations)
    (hn : ∀ e, e.exportsNames = true → (f e).exportsNames = true) :
    Later g (g.modifyExternal external f) where
  routes := rfl
  externals := by simp [modifyExternal]
  object := fun _ _ h => h
  external := fun e name id h => by
    rw [externalId?_modify]
    simp only [hd]
    split <;> exact h
  names := fun e h => by
    rw [namesExports_modify]
    split
    · unfold namesExports at h
      cases hx : g.externals[e]? <;> simp_all
    · exact h
  entity := fun _ _ h => h

theorem extends_modifyExternal {g : Graph} {external : Nat} {f : External → External}
    (hl : Later g (g.modifyExternal external f)) (hf : ∀ e, (f e).name = e.name) :
    Extends g (g.modifyExternal external f) where
  later := hl
  modules := rfl
  declarations := ⟨[], by simp [modifyExternal], by simp⟩
  called := map_modify_of_eq hf g.externals external
  globals := rfl
  objects := rfl
  entryExports := rfl

theorem extends_nameExport (g : Graph) (external : Nat) (name : String) :
    Extends g (g.nameExport external name) := by
  unfold nameExport
  split
  · exact extends_modifyExternal (later_modifyExternal (fun _ => rfl) fun _ _ => rfl) fun _ => rfl
  · exact .refl g

theorem entity?_push (g : Graph) (d : Declaration) (id : Nat) :
    (g.push d).entity? id =
      if id = g.declarations.length then some (d.entity id) else g.entity? id := by
  simp only [entity?, push, List.getElem?_append]
  split
  · rw [if_neg (by omega)]
  · next h =>
    by_cases hid : id = g.declarations.length
    · simp [hid]
    · rw [if_neg hid, List.getElem?_eq_none (by simp; omega), List.getElem?_eq_none (by omega)]

theorem declarations_nameExport (g : Graph) (external : Nat) (name : String) :
    (g.nameExport external name).declarations = g.declarations := by
  unfold nameExport
  split <;> rfl

theorem modules_nameExport (g : Graph) (external : Nat) (name : String) :
    (g.nameExport external name).modules = g.modules := by
  unfold nameExport
  split <;> rfl

theorem sound_nameExport {g : Graph} (hg : g.Sound) (external : Nat) (name : String) :
    (g.nameExport external name).Sound := by
  refine hg.congr (extends_nameExport g external name).later.routes (fun id => ?_) (fun i => ?_)
    (externalId?_nameExport g external name)
  · rw [facts?, declarations_nameExport, facts?]
  · rw [objectOf, modules_nameExport, objectOf]

theorem nameExport_again {g h : Graph} {external : Nat} {name : String}
    (hl : Later (g.nameExport external name) h) (he : external < g.externals.length) :
    h.nameExport external name = h := by
  by_cases hn : (name != "default" && name != "*") = true
  · have hnames : h.namesExports external = true := by
      refine hl.names external ?_
      rw [nameExport, if_pos hn, namesExports_modify, if_pos rfl, List.getElem?_eq_getElem he]
      rfl
    rw [nameExport, if_pos hn, modifyExternal]
    have hsame : h.externals.modify external (fun e => { e with exportsNames := true }) = h.externals := by
      refine List.ext_getElem? fun i => ?_
      rw [List.getElem?_modify]
      unfold namesExports at hnames
      cases hx : h.externals[i]? with
      | none => rfl
      | some e =>
        by_cases hi : external = i
        · subst hi
          rw [hx] at hnames
          have hex : e.exportsNames = true := by simpa using hnames
          simp [← hex]
        · simp [hi]
    rw [hsame]
  · rw [nameExport, if_neg hn]

theorem entity?_declareExternal (g : Graph) (external : Nat) (name : String) (id : Nat) :
    (g.declareExternal external name).entity? id =
      if id = g.declarations.length then some (.outside external name) else g.entity? id :=
  entity?_push g _ id

theorem externalId?_declareExternal {g : Graph} {external : Nat} (he : external < g.externals.length)
    (name : String) (e : Nat) (n : String) :
    (g.declareExternal external name).externalId? e n =
      if external = e ∧ n = name then some g.declarations.length else g.externalId? e n := by
  rw [declareExternal, externalId?_modify]
  by_cases hee : external = e
  · subst hee
    rw [if_pos rfl]
    simp only [push, List.getElem?_eq_getElem he, Option.bind_some, Table.get?_insert, true_and,
      externalId?]
  · rw [if_neg hee, if_neg fun h => hee h.1]
    rfl

theorem extends_declareExternal {g : Graph} {external : Nat} {name : String}
    (he : external < g.externals.length) (hnone : g.externalId? external name = none) :
    Extends g (g.declareExternal external name) where
  later := {
    routes := rfl
    externals := by simp [declareExternal, modifyExternal, push]
    object := fun _ _ h => h
    external := fun e n id h => by
      rw [externalId?_declareExternal he]
      split
      · next hen =>
        obtain ⟨rfl, rfl⟩ := hen
        rw [hnone] at h
        cases h
      · exact h
    names := fun e h => by
      rw [declareExternal, namesExports_modify]
      split
      · exact h
      · exact h
    entity := fun id e h => by
      rw [entity?_declareExternal]
      split
      · next hid =>
        rw [entity?, hid, List.getElem?_eq_none (Nat.le_refl _)] at h
        cases h
      · exact h }
  modules := rfl
  declarations := ⟨[_], rfl, fun d hd => by
    obtain rfl := List.mem_singleton.mp hd
    exact ⟨rfl, rfl, rfl, fun _ h => (by cases h), .inl rfl⟩⟩
  called := by
    have hsame : ∀ e : External, ({ e with declarations := e.declarations.insert name g.declarations.length } :
      External).name = e.name := fun _ => rfl
    exact map_modify_of_eq hsame g.externals external
  globals := rfl
  objects := rfl
  entryExports := rfl

theorem sound_declareExternal {g : Graph} (hg : g.Sound) {external : Nat} {name : String}
    (he : external < g.externals.length) (hnone : g.externalId? external name = none) :
    (g.declareExternal external name).Sound where
  own i m n id hm hmem := by
    obtain ⟨d, hd, h⟩ := hg.own i m n id hm hmem
    exact ⟨d, (extends_declareExternal he hnone).declaration hd, h⟩
  object i id := by
    have hnew : g.entity? g.declarations.length = none := by simp [entity?]
    have ho : (g.declareExternal external name).objectOf i = g.objectOf i := rfl
    rw [entity?_declareExternal, ho]
    split
    · next hid =>
      subst hid
      have := hg.object i g.declarations.length
      rw [hnew] at this
      simpa using this
    · exact hg.object i id
  external e n id := by
    have hnew : g.entity? g.declarations.length = none := by simp [entity?]
    rw [entity?_declareExternal, externalId?_declareExternal he]
    by_cases hen : external = e ∧ n = name
    · obtain ⟨rfl, rfl⟩ := hen
      rw [if_pos ⟨rfl, rfl⟩]
      have hother : g.entity? id ≠ some (.outside external n) := by
        rw [Ne, ← hg.external, hnone]
        simp
      by_cases hid : id = g.declarations.length
      · simp [hid]
      · simp [hid, hother, Ne.symm hid]
    · rw [if_neg hen]
      by_cases hid : id = g.declarations.length
      · subst hid
        have := hg.external e n g.declarations.length
        rw [hnew] at this
        rw [if_pos rfl, this]
        simp only [reduceCtorEq, Option.some.injEq, Entity.outside.injEq, false_iff]
        exact fun h => hen ⟨h.1, h.2.symm⟩
      · rw [if_neg hid, hg.external]

theorem Complete.extends {g h : Graph} {tracing : List Nat} (hc : Complete tracing g)
    (he : Extends g h) (hnew : ∀ id d, g.declarations.length ≤ id → h.declarations[id]? = some d →
      ∀ i members asValue, d.kind = .object i members asValue → i ∈ tracing) :
    Complete tracing h := by
  intro id d i members asValue hd hkind hi
  rcases Nat.lt_or_ge id g.declarations.length with hid | hid
  · have hg := List.getElem?_eq_getElem hid
    obtain rfl : d = g.declarations[id] :=
      Option.some.inj (hd.symm.trans (he.declaration hg))
    obtain ⟨hnames, hmembers⟩ := hc id _ i members asValue hg hkind hi
    refine ⟨hnames.trans (exportNames_congr he.later.routes.symm i), fun name id' hmem => ?_⟩
    exact (hmembers name id' hmem).later he.later
  · exact absurd (hnew id d hid hd i members asValue hkind) hi

section
variable {R : List Routes} {n : Nat}

theorem traces_externalDeclaration {external : Nat} (he : external < n) (name : String) :
    Traces R n (externalDeclaration external name) fun g id =>
      g.entity? id = some (.outside external name) := by
  intro g id h hg hrun
  have hnamed := extends_nameExport g external name
  have hsound := sound_nameExport hg.sound external name
  have hbound : external < g.externals.length := hg.externals ▸ he
  have hbound' : external < (g.nameExport external name).externals.length :=
    hnamed.later.externals ▸ hbound
  -- a later graph has the name in its register already
  have hagain : ∀ k, Later (g.nameExport external name) k → k.externalId? external name = some id →
      (externalDeclaration external name).run k = .ok (id, k) := by
    intro k hk hid
    rw [externalDeclaration_eq, nameExport_again hk hbound, hid]
  rw [externalDeclaration_eq] at hrun
  split at hrun
  · next id' hid =>
    obtain ⟨rfl, rfl⟩ := Prod.mk.inj (Except.ok.inj hrun)
    have hentity := (hsound.external external name id').mp hid
    refine ⟨⟨⟨hnamed, ⟨?_, ?_, hsound⟩, fun tracing hc => ?_⟩, fun k hk => ?_⟩, hentity⟩
    · exact hnamed.later.routes.trans hg.routes
    · exact hnamed.later.externals.trans hg.externals
    · refine hc.extends hnamed fun i d hi hd => ?_
      rw [declarations_nameExport, List.getElem?_eq_none hi] at hd
      cases hd
    · exact hagain k hk (hk.external external name id' hid)
  · next hnone =>
    obtain ⟨rfl, rfl⟩ := Prod.mk.inj (Except.ok.inj hrun)
    have hgrown := hnamed.trans (extends_declareExternal hbound' hnone)
    have hlength : g.declarations.length = (g.nameExport external name).declarations.length := by
      rw [declarations_nameExport]
    refine ⟨⟨⟨hgrown, ⟨?_, ?_, sound_declareExternal hsound hbound' hnone⟩, fun tracing hc => ?_⟩,
      fun k hk => ?_⟩, ?_⟩
    · exact hgrown.later.routes.trans hg.routes
    · exact hgrown.later.externals.trans hg.externals
    · refine hc.extends hgrown fun i d hi hd => ?_
      have hdeclarations : ((g.nameExport external name).declareExternal external name).declarations =
          g.declarations ++ [{ name, kind := .external external name }] := by
        rw [declareExternal, modifyExternal, push, declarations_nameExport]
      rw [hdeclarations, List.getElem?_append_right hi] at hd
      obtain rfl := List.mem_singleton.mp (List.mem_of_getElem? hd)
      intro j members asValue hkind
      cases hkind
    · refine hagain k ((extends_declareExternal hbound' hnone).later.trans hk) (hk.external _ _ _ ?_)
      rw [externalId?_declareExternal hbound', if_pos ⟨rfl, rfl⟩, hlength]
    · exact (entity?_declareExternal _ external name _).trans (if_pos hlength)

theorem traces_seek {α : Type} {search : Nat → List Nat → Build (Option α × List Nat)}
    {Q : Graph → α → Prop} {stars : List Target}
    (hQ : ∀ g h a, Later g h → Q g a → Q h a)
    (hs : ∀ i visited, .inside i ∈ stars →
      Traces R n (search i visited) fun g r => ∀ a, r.1 = some a → Q g a) (visited : List Nat) :
    Traces R n (seek search stars visited) fun g r => ∀ a, r.1 = some a → Q g a := by
  induction stars generalizing visited with
  | nil =>
    refine Traces.pure fun g _ a h => ?_
    cases h
  | cons t stars ih =>
    have hrest := fun visited => ih (fun i v hi => hs i v (List.mem_cons_of_mem _ hi)) visited
    cases t with
    | outside e => exact hrest visited
    | inside i =>
      refine (hs i visited List.mem_cons_self).bind fun r => ?_
      obtain ⟨found, visited⟩ := r
      cases found with
      | none => exact (hrest visited).mono fun h b hb _ _ _ => hb
      | some a =>
        refine Traces.pure fun h _ g hl hP b hb => ?_
        obtain rfl := Option.some.inj hb
        exact hQ g h a hl (hP a rfl)

end

/-- The graph with a declaration for a module as a whole, without members yet. -/
def startObject (g : Graph) (module : Nat) (name : String) : Graph :=
  (g.push { name, kind := .object module [] false }).modifyModule module fun m =>
    { m with object := some g.declarations.length }

def finishObject (g : Graph) (module id : Nat) (members : Table Nat) : Graph :=
  g.modifyDeclaration id fun d => { d with kind := .object module members false }

theorem objectWithin_known {g : Graph} {module id : Nat} (h : g.objectOf module = some id)
    (fuel : Nat) : (objectWithin (fuel + 1) module).run g = .ok (id, g) := by
  obtain ⟨m, hm, hid⟩ := Option.bind_eq_some_iff.mp h
  rw [objectWithin, run_get_bind]
  simp only [hm, hid]
  rfl

theorem objectWithin_new {g : Graph} {module : Nat} {m : LinkedModule}
    (hm : g.modules[module]? = some m) (h : m.object = none) (fuel : Nat) :
    (objectWithin (fuel + 1) module).run g =
      StateT.run (do
        let members ← (g.exportNames module).mapM fun name =>
          return (name, ← exportWithin fuel module name module)
        modify fun k => k.finishObject module g.declarations.length members
        return g.declarations.length) (g.startObject module m.baseName) := by
  rw [objectWithin, run_get_bind]
  simp only [hm, h]
  rfl

theorem objectWithin_missing {g : Graph} {module : Nat} (hm : g.modules[module]? = none) (fuel : Nat)
    (r : Nat × Graph) : (objectWithin fuel module).run g ≠ .ok r := by
  intro h
  cases fuel with
  | zero =>
    rw [objectWithin] at h
    cases h
  | succ fuel =>
    rw [objectWithin, run_get_bind] at h
    simp only [hm] at h
    cases h

theorem entity?_startObject (g : Graph) (module : Nat) (name : String) (id : Nat) :
    (g.startObject module name).entity? id =
      if id = g.declarations.length then some (.whole module) else g.entity? id :=
  entity?_push g _ id

theorem objectOf_startObject {g : Graph} {module : Nat} (hm : module < g.modules.length)
    (name : String) (i : Nat) : (g.startObject module name).objectOf i =
      if module = i then some g.declarations.length else g.objectOf i := by
  simp only [startObject, objectOf, modifyModule, push, List.getElem?_modify]
  by_cases hi : module = i
  · subst hi
    simp [List.getElem?_eq_getElem hm]
  · simp [hi]

theorem extends_startObject {g : Graph} {module : Nat} (hm : module < g.modules.length)
    (hnone : g.objectOf module = none) {name : String} (hname : name ∈ g.baseNames) :
    Extends g (g.startObject module name) where
  later := {
    routes := by
      refine routes_modifyModule ?_
      exact fun _ => rfl
    externals := rfl
    object := fun i id h => by
      rw [objectOf_startObject hm]
      split
      · next hi =>
        rw [← hi, hnone] at h
        cases h
      · exact h
    external := fun _ _ _ h => h
    names := fun _ h => h
    entity := fun id e h => by
      rw [entity?_startObject]
      split
      · next hid =>
        rw [entity?, hid, List.getElem?_eq_none (Nat.le_refl _)] at h
        cases h
      · exact h }
  modules := by
    refine map_modify_of_eq ?_ g.modules module
    exact fun _ => rfl
  declarations := ⟨[_], rfl, fun d hd => by
    obtain rfl := List.mem_singleton.mp hd
    exact ⟨rfl, rfl, rfl, fun _ h => (by cases h), .inr hname⟩⟩
  called := rfl
  globals := rfl
  objects := rfl
  entryExports := rfl

theorem sound_startObject {g : Graph} (hg : g.Sound) {module : Nat} (hm : module < g.modules.length)
    (hnone : g.objectOf module = none) {name : String} (hname : name ∈ g.baseNames) :
    (g.startObject module name).Sound where
  own i m n id hget hmem := by
    have he := extends_startObject hm hnone hname
    obtain ⟨d, hd, h⟩ := hg.own i m n id (he.later.routes ▸ hget) hmem
    exact ⟨d, he.declaration hd, h⟩
  object i id := by
    have hnew : g.entity? g.declarations.length = none := by simp [entity?]
    rw [entity?_startObject, objectOf_startObject hm]
    by_cases hi : module = i
    · subst hi
      have hother : g.entity? id ≠ some (.whole module) := by
        rw [Ne, ← hg.object, hnone]
        simp
      by_cases hid : id = g.declarations.length
      · simp [hid]
      · simp [hid, hother, Ne.symm hid]
    · rw [if_neg hi]
      by_cases hid : id = g.declarations.length
      · subst hid
        have := hg.object i g.declarations.length
        rw [hnew] at this
        simpa [hi] using this
      · rw [if_neg hid, hg.object]
  external e n id := by
    have hnew : g.entity? g.declarations.length = none := by simp [entity?]
    have hx : (g.startObject module name).externalId? e n = g.externalId? e n := rfl
    rw [entity?_startObject, hx]
    split
    · next hid =>
      subst hid
      have := hg.external e n g.declarations.length
      rw [hnew] at this
      simpa using this
    · exact hg.external e n id

theorem facts?_finishObject {g : Graph} {module id : Nat} (members : Table Nat)
    (hid : g.entity? id = some (.whole module)) (i : Nat) :
    (g.finishObject module id members).facts? i = g.facts? i := by
  simp only [finishObject, facts?, modifyDeclaration, List.getElem?_modify]
  by_cases hi : id = i
  · subst hi
    obtain ⟨d, hd, he⟩ := Option.map_eq_some_iff.mp hid
    simp only [hd, if_pos, Option.map_eq_map, Option.map_some, he]
    rfl
  · simp [hi]

theorem sound_finishObject {g : Graph} (hg : g.Sound) {module id : Nat} (members : Table Nat)
    (hid : g.entity? id = some (.whole module)) : (g.finishObject module id members).Sound :=
  hg.congr rfl (facts?_finishObject members hid) (fun _ => rfl) fun _ _ => rfl

theorem later_finishObject {g : Graph} {module id : Nat} (members : Table Nat)
    (hid : g.entity? id = some (.whole module)) : Later g (g.finishObject module id members) :=
  .of_facts rfl rfl (facts?_finishObject members hid) (fun _ => rfl) (fun _ _ => rfl) fun _ h => h

theorem extends_finishObject {g h : Graph} {module id : Nat} (members : Table Nat) (he : Extends g h)
    (hid : h.entity? id = some (.whole module)) (hnew : g.declarations.length ≤ id) :
    Extends g (h.finishObject module id members) where
  later := he.later.trans (later_finishObject members hid)
  modules := he.modules
  declarations := by
    obtain ⟨new, hd, hp⟩ := he.declarations
    refine ⟨new.modify (id - g.declarations.length) fun d =>
      { d with kind := .object module members false }, ?_, fun d hmem => ?_⟩
    · rw [finishObject, modifyDeclaration, hd]
      refine List.ext_getElem? fun i => ?_
      rcases Nat.lt_or_ge i g.declarations.length with hi | hi
      · rw [getElem?_modify_eq, if_neg (by omega), List.getElem?_append_left hi,
          List.getElem?_append_left hi]
      · rw [getElem?_modify_eq, List.getElem?_append_right hi, List.getElem?_append_right hi,
          getElem?_modify_eq]
        by_cases hii : id = i
        · rw [if_pos hii, if_pos (by omega)]
        · rw [if_neg hii, if_neg (by omega)]
    · obtain ⟨i, hi⟩ := List.mem_iff_getElem?.mp hmem
      rw [List.getElem?_modify] at hi
      obtain ⟨e, he', rfl⟩ := Option.map_eq_some_iff.mp hi
      have hpassive := hp e (List.mem_of_getElem? he')
      split
      · next hi =>
        -- the declaration is that of a module as a whole, so its name is that of the module's file
        have hold : h.declarations[id]? = some e := by
          rw [hd, List.getElem?_append_right hnew, hi]
          exact he'
        rw [entity?, hold, Option.map_some] at hid
        have hname := hpassive.name.resolve_left fun hx => ?_
        · exact ⟨hpassive.used, hpassive.aliases, hpassive.statement, fun _ h => (by cases h), .inr hname⟩
        · rw [Declaration.isExternal] at hx
          rw [Declaration.entity] at hid
          split at hx
          · next hkind => simp [hkind] at hid
          · cases hx
      · exact hpassive
  called := he.called
  globals := he.globals
  objects := he.objects
  entryExports := he.entryExports

theorem Complete.finishObject {g : Graph} {module id : Nat} {members : Table Nat} {tracing : List Nat}
    (hc : Complete (module :: tracing) g) (hg : g.Sound) (hid : g.entity? id = some (.whole module))
    (hnames : members.map (·.1) = g.exportNames module)
    (hsettles : ∀ name id, (name, id) ∈ members → Settles g module name id) :
    Complete tracing (g.finishObject module id members) := by
  have hlater := later_finishObject members hid
  intro id' d i members' asValue hd hkind hi
  rw [Graph.finishObject, modifyDeclaration, List.getElem?_modify] at hd
  obtain ⟨e, he, hed⟩ := Option.map_eq_some_iff.mp hd
  by_cases hii : id = id'
  · rw [if_pos hii] at hed
    subst hed
    cases hkind
    refine ⟨hnames.trans (exportNames_congr hlater.routes.symm module), ?_⟩
    exact fun name k hmem => (hsettles name k hmem).later hlater
  · rw [if_neg hii] at hed
    subst hed
    have hi' : i ∉ module :: tracing := by
      intro hmem
      rcases List.mem_cons.mp hmem with rfl | hmem
      · refine hii (hg.entity_inj hid ?_)
        rw [entity?, he, Option.map_some, Declaration.entity, hkind]
      · exact hi hmem
    obtain ⟨h₁, h₂⟩ := hc id' e i members' asValue he hkind hi'
    refine ⟨h₁.trans (exportNames_congr hlater.routes.symm i), ?_⟩
    exact fun name k hmem => (h₂ name k hmem).later hlater

structure TracesWithin (R : List Routes) (n fuel : Nat) : Prop where
  trace : ∀ module name, Traces R n (traceWithin fuel module name) fun g r =>
    ∀ id, r = some id → Visible R module g id
  follow : ∀ target name importer, (∀ e, target = .outside e → e < n) →
    Traces R n (followWithin fuel target name importer) fun g id =>
      ∀ i, (∀ k, target = .inside k → Reaches R i k) → Visible R i g id
  export_ : ∀ module name importer,
    Traces R n (exportWithin fuel module name importer) fun g id => Visible R module g id
  find : ∀ module name visited, Traces R n (findExportWithin fuel module name visited) fun g r =>
    ∀ id, r.1 = some id → Visible R module g id
  object : ∀ module, Traces R n (objectWithin fuel module) fun g id =>
    g.entity? id = some (.whole module)

section
variable {R : List Routes} {n fuel : Nat}

theorem traceWithin_eq (g : Graph) (fuel module : Nat) (name : String) :
    (traceWithin (fuel + 1) module name).run g =
      StateT.run (match g.routes[module]? with
      | none => return none
      | some m =>
        match m.declarations.get? name, m.imports.get? name with
        | some id, _ => return some id
        | none, none => return none
        | none, some i =>
          match m.targets.get? i.source with
          | none => return none
          | some target => return some (← followWithin fuel target i.name module) :
        Build (Option Nat)) g := by
  rw [traceWithin, getElem?_routes, run_get_bind]
  cases g.modules[module]? <;> rfl

theorem findExportWithin_eq (g : Graph) (fuel module : Nat) (name : String) (visited : List Nat) :
    (findExportWithin (fuel + 1) module name visited).run g =
      StateT.run (if visited.contains module then return (none, visited) else
      match g.routes[module]? with
      | none => return (none, module :: visited)
      | some m =>
        match m.reexports.get? name, m.exports.get? name with
        | some r, _ =>
          match m.targets.get? r.source with
          | none => return (none, module :: visited)
          | some target =>
            return (some (← followWithin fuel target r.localName module), module :: visited)
        | none, some e => return (← traceWithin fuel module e.localName, module :: visited)
        | none, none =>
          if name == "default" then return (none, module :: visited) else do
          match ← seek (fun other visited => findExportWithin fuel other name visited) m.stars
            (module :: visited) with
          | (some id, visited) => return (some id, visited)
          | (none, visited) =>
            match firstOutside? m.stars with
            | some external => return (some (← externalDeclaration external name), visited)
            | none => return (none, visited) : Build (Option Nat × List Nat)) g := by
  rw [findExportWithin, getElem?_routes]
  by_cases hv : visited.contains module
  · rw [if_pos hv, if_pos hv]
  · rw [if_neg hv, if_neg hv, run_get_bind]
    cases g.modules[module]? <;> rfl

theorem lookup_mem {α : Type} {t : Table α} {name : String} {a : α} (h : t.get? name = some a) :
    (name, a) ∈ t := by
  induction t with
  | nil => simp [Table.get?] at h
  | cons e t ih =>
    obtain ⟨k, v⟩ := e
    by_cases hk : name = k
    · simp [Table.get?, hk] at h
      simp [hk, h]
    · have hb : (name == k) = false := beq_eq_false_iff_ne.mpr hk
      simp only [Table.get?, List.lookup_cons, hb] at h
      exact List.mem_cons_of_mem _ (ih h)

theorem firstOutside?_mem {stars : List Target} {e : Nat} (h : firstOutside? stars = some e) :
    .outside e ∈ stars := by
  induction stars with
  | nil => cases h
  | cons t stars ih =>
    cases t with
    | outside e' =>
      obtain rfl := Option.some.inj h
      exact List.mem_cons_self
    | inside i => exact List.mem_cons_of_mem _ (ih h)

theorem Ranged.outside_star (hR : Ranged R n) {m : Routes} (hm : m ∈ R) {e : Nat}
    (he : firstOutside? m.stars = some e) : e < n := by
  obtain ⟨s, hs⟩ := hR.stars m hm _ (firstOutside?_mem he)
  exact hR.outside m hm s e hs

theorem traces_stars (hR : Ranged R n) (h : TracesWithin R n fuel) {module : Nat} {m : Routes}
    (hm : R[module]? = some m) (name : String) (visited : List Nat) : Traces R n
      (seek (fun other visited => findExportWithin fuel other name visited) m.stars visited)
      fun g r => ∀ id, r.1 = some id → Visible R module g id := by
  refine traces_seek (fun g k id hk hv => hv.later hk) (fun i visited hi => ?_) visited
  obtain ⟨s, hs⟩ := hR.stars m (List.mem_of_getElem? hm) _ hi
  exact (h.find i name visited).mono fun g r hv id hid =>
    (hv id hid).of_reaches (.single ⟨m, s, hm, hs⟩)

theorem traces_traceWithin (hR : Ranged R n) (h : TracesWithin R n fuel) (module : Nat)
    (name : String) : Traces R n (traceWithin (fuel + 1) module name) fun g r =>
      ∀ id, r = some id → Visible R module g id := by
  refine Traces.congr ?_ fun g hg => hg ▸ traceWithin_eq g fuel module name
  split
  · exact Traces.pure fun g _ id hid => by cases hid
  · next m hm =>
    split
    · next id hd =>
      refine Traces.pure fun g hg id' hid => ?_
      obtain rfl := Option.some.inj hid
      have hmem := lookup_mem hd
      obtain ⟨d, hget, hentity, -⟩ := hg.sound.own module m name id (hg.routes.symm ▸ hm) hmem
      exact ⟨.own id, by rw [entity?, hget, Option.map_some, hentity], module, m, name, .refl, hm, hmem⟩
    · exact Traces.pure fun g _ id hid => by cases hid
    · next i _ _ =>
      split
      · exact Traces.pure fun g _ id hid => by cases hid
      · next target ht =>
        have hmem := List.mem_of_getElem? hm
        refine (h.follow target i.name module fun e he => hR.outside m hmem _ e (he ▸ ht)).bind
          fun id => Traces.pure fun g _ k hk hv id' hid => ?_
        obtain rfl := Option.some.inj hid
        exact (hv module fun j hj => .single ⟨m, i.source, hm, hj ▸ ht⟩).later hk

theorem traces_followWithin (h : TracesWithin R n fuel) (target : Target) (name : String)
    (importer : Nat) (he : ∀ e, target = .outside e → e < n) :
    Traces R n (followWithin (fuel + 1) target name importer) fun g id =>
      ∀ i, (∀ k, target = .inside k → Reaches R i k) → Visible R i g id := by
  cases target with
  | outside e =>
    rw [followWithin]
    exact (traces_externalDeclaration (he e rfl) name).mono fun g id hid i _ => ⟨_, hid, trivial⟩
  | inside k =>
    rw [followWithin]
    split
    · exact (h.object k).mono fun g id hid i hi => ⟨_, hid, hi k rfl⟩
    · exact (h.export_ k name importer).mono fun g id hv i hi => hv.of_reaches (hi k rfl)

theorem traces_exportWithin (h : TracesWithin R n fuel) (module : Nat) (name : String)
    (importer : Nat) : Traces R n (exportWithin (fuel + 1) module name importer) fun g id =>
      Visible R module g id := by
  rw [exportWithin]
  refine (h.find module name []).bind fun r => ?_
  obtain ⟨found, visited⟩ := r
  cases found with
  | none => exact Traces.fail fun g r hr => by cases hr
  | some id => exact Traces.pure fun g _ k hk hv => (hv id rfl).later hk

theorem traces_findExportWithin (hR : Ranged R n) (h : TracesWithin R n fuel) (module : Nat)
    (name : String) (visited : List Nat) :
    Traces R n (findExportWithin (fuel + 1) module name visited) fun g r =>
      ∀ id, r.1 = some id → Visible R module g id := by
  refine Traces.congr ?_ fun g hg => hg ▸ findExportWithin_eq g fuel module name visited
  split
  · exact Traces.pure fun g _ id hid => by cases hid
  · split
    · exact Traces.pure fun g _ id hid => by cases hid
    · next m hm =>
      have hmem := List.mem_of_getElem? hm
      split
      · next r hr =>
        split
        · exact Traces.pure fun g _ id hid => by cases hid
        · next target ht =>
          refine (h.follow target r.localName module fun e he => hR.outside m hmem _ e (he ▸ ht)).bind
            fun id => Traces.pure fun g _ k hk hv id' hid => ?_
          obtain rfl := Option.some.inj hid
          exact (hv module fun j hj => .single ⟨m, r.source, hm, hj ▸ ht⟩).later hk
      · next e _ _ =>
        exact (h.trace module e.localName).bind fun r => Traces.pure fun g _ k hk hv id hid =>
          (hv id hid).later hk
      · split
        · exact Traces.pure fun g _ id hid => by cases hid
        · refine (traces_stars hR h hm name (module :: visited)).bind fun r => ?_
          obtain ⟨found, visited⟩ := r
          cases found with
          | some id => exact Traces.pure fun g _ k hk hv id' hid => (hv id' hid).later hk
          | none =>
            dsimp only
            split
            · next e he =>
              refine (traces_externalDeclaration (hR.outside_star hmem he) name).bind fun id =>
                Traces.pure fun g _ k hk hid l hl _ id' hid' => ?_
              obtain rfl := Option.some.inj hid'
              exact ⟨_, hk.entity id _ hid, trivial⟩
            · exact Traces.pure fun g _ k hk hv id hid => by cases hid

theorem traces_members (h : TracesWithin R n fuel) (module : Nat) (names : List String) :
    Traces R n (names.mapM fun name => do return (name, ← exportWithin fuel module name module))
      fun g members => members.map (·.1) = names ∧
        ∀ name id, (name, id) ∈ members → Settles g module name id := by
  induction names with
  | nil => exact Traces.pure fun g _ => ⟨rfl, fun _ _ hmem => by cases hmem⟩
  | cons name names ih =>
    have hfirst : Traces R n (exportWithin fuel module name module) fun g id =>
        Settles g module name id := by
      intro g id k hg hrun
      obtain ⟨t, -⟩ := h.export_ module name module g id k hg hrun
      exact ⟨t, fuel, t.again⟩
    rw [List.mapM_cons]
    have hpair : Traces R n (do return (name, ← exportWithin fuel module name module)) fun g p =>
        p.1 = name ∧ Settles g module p.1 p.2 :=
      hfirst.bind fun id => Traces.pure fun k _ g hk hs => ⟨rfl, hs.later hk⟩
    refine hpair.bind fun p => ih.bind fun ps => Traces.pure fun k _ l hl hps j hj hp => ⟨?_, ?_⟩
    · rw [List.map_cons, hp.1, hps.1]
    · intro name' id hmem
      rcases List.mem_cons.mp hmem with rfl | hmem
      · exact hp.2.later hj
      · exact (hps.2 name' id hmem).later hl

theorem traces_objectWithin (h : TracesWithin R n fuel) (module : Nat) :
    Traces R n (objectWithin (fuel + 1) module) fun g id => g.entity? id = some (.whole module) := by
  intro g id k hg hrun
  cases hm : g.modules[module]? with
  | none => exact absurd hrun (objectWithin_missing hm _ _)
  | some m =>
    have hknown : ∀ l : Graph, l.objectOf module = some id →
        (objectWithin (fuel + 1) module).run l = .ok (id, l) := fun l hl => objectWithin_known hl fuel
    cases ho : m.object with
    | some id' =>
      have hobject : g.objectOf module = some id' := by simp [objectOf, hm, ho]
      rw [objectWithin_known hobject] at hrun
      obtain ⟨rfl, rfl⟩ := Prod.mk.inj (Except.ok.inj hrun)
      refine ⟨⟨.refl hg, fun l hl => hknown l (hl.object _ _ hobject)⟩, ?_⟩
      exact (hg.sound.object module id').mp hobject
    | none =>
      have hbound := (List.getElem?_eq_some_iff.mp hm).1
      have hnone : g.objectOf module = none := by simp [objectOf, hm, ho]
      have hbase : m.baseName ∈ g.baseNames := List.mem_map_of_mem (List.mem_of_getElem? hm)
      have hstart := extends_startObject hbound hnone hbase
      rw [objectWithin_new hm ho] at hrun
      obtain ⟨members, l, hmembers, hrest⟩ := run_bind_ok.mp hrun
      obtain ⟨rfl, rfl⟩ : g.declarations.length = id ∧ l.finishObject module g.declarations.length members = k := by
        simpa using Except.ok.inj hrest
      have hfits : Fits R n (g.startObject module m.baseName) :=
        ⟨hstart.later.routes.trans hg.routes, hstart.later.externals.trans hg.externals,
          sound_startObject hg.sound hbound hnone hbase⟩
      obtain ⟨t, hnames, hsettles⟩ := traces_members h module _ _ members l hfits hmembers
      have hentity : l.entity? g.declarations.length = some (.whole module) := by
        refine t.grown.later.entity _ _ ?_
        rw [entity?_startObject, if_pos rfl]
      have hlater := later_finishObject members hentity
      refine ⟨⟨⟨?_, ⟨?_, ?_, sound_finishObject t.fits.sound members hentity⟩, fun tracing hc => ?_⟩,
        fun k hk => ?_⟩, hlater.entity _ _ hentity⟩
      · exact extends_finishObject members (hstart.trans t.grown) hentity (Nat.le_refl _)
      · exact t.fits.routes
      · exact t.fits.externals
      · refine Complete.finishObject (t.complete (module :: tracing) ?_) t.fits.sound hentity ?_ hsettles
        · refine Complete.extends (fun i d j ms v hd hk hj => hc i d j ms v hd hk ?_) hstart ?_
          · exact fun hmem => hj (List.mem_cons_of_mem _ hmem)
          · intro i d hi hd j ms v hk
            have hnew : (g.startObject module m.baseName).declarations =
                g.declarations ++ [{ name := m.baseName, kind := .object module [] false }] := rfl
            rw [hnew, List.getElem?_append_right hi] at hd
            obtain rfl := List.mem_singleton.mp (List.mem_of_getElem? hd)
            cases hk
            exact List.mem_cons_self
        · exact hnames.trans (exportNames_congr (hg.routes.trans t.fits.routes.symm) module)
      · refine hknown k (hk.object _ _ (t.grown.later.object _ _ ?_))
        rw [objectOf_startObject hbound, if_pos rfl]

theorem tracesWithin (hR : Ranged R n) (fuel : Nat) : TracesWithin R n fuel := by
  induction fuel with
  | zero =>
    constructor
    · intro module name
      rw [traceWithin]
      exact Traces.fail fun g r h => by cases h
    · intro target name importer _
      rw [followWithin]
      exact Traces.fail fun g r h => by cases h
    · intro module name importer
      rw [exportWithin]
      exact Traces.fail fun g r h => by cases h
    · intro module name visited
      rw [findExportWithin]
      exact Traces.fail fun g r h => by cases h
    · intro module
      rw [objectWithin]
      exact Traces.fail fun g r h => by cases h
  | succ fuel ih =>
    exact ⟨traces_traceWithin hR ih, traces_followWithin ih, traces_exportWithin ih,
      traces_findExportWithin hR ih, traces_objectWithin ih⟩

theorem Traces.bounded {α : Type} {x : Nat → Build α} {Q : Graph → α → Prop}
    (hx : ∀ fuel, Traces R n (x fuel) Q) : Traces R n (do x (← get).traceBound) Q := by
  intro g a h hg hrun
  obtain ⟨t, hQ⟩ := hx g.traceBound g a h hg hrun
  refine ⟨⟨t.toExplored, fun k hk => ?_⟩, hQ⟩
  rw [run_get_bind, traceBound_congr (hk.routes.trans t.grown.later.routes)]
  exact t.again k hk

theorem traces_trace (hR : Ranged R n) (module : Nat) (name : String) :
    Traces R n (trace module name) fun g r => ∀ id, r = some id → Visible R module g id :=
  Traces.bounded fun fuel => (tracesWithin hR fuel).trace module name

theorem traces_traceExport (hR : Ranged R n) (module : Nat) (name : String) (importer : Nat) :
    Traces R n (traceExport (.inside module) name importer) fun g id => Visible R module g id :=
  Traces.bounded fun fuel => (tracesWithin hR fuel).export_ module name importer

end

end Graph

end Treeshake
