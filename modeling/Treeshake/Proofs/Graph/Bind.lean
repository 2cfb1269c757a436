import Treeshake.Graph.Bind
import Treeshake.Proofs.Graph.Trace
/-!
Binding. Main statement: binding all references of a wired graph leaves it wired, so that every reference
leads to a declaration that its module can see.
-/
set_option autoImplicit false

namespace Treeshake.Graph

/-- A graph that nothing is marked in yet: whatever its declarations and statements name is there. -/
structure Wired (R : List Routes) (n : Nat) (g : Graph) : Prop where
  fits : Fits R n g
  complete : Complete [] g
  unused : ∀ (id : Nat) (d : Declaration), g.declarations[id]? = some d → d.used = false
  placed : ∀ (id : Nat) (d : Declaration) (r : StatementRef), g.declarations[id]? = some d →
    d.statement = some r → ∃ s, g.statement? r = some s
  owned : ∀ (id : Nat) (d : Declaration) (r : StatementRef), g.declarations[id]? = some d →
    d.statement = some r → d.entity id = .own id
  named : ∀ (id k : Nat) (d : Declaration), g.declarations[id]? = some d →
    k ∈ d.aliases ∨ d.standsFor = some k → ∃ e, g.entity? k = some e
  unmarked : ∀ (r : StatementRef) (s : Statement), g.statement? r = some s → s.included = false
  bound : ∀ (r : StatementRef) (s : Statement), g.statement? r = some s → ∀ x ∈ s.references,
    ∀ id, x.declaration? = some id → Visible R r.module g id
  sources : ∀ (i : Nat) (m : LinkedModule), g.modules[i]? = some m →
    ∀ s t, m.targets.get? s = some t → s ∈ m.sources

variable {R : List Routes} {n : Nat} {g h : Graph}

theorem Extends.module {i : Nat} {m : LinkedModule} (he : Extends g h)
    (hm : h.modules[i]? = some m) : ∃ m', g.modules[i]? = some m' ∧ m.unasked = m'.unasked := by
  have hmodules : (h.modules.map LinkedModule.unasked)[i]? = (g.modules.map LinkedModule.unasked)[i]? := by
    rw [he.modules]
  rw [List.getElem?_map, List.getElem?_map, hm, Option.map_some] at hmodules
  obtain ⟨m', hm', heq⟩ := Option.map_eq_some_iff.mp hmodules.symm
  exact ⟨m', hm', heq.symm⟩

/-- A declaration of the grown graph is an old one or passive. -/
theorem Extends.old_or_passive {id : Nat} {d : Declaration} (he : Extends g h)
    (hd : h.declarations[id]? = some d) : g.declarations[id]? = some d ∨ Passive g.baseNames d := by
  rcases Nat.lt_or_ge id g.declarations.length with hid | hid
  · have hold := List.getElem?_eq_getElem hid
    rw [hold]
    exact .inl ((he.declaration hold).symm.trans hd)
  · exact .inr (he.passive hd hid)

theorem standsFor_eq_none {d : Declaration} {id : Nat} (hd : d.entity id ≠ .own id) :
    d.standsFor = none := by
  unfold Declaration.entity at hd
  unfold Declaration.standsFor
  cases hk : d.kind <;> simp_all

theorem Wired.explored (hg : Wired R n g) (t : Explored R n g h) : Wired R n h where
  fits := t.fits
  complete := t.complete [] hg.complete
  unused id d hd := (t.grown.old_or_passive hd).elim (hg.unused id d) (·.used)
  placed id d r hd hr := by
    rw [t.grown.statement?]
    rcases t.grown.old_or_passive hd with hold | hp
    · exact hg.placed id d r hold hr
    · rw [hp.statement] at hr
      cases hr
  owned id d r hd hr := by
    rcases t.grown.old_or_passive hd with hold | hp
    · exact hg.owned id d r hold hr
    · rw [hp.statement] at hr
      cases hr
  named id k d hd hk := by
    rcases t.grown.old_or_passive hd with hold | hp
    · obtain ⟨e, he⟩ := hg.named id k d hold hk
      exact ⟨e, t.grown.later.entity k e he⟩
    · rw [hp.aliases, standsFor_eq_none (hp.kind 0)] at hk
      simp at hk
  unmarked r s hs := hg.unmarked r s (t.grown.statement? r ▸ hs)
  bound r s hs x hx id hid :=
    (hg.bound r s (t.grown.statement? r ▸ hs) x hx id hid).later t.grown.later
  sources i m hm s k hk := by
    obtain ⟨m', hm', heq⟩ := t.grown.module hm
    have htargets : m.targets = m'.targets := congrArg (·.targets) heq
    have hsources : m.sources = m'.sources := congrArg (·.sources) heq
    rw [hsources]
    exact hg.sources i m' hm' s k (htargets ▸ hk)

structure Retains (g : Graph) (id : Nat) (d e : Declaration) : Prop where
  entity : e.entity id = d.entity id
  statement : e.statement = d.statement
  used : e.used = d.used
  named : ∀ k, k ∈ e.aliases ∨ e.standsFor = some k →
    (k ∈ d.aliases ∨ d.standsFor = some k) ∨ ∃ x, g.entity? k = some x
  object : ∀ i members v, e.kind = .object i members v → ∃ v', d.kind = .object i members v'

theorem Retains.refl (g : Graph) (id : Nat) (d : Declaration) : Retains g id d d :=
  ⟨rfl, rfl, rfl, fun _ => .inl, fun _ _ v h => ⟨v, h⟩⟩

structure Binds (R : List Routes) (g h : Graph) : Prop where
  later : Later g h
  sound : g.Sound → h.Sound
  declarations : ∀ (id : Nat) (e : Declaration), h.declarations[id]? = some e →
    ∃ d, g.declarations[id]? = some d ∧ Retains g id d e
  statements : ∀ (r : StatementRef) (s' : Statement), h.statement? r = some s' →
    ∃ s, g.statement? r = some s ∧ s'.included = s.included ∧ ∀ x ∈ s'.references,
      x ∈ s.references ∨ ∀ id, x.declaration? = some id → Visible R r.module g id
  kept : ∀ (r : StatementRef) (s : Statement), g.statement? r = some s → ∃ s', h.statement? r = some s'
  modules : ∀ (i : Nat) (m' : LinkedModule), h.modules[i]? = some m' →
    ∃ m, g.modules[i]? = some m ∧ m'.targets = m.targets ∧ m'.sources = m.sources

theorem Wired.binds (hg : Wired R n g) (hb : Binds R g h) : Wired R n h where
  fits := ⟨hb.later.routes.trans hg.fits.routes, hb.later.externals.trans hg.fits.externals,
    hb.sound hg.fits.sound⟩
  complete := hg.complete.later hb.later fun id e he =>
    (hb.declarations id e he).imp fun _ h => ⟨h.1, h.2.object⟩
  unused id e he := by
    obtain ⟨d, hd, hretains⟩ := hb.declarations id e he
    exact hretains.used.trans (hg.unused id d hd)
  placed id e r he hr := by
    obtain ⟨d, hd, hretains⟩ := hb.declarations id e he
    obtain ⟨s, hs⟩ := hg.placed id d r hd (hretains.statement ▸ hr)
    exact hb.kept r s hs
  owned id e r he hr := by
    obtain ⟨d, hd, hretains⟩ := hb.declarations id e he
    exact hretains.entity.trans (hg.owned id d r hd (hretains.statement ▸ hr))
  named id k e he hk := by
    obtain ⟨d, hd, hretains⟩ := hb.declarations id e he
    have hold : ∃ x, g.entity? k = some x := (hretains.named k hk).elim (hg.named id k d hd) fun hx => hx
    exact hold.imp fun x hx => hb.later.entity k x hx
  unmarked r s' hs' := by
    obtain ⟨s, hs, hincluded, -⟩ := hb.statements r s' hs'
    exact hincluded.trans (hg.unmarked r s hs)
  bound r s' hs' x hx id hid := by
    obtain ⟨s, hs, -, hreferences⟩ := hb.statements r s' hs'
    rcases hreferences x hx with hold | hnew
    · exact (hg.bound r s hs x hold id hid).later hb.later
    · exact (hnew id hid).later hb.later
  sources i m' hm' s t ht := by
    obtain ⟨m, hm, htargets, hsources⟩ := hb.modules i m' hm'
    rw [hsources]
    exact hg.sources i m hm s t (htargets ▸ ht)

theorem binds_of_modules (hl : Later g h) (hs : g.Sound → h.Sound) (hm : h.modules = g.modules)
    (hd : ∀ (id : Nat) (e : Declaration), h.declarations[id]? = some e →
      ∃ d, g.declarations[id]? = some d ∧ Retains g id d e) : Binds R g h where
  later := hl
  sound := hs
  declarations := hd
  statements r s hs := by
    rw [statement?, hm] at hs
    exact ⟨s, hs, rfl, fun x hx => .inl hx⟩
  kept r s hs := ⟨s, by rw [statement?, hm]; exact hs⟩
  modules i m hi := ⟨m, hm ▸ hi, rfl, rfl⟩

theorem facts?_modifyDeclaration {id : Nat} {f : Declaration → Declaration}
    (hf : ∀ d, g.declarations[id]? = some d → (f d).entity id = d.entity id ∧ (f d).statement = d.statement)
    (k : Nat) : (g.modifyDeclaration id f).facts? k = g.facts? k := by
  rw [facts?, facts?, modifyDeclaration, getElem?_modify_eq]
  by_cases hk : id = k
  · subst hk
    rw [if_pos rfl]
    cases hd : g.declarations[id]? with
    | none => rfl
    | some d =>
      obtain ⟨he, hs⟩ := hf d hd
      simp [he, hs]
  · rw [if_neg hk]

theorem later_modifyDeclaration {id : Nat} {f : Declaration → Declaration}
    (hf : ∀ d, g.declarations[id]? = some d → (f d).entity id = d.entity id ∧ (f d).statement = d.statement) :
    Later g (g.modifyDeclaration id f) :=
  .of_facts rfl rfl (facts?_modifyDeclaration hf) (fun _ => rfl) (fun _ _ => rfl) fun _ h => h

theorem sound_modifyDeclaration {id : Nat} {f : Declaration → Declaration} (hg : g.Sound)
    (hf : ∀ d, g.declarations[id]? = some d → (f d).entity id = d.entity id ∧ (f d).statement = d.statement) :
    (g.modifyDeclaration id f).Sound :=
  hg.congr rfl (facts?_modifyDeclaration hf) (fun _ => rfl) fun _ _ => rfl

theorem binds_modifyDeclaration {id : Nat} {f : Declaration → Declaration}
    (hf : ∀ d, g.declarations[id]? = some d → Retains g id d (f d)) :
    Binds R g (g.modifyDeclaration id f) := by
  have hfacts := fun d hd => And.intro (hf d hd).entity (hf d hd).statement
  refine binds_of_modules (later_modifyDeclaration hfacts) (sound_modifyDeclaration · hfacts) rfl ?_
  intro k e he
  rw [modifyDeclaration, getElem?_modify_eq] at he
  by_cases hk : id = k
  · subst hk
    rw [if_pos rfl] at he
    obtain ⟨d, hd, rfl⟩ := Option.map_eq_some_iff.mp he
    exact ⟨d, hd, hf d hd⟩
  · rw [if_neg hk] at he
    exact ⟨e, he, .refl g k e⟩

theorem binds_same (hm : h.modules = g.modules) (hx : h.externals = g.externals)
    (hd : h.declarations = g.declarations) : Binds R g h := by
  have hr : h.routes = g.routes := by rw [routes, hm, routes]
  have hl : h.externals.length = g.externals.length := by rw [hx]
  have hf : ∀ id, h.facts? id = g.facts? id := fun id => by rw [facts?, hd, facts?]
  have ho : ∀ i, h.objectOf i = g.objectOf i := fun i => by rw [objectOf, hm, objectOf]
  have he : ∀ e name, h.externalId? e name = g.externalId? e name :=
    fun e name => by rw [externalId?, hx, externalId?]
  refine binds_of_modules (.of_facts hr hl hf ho he fun e hn => ?_) (·.congr hr hf ho he) hm ?_
  · rw [namesExports, hx]
    exact hn
  · exact fun id d h => ⟨d, hd ▸ h, .refl g id d⟩

theorem declarations_suggest (e : External) (name : String) : (e.suggest name).declarations = e.declarations := by
  simp only [External.suggest]
  split <;> rfl

theorem later_suggest (g : Graph) (external : Nat) (name : String) :
    Later g (g.modifyExternal external (·.suggest name)) := by
  refine later_modifyExternal (declarations_suggest · name) fun e he => ?_
  simp only [External.suggest]
  split <;> exact he

theorem binds_suggest (external : Nat) (name : String) :
    Binds R g (g.modifyExternal external (·.suggest name)) := by
  refine binds_of_modules (later_suggest g external name) (fun hs => ?_) rfl fun id d h => ⟨d, h, .refl g id d⟩
  refine hs.congr rfl (fun _ => rfl) (fun _ => rfl) fun e key => ?_
  rw [externalId?_modify]
  split
  · simp only [declarations_suggest]
    rfl
  · rfl

def modifyStatement (g : Graph) (r : StatementRef) (f : Statement → Statement) : Graph :=
  g.modifyModule r.module fun m => { m with statements := m.statements.modify r.index f }

theorem statement?_modifyStatement (g : Graph) (r k : StatementRef) (f : Statement → Statement) :
    (g.modifyStatement r f).statement? k =
      if r = k then (g.statement? k).map f else g.statement? k := by
  obtain ⟨i, j⟩ := r
  obtain ⟨i', j'⟩ := k
  simp only [modifyStatement, modifyModule, statement?, getElem?_modify_eq, StatementRef.mk.injEq]
  by_cases hi : i = i'
  · subst hi
    cases g.modules[i]? with
    | none => simp
    | some m =>
      simp only [if_true, Option.map_some, Option.bind_some, getElem?_modify_eq, true_and]
  · simp only [hi, false_and, if_false]

theorem routes_modifyStatement (g : Graph) (r : StatementRef) (f : Statement → Statement) :
    (g.modifyStatement r f).routes = g.routes := by
  refine routes_modifyModule ?_
  exact fun _ => rfl

theorem objectOf_modifyStatement (g : Graph) (r : StatementRef) (f : Statement → Statement) (i : Nat) :
    (g.modifyStatement r f).objectOf i = g.objectOf i := by
  simp only [modifyStatement, modifyModule, objectOf, getElem?_modify_eq]
  cases g.modules[i]? <;> split <;> simp

theorem later_modifyStatement (g : Graph) (r : StatementRef) (f : Statement → Statement) :
    Later g (g.modifyStatement r f) :=
  .of_facts (routes_modifyStatement g r f) rfl (fun _ => rfl) (objectOf_modifyStatement g r f)
    (fun _ _ => rfl) fun _ h => h

theorem sound_modifyStatement (hg : g.Sound) (r : StatementRef) (f : Statement → Statement) :
    (g.modifyStatement r f).Sound :=
  hg.congr (routes_modifyStatement g r f) (fun _ => rfl) (objectOf_modifyStatement g r f) fun _ _ => rfl

theorem module_modifyStatement {r : StatementRef} {f : Statement → Statement} {i : Nat}
    {m' : LinkedModule} (hm : (g.modifyStatement r f).modules[i]? = some m') :
    ∃ m, g.modules[i]? = some m ∧ m'.targets = m.targets ∧ m'.sources = m.sources := by
  rw [modifyStatement, modifyModule, List.getElem?_modify] at hm
  obtain ⟨m, hget, rfl⟩ := Option.map_eq_some_iff.mp hm
  refine ⟨m, hget, ?_⟩
  split <;> exact ⟨rfl, rfl⟩

theorem binds_modifyStatement {r : StatementRef} {references : List Reference}
    (hr : ∀ x ∈ references, ∀ id, x.declaration? = some id → Visible R r.module g id) :
    Binds R g (g.modifyStatement r fun s => { s with references }) where
  later := later_modifyStatement g r _
  sound hg := sound_modifyStatement hg r _
  declarations id d hd := ⟨d, hd, .refl g id d⟩
  statements k s' hs' := by
    rw [statement?_modifyStatement] at hs'
    by_cases hk : r = k
    · subst hk
      rw [if_pos rfl] at hs'
      obtain ⟨s, hs, rfl⟩ := Option.map_eq_some_iff.mp hs'
      exact ⟨s, hs, rfl, fun x hx => .inr (hr x hx)⟩
    · rw [if_neg hk] at hs'
      exact ⟨s', hs', rfl, fun x hx => .inl hx⟩
  kept k s hs := by
    rw [statement?_modifyStatement, hs]
    split
    · exact ⟨_, rfl⟩
    · exact ⟨s, rfl⟩
  modules _ _ hm := module_modifyStatement hm

/-- Whatever a step gives from a graph, the graph behind it is wired and later. -/
def Keeps (R : List Routes) (n : Nat) (g : Graph) {α : Type} (x : Build α) (Q : Graph → α → Prop) :
    Prop :=
  ∀ a h, x.run g = .ok (a, h) → Wired R n h ∧ Later g h ∧ Q h a

section
variable {α β : Type} {Q : Graph → β → Prop}

theorem Keeps.pure {b : β} (hg : Wired R n g) (hQ : Q g b) : Keeps R n g (Pure.pure b) Q := by
  intro a h hrun
  obtain ⟨rfl, rfl⟩ := run_pure_ok.mp hrun
  exact ⟨hg, .refl g, hQ⟩

theorem Keeps.bind {x : Build α} {f : α → Build β} {P : Graph → α → Prop} (hx : Keeps R n g x P)
    (hf : ∀ a h, Wired R n h → Later g h → P h a → Keeps R n h (f a) Q) :
    Keeps R n g (x >>= f) Q := by
  intro b k hrun
  obtain ⟨a, h, hxa, hfb⟩ := run_bind_ok.mp hrun
  obtain ⟨hw, hl, hP⟩ := hx a h hxa
  obtain ⟨hw', hl', hQ⟩ := hf a h hw hl hP b k hfb
  exact ⟨hw', hl.trans hl', hQ⟩

theorem Keeps.traces {x : Build β} (hg : Wired R n g) (hx : Traces R n x Q) : Keeps R n g x Q := by
  intro b h hrun
  obtain ⟨t, hQ⟩ := hx g b h hg.fits hrun
  exact ⟨hg.explored t.toExplored, t.grown.later, hQ⟩

theorem Keeps.get {f : Graph → Build β} (hf : Keeps R n g (f g) Q) : Keeps R n g (get >>= f) Q := hf

theorem Keeps.put {f : Unit → Build β} (hl : Later g h) (hf : Keeps R n h (f ()) Q) :
    Keeps R n g (set h >>= f) Q := by
  intro b k hrun
  obtain ⟨hw, hl', hQ⟩ := hf b k hrun
  exact ⟨hw, hl.trans hl', hQ⟩

theorem Keeps.modify {f : Graph → Graph} {k : Unit → Build β} (hl : Later g (f g))
    (hk : Keeps R n (f g) (k ()) Q) : Keeps R n g (modify f >>= k) Q := by
  intro b l hrun
  obtain ⟨hw, hl', hQ⟩ := hk b l hrun
  exact ⟨hw, hl.trans hl', hQ⟩

theorem Keeps.foldlM {f : β → α → Build β} {l : List α} {I : Graph → Prop}
    (hf : ∀ a ∈ l, ∀ b h, Wired R n h → I h → Keeps R n h (f b a) fun k _ => I k) (b : β)
    (hg : Wired R n g) (hI : I g) : Keeps R n g (l.foldlM f b) fun h _ => I h := by
  induction l generalizing b g with
  | nil => exact Keeps.pure hg hI
  | cons a l ih =>
    rw [List.foldlM_cons]
    refine (hf a List.mem_cons_self b g hg hI).bind fun b h hw _ hI' => ?_
    exact ih (fun a ha => hf a (List.mem_cons_of_mem _ ha)) b hw hI'

end

theorem Fits.own (hg : Fits R n g) {i id : Nat} {m : Routes} {name : String} (hm : R[i]? = some m)
    (hid : (name, id) ∈ m.declarations) : Visible R i g id := by
  obtain ⟨d, hd, he, -⟩ := hg.sound.own i m name id (hg.routes.symm ▸ hm) hid
  exact ⟨.own id, by rw [entity?, hd, Option.map_some, he], i, m, name, .refl, hm, hid⟩

theorem Fits.module (hg : Fits R n g) {i : Nat} {m : LinkedModule} (hm : g.modules[i]? = some m) :
    R[i]? = some m.routes := by
  rw [← hg.routes, getElem?_routes, hm, Option.map_some]

theorem Settles.visible (hR : Ranged R n) (hg : Fits R n g) {i id : Nat} {name : String}
    (hs : Settles g i name id) : Visible R i g id := by
  obtain ⟨fuel, hrun⟩ := hs
  exact ((tracesWithin hR fuel).export_ i name i g id g hg (hrun g (.refl g))).2

theorem Wired.member (hR : Ranged R n) (hg : Wired R n g) {i id k : Nat} {module : Nat}
    {members : Table Nat} {v : Bool} {name : String} {d : Declaration} (hv : Visible R i g id)
    (hd : g.declarations[id]? = some d) (hkind : d.kind = .object module members v)
    (hk : members.get? name = some k) : Visible R i g k := by
  obtain ⟨-, hmembers⟩ := hg.complete id d module members v hd hkind List.not_mem_nil
  have hsettles := hmembers name k (lookup_mem hk)
  refine (hsettles.visible hR hg.fits).of_reaches ?_
  obtain ⟨e, he, hs⟩ := hv
  rw [entity?, hd, Option.map_some, Declaration.entity, hkind] at he
  obtain rfl := Option.some.inj he
  exact hs

theorem binds_asValue {id module : Nat} {members : Table Nat} {d : Declaration}
    (hd : g.declarations[id]? = some d) (hkind : d.kind = .object module members false) :
    Binds R g (g.modifyDeclaration id fun d => { d with kind := .object module members true }) := by
  refine binds_modifyDeclaration fun e he => ?_
  obtain rfl := Option.some.inj (hd.symm.trans he)
  refine ⟨?_, rfl, rfl, fun k hk => .inl ?_, fun i ms v h => ?_⟩
  · rw [Declaration.entity, Declaration.entity, hkind]
  · simpa [Declaration.standsFor, hkind] using hk
  · cases h
    exact ⟨false, hkind⟩

theorem useAsValue_cases (g : Graph) (id : Nat) :
    g.useAsValue id = g ∨ ∃ d module members, g.declarations[id]? = some d ∧
      d.kind = .object module members false ∧ g.useAsValue id =
        { g.modifyDeclaration id fun d => { d with kind := .object module members true } with
          objects := g.objects ++ [id] } := by
  unfold useAsValue
  split
  · next module members _ _ _ _ _ hd => exact .inr ⟨_, module, members, hd, rfl, rfl⟩
  · exact .inl rfl

theorem Wired.useAsValue (hg : Wired R n g) (id : Nat) :
    Wired R n (g.useAsValue id) ∧ Later g (g.useAsValue id) := by
  rcases useAsValue_cases g id with h | ⟨d, module, members, hd, hkind, h⟩
  · rw [h]
    exact ⟨hg, .refl g⟩
  · rw [h]
    have hb := binds_asValue (R := R) hd hkind
    have hb' : Binds R (g.modifyDeclaration id fun d => { d with kind := .object module members true })
        { g.modifyDeclaration id fun d => { d with kind := .object module members true } with
          objects := g.objects ++ [id] } := binds_same rfl rfl rfl
    exact ⟨(hg.binds hb).binds hb', hb.later.trans hb'.later⟩

theorem binds_rename (id : Nat) {f : Declaration → Declaration}
    (hf : ∀ d, (f d).kind = d.kind ∧ (f d).statement = d.statement ∧ (f d).used = d.used ∧
      (f d).aliases = d.aliases) : Binds R g (g.modifyDeclaration id f) := by
  refine binds_modifyDeclaration fun d _ => ?_
  obtain ⟨hkind, hstatement, hused, haliases⟩ := hf d
  refine ⟨?_, hstatement, hused, fun k hk => .inl ?_, fun i members v h => ⟨v, hkind ▸ h⟩⟩
  · rw [Declaration.entity, Declaration.entity, hkind]
  · rwa [haliases, Declaration.standsFor, hkind] at hk

/-- What a reference is bound to can be seen from its module. -/
def Bound (R : List Routes) (module : Nat) (g : Graph) (r : Reference) : Prop :=
  ∀ id, r.declaration? = some id → Visible R module g id

theorem Bound.later {module : Nat} {r : Reference} (hr : Bound R module g r) (hl : Later g h) :
    Bound R module h r := fun id hid => (hr id hid).later hl

theorem Bound.of_declared {module id : Nat} {r : Reference} (hv : Visible R module g id)
    (hr : r.binding = .declared id) : Bound R module g r := by
  intro k hk
  rw [Reference.declaration?, hr] at hk
  obtain rfl := Option.some.inj hk
  exact hv

theorem keeps_bindTo_of (hR : Ranged R n) {module : Nat} {accesses : List Access} {id : Nat}
    {r : Reference} (hg : Wired R n g) (hv : Visible R module g id)
    (hmember : ∀ a rest, accesses = a :: rest → ∀ k, Visible R module g k →
      Keeps R n g (bindTo module rest k { r with name := a.name, stop := a.stop }) (Bound R module)) :
    Keeps R n g (bindTo module accesses id r) (Bound R module) := by
  have hset : ∀ h, Wired R n h → Later g h → Keeps R n g
      (do set h; return { r with accesses, binding := .declared id }) (Bound R module) := by
    intro h hw hl
    exact Keeps.put hl (Keeps.pure hw (.of_declared (hv.later hl) rfl))
  have hbinds : ∀ h, Binds R g h → Keeps R n g
      (do set h; return { r with accesses, binding := .declared id }) (Bound R module) :=
    fun h hb => hset h (hg.binds hb) hb.later
  rw [bindTo]
  refine Keeps.get ?_
  dsimp only
  split
  · exact Keeps.pure hg (.of_declared hv rfl)
  · exact hbinds _ (binds_rename id fun d => ⟨rfl, rfl, rfl, rfl⟩)
  · exact hbinds _ (binds_rename id fun d => ⟨rfl, rfl, rfl, rfl⟩)
  · next external name _ =>
    split
    · exact hbinds _ (binds_suggest external r.name)
    · exact Keeps.pure hg (.of_declared hv rfl)
  · next exporter members v hkind =>
    obtain ⟨d, hd, hdk⟩ := Option.map_eq_some_iff.mp hkind
    split
    · obtain ⟨hw, hl⟩ := hg.useAsValue id
      have hb : Binds R (g.useAsValue id)
          ((g.useAsValue id).modifyDeclaration id fun d => { d with name := r.name }) :=
        binds_rename id fun d => ⟨rfl, rfl, rfl, rfl⟩
      exact hset _ (hw.binds hb) (hl.trans hb.later)
    · next a rest =>
      split
      · next k hk => exact hmember a rest rfl k (hg.member hR hv hd hdk hk)
      · intro x k hrun
        cases hrun

theorem keeps_bindTo (hR : Ranged R n) (module : Nat) (accesses : List Access) (id : Nat)
    (r : Reference) (hg : Wired R n g) (hv : Visible R module g id) :
    Keeps R n g (bindTo module accesses id r) (Bound R module) := by
  induction accesses generalizing id r with
  | nil => exact keeps_bindTo_of hR hg hv fun a rest h => by cases h
  | cons a rest ih =>
    refine keeps_bindTo_of hR hg hv fun b rest' h k hk => ?_
    obtain ⟨rfl, rfl⟩ := List.cons.inj h
    exact ih k _ hk

theorem keeps_bindReference (hR : Ranged R n) (module : Nat) (stats : LinkStats) (r : Reference)
    (hg : Wired R n g) (hr : Bound R module g r) :
    Keeps R n g (bindReference module stats r) fun h p => Bound R module h p.1 := by
  rw [bindReference]
  refine Keeps.get ?_
  split
  · exact Keeps.pure hg hr
  · next m hm =>
    have hdeclared : Keeps R n g (pure (m.declarations.get? r.name)) fun h found =>
        ∀ id, found = some id → Visible R module h id :=
      Keeps.pure hg fun id hid => hg.fits.own (hg.fits.module hm) (lookup_mem hid)
    have htraced : Keeps R n g (trace module r.name) fun h found =>
        ∀ id, found = some id → Visible R module h id := Keeps.traces hg (traces_trace hR module r.name)
    dsimp only
    split
    · exact Keeps.pure hg fun id hid => by cases hid
    · split
      refine hdeclared.bind ?_
      rotate_left
      refine htraced.bind ?_
      all_goals
        intro found h hw _ hv
        split
        · next id =>
          exact (keeps_bindTo hR module r.accesses id r hw (hv id rfl)).bind
            fun r' k hw' _ hb => Keeps.pure hw' hb
        · have hb : Binds R h { h with globals := addNew r.name h.globals } := binds_same rfl rfl rfl
          exact Keeps.modify hb.later (Keeps.pure (hw.binds hb) fun id hid => by cases hid)

theorem keeps_bindReferenceList (hR : Ranged R n) (module : Nat) (stats : LinkStats)
    (rs : List Reference) (hg : Wired R n g) (hr : ∀ r ∈ rs, Bound R module g r) :
    Keeps R n g (bindReferenceList module stats rs) fun h p => ∀ r ∈ p.1, Bound R module h r := by
  induction rs generalizing g stats with
  | nil => exact Keeps.pure hg fun r hr => by cases hr
  | cons r rs ih =>
    rw [bindReferenceList]
    refine (keeps_bindReference hR module stats r hg (hr r List.mem_cons_self)).bind
      fun p h hw hl hp => ?_
    refine (ih p.2 hw fun r' hr' => (hr r' (List.mem_cons_of_mem _ hr')).later hl).bind
      fun ps k hw' hl' hps => Keeps.pure hw' fun x hx => ?_
    rcases List.mem_cons.mp hx with rfl | hx
    · exact hp.later hl'
    · exact hps x hx

theorem keeps_bindStatement (hR : Ranged R n) (module : Nat) (stats : LinkStats) (index : Nat)
    (hg : Wired R n g) : Keeps R n g (bindStatement module stats index) fun _ _ => True := by
  rw [bindStatement]
  refine Keeps.get ?_
  split
  · exact Keeps.pure hg trivial
  · next s hs =>
    split
    · exact Keeps.pure hg trivial
    · refine (keeps_bindReferenceList hR module stats s.references hg (hg.bound _ s hs)).bind
        fun p h hw _ hp => ?_
      have hb : Binds R h (h.modifyStatement ⟨module, index⟩ fun s => { s with references := p.1 }) :=
        binds_modifyStatement hp
      exact Keeps.modify hb.later (Keeps.pure (hw.binds hb) trivial)

theorem binds_default {i id other : Nat} {m : Routes} (hg : Fits R n g) (hm : R[i]? = some m)
    (hid : ("default", id) ∈ m.declarations) (hother : Visible R i g other) :
    Binds R g (g.modifyDeclaration id fun d => { d with kind := .defaultValue (some other) }) := by
  obtain ⟨d, hd, hentity, -⟩ := hg.sound.own i m "default" id (hg.routes.symm ▸ hm) hid
  refine binds_modifyDeclaration fun d' hd' => ?_
  obtain rfl := Option.some.inj (hd.symm.trans hd')
  refine ⟨hentity.symm, rfl, rfl, fun k hk => ?_, fun i ms v h => by cases h⟩
  rcases hk with hk | hk
  · exact .inl (.inl hk)
  · obtain rfl := Option.some.inj hk
    obtain ⟨e, he, -⟩ := hother
    exact .inr ⟨e, he⟩

theorem keeps_bindDefault (hR : Ranged R n) (module : Nat) (hg : Wired R n g) :
    Keeps R n g (bindDefault module) fun _ _ => True := by
  rw [bindDefault]
  refine Keeps.get ?_
  split
  · exact Keeps.pure hg trivial
  · next m hm =>
    split
    · next id identifier hid _ =>
      refine (Keeps.traces hg (traces_trace hR module identifier)).bind fun found h hw hl hv => ?_
      split
      · next other =>
        split
        · have hb := binds_default hw.fits (hg.fits.module hm) (lookup_mem hid) (hv other rfl)
          intro a k hrun
          obtain ⟨rfl, rfl⟩ := Prod.mk.inj (Except.ok.inj hrun)
          exact ⟨hw.binds hb, hb.later, trivial⟩
        · exact Keeps.pure hw trivial
      · exact Keeps.pure hw trivial
    · exact Keeps.pure hg trivial

theorem keeps_bindReferences (hR : Ranged R n) (stats : LinkStats) (module : Nat) (hg : Wired R n g) :
    Keeps R n g (bindReferences stats module) fun _ _ => True := by
  rw [bindReferences]
  refine (keeps_bindDefault hR module hg).bind fun _ h hw _ _ => Keeps.get ?_
  exact Keeps.foldlM (fun i _ b k hk _ => keeps_bindStatement hR module b i hk) stats hw trivial

theorem keeps_bindAlias (hR : Ranged R n) (module count : Nat) (copy : String × String × Nat)
    (hg : Wired R n g) (hcopy : ∃ e, g.entity? copy.2.2 = some e) :
    Keeps R n g (bindAlias module count copy) fun _ _ => True := by
  obtain ⟨name, copied, twin⟩ := copy
  rw [bindAlias]
  split
  · exact Keeps.pure hg trivial
  · refine (Keeps.traces hg (traces_trace hR module copied)).bind fun found h hw hl _ => ?_
    split
    · exact Keeps.pure hw trivial
    · next other _ =>
      refine Keeps.get ?_
      dsimp only
      split
      · exact Keeps.pure hw trivial
      · have hb : Binds R h (h.modifyDeclaration other fun d => { d with aliases := d.aliases ++ [twin] }) := by
          refine binds_modifyDeclaration fun d _ => ⟨rfl, rfl, rfl, fun k hk => ?_, fun i ms v h => ⟨v, h⟩⟩
          rcases hk with hk | hk
          · rcases List.mem_append.mp hk with hk | hk
            · exact .inl (.inl hk)
            · obtain rfl := List.mem_singleton.mp hk
              exact .inr (hcopy.imp fun e he => hl.entity _ e he)
          · exact .inl (.inr hk)
        exact Keeps.modify hb.later (Keeps.pure (hw.binds hb) trivial)

theorem mem_copies {m : LinkedModule} {copy : String × String × Nat} (h : copy ∈ g.copies m) :
    (copy.1, copy.2.2) ∈ m.declarations := by
  obtain ⟨⟨name, id⟩, hmem, hcopy⟩ := List.mem_filterMap.mp h
  simp only [Option.bind_eq_bind, Option.bind_eq_some_iff] at hcopy
  obtain ⟨d, -, copied, -, h⟩ := hcopy
  obtain rfl := Option.some.inj h
  exact hmem

theorem keeps_bindAliases (hR : Ranged R n) (module count : Nat) (hg : Wired R n g) :
    Keeps R n g (bindAliases module count) fun _ _ => True := by
  rw [bindAliases]
  refine Keeps.get ?_
  split
  · exact Keeps.pure hg trivial
  · next m hm =>
    refine Keeps.foldlM (fun copy hcopy b h hw _ => ?_) count hg trivial
    obtain ⟨e, he, -⟩ := hw.fits.own (hg.fits.module hm) (mem_copies hcopy)
    exact keeps_bindAlias hR module b copy hw ⟨e, he⟩

theorem wired_bind (hR : Ranged R n) {stats : LinkStats}
    (hg : Wired R n { g with modules := g.modules.map (·.bindStars) })
    (hrun : bind.run g = .ok (stats, h)) : Wired R n h := by
  have hkeeps : Keeps R n { g with modules := g.modules.map (·.bindStars) } (do
      let modules := List.range (← get).modules.length
      let aliases ← modules.foldlM (fun count module => bindAliases module count) 0
      modules.foldlM bindReferences { aliases }) fun _ _ => True := by
    refine Keeps.get ?_
    refine (Keeps.foldlM (fun i _ count k hk _ => keeps_bindAliases hR i count hk) 0 hg trivial).bind
      fun aliases k hw _ _ => ?_
    exact Keeps.foldlM (fun i _ stats l hl _ => keeps_bindReferences hR stats i hl) _ hw trivial
  exact (hkeeps stats h hrun).1

end Treeshake.Graph
