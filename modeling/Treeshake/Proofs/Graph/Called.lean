import Treeshake.Proofs.Graph.Distinct
import Treeshake.Proofs.Graph.Staged
/-!
Where names come from. What a reference is bound to takes its name, and nothing else gives any. Main statement: when
all references are bound, each external module and each declaration of the build's own is called as it was at first,
or after its module, or as a reference that is bound to it; and that one has the name its text has, or is one to a
member of a module, called as the export.
-/
set_option autoImplicit false

namespace Treeshake

namespace Graph

variable {R : List Routes} {n : Nat} {g h k : Graph} {P : String → Prop} {D : Reference → Prop}

def Owned (g : Graph) : Bearer → Prop
  | .external _ => True
  | .declaration id => g.isInternal id = true

/-- What a reference gives its name to, or may give it. -/
inductive Dubs (g : Graph) (r : Reference) : Bearer → Prop
  | declaration {id : Nat} (hr : r.declaration? = some id) : Dubs g r (.declaration id)
  | external {id i : Nat} {name : String} (hr : r.declaration? = some id)
      (hid : g.entity? id = some (.outside i name)) (hname : name = "default" ∨ name = "*") :
      Dubs g r (.external i)

theorem Dubs.later {r : Reference} {b : Bearer} (hc : g.Dubs r b) (hl : Later g h) : h.Dubs r b := by
  cases hc with
  | declaration hr => exact .declaration hr
  | external hr hid hname => exact .external hr (hl.entity _ _ hid) hname

def Offers (g : Graph) (name : String) : Prop := ∃ i, name ∈ g.exportNames i

theorem Offers.later {name : String} (ho : g.Offers name) (hl : Later g h) : h.Offers name := by
  obtain ⟨i, hi⟩ := ho
  exact ⟨i, by rwa [exportNames_congr hl.routes]⟩

structure Titled (g h : Graph) : Prop where
  later : Later g h
  bases : h.baseNames = g.baseNames
  names : ∀ b name, h.Owned b → b.name? h = some name →
    g.Owned b ∧ b.name? g = some name ∨ name ∈ g.baseNames

theorem Titled.refl (g : Graph) : Titled g g := ⟨.refl g, rfl, fun _ _ ho hname => .inl ⟨ho, hname⟩⟩

theorem Titled.trans (h₁ : Titled g h) (h₂ : Titled h k) : Titled g k where
  later := h₁.later.trans h₂.later
  bases := h₂.bases.trans h₁.bases
  names b name ho hname := by
    rcases h₂.names b name ho hname with ⟨ho, hname⟩ | hbase
    · exact h₁.names b name ho hname
    · exact .inr (h₁.bases ▸ hbase)

theorem name?_external (g : Graph) (i : Nat) : (Bearer.external i).name? g = (g.externals.map (·.name))[i]? := by
  rw [Bearer.name?, List.getElem?_map]

theorem owned_of_later {id : Nat} {d : Declaration} (hl : Later g h) (hd : g.declarations[id]? = some d)
    (ho : h.Owned (.declaration id)) :
    g.Owned (.declaration id) ∧ (Bearer.declaration id).name? g = some d.name := by
  have hknown : g.entity? id = some (d.entity id) := by rw [entity?, hd, Option.map_some]
  refine ⟨hl.isInternal_of_known hknown ho, ?_⟩
  rw [Bearer.name?, show g.declaration? id = some d from hd, Option.map_some]

theorem titled_of_declarations (hl : Later g h) (hb : h.baseNames = g.baseNames)
    (hx : h.externals.map (·.name) = g.externals.map (·.name))
    (hd : ∀ (id : Nat) (e : Declaration), h.declarations[id]? = some e →
      (∃ d, g.declarations[id]? = some d ∧ d.name = e.name) ∨ e.isExternal = true ∨ e.name ∈ g.baseNames) :
    Titled g h := by
  refine ⟨hl, hb, fun b name ho hname => ?_⟩
  cases b with
  | external i =>
    rw [name?_external, hx, ← name?_external] at hname
    exact .inl ⟨trivial, hname⟩
  | declaration id =>
    obtain ⟨e, he, rfl⟩ := Option.map_eq_some_iff.mp hname
    rcases hd id e he with ⟨d, hd, hsame⟩ | hexternal | hbase
    · exact .inl (hsame ▸ owned_of_later hl hd ho)
    · rw [Owned, isInternal_eq, show h.declarations[id]? = some e from he, Option.any_some, hexternal] at ho
      cases ho
    · exact .inr hbase

theorem Extends.titled (he : Extends g h) : Titled g h := by
  refine titled_of_declarations he.later (baseNames_congr he.modules) he.called fun id e hid => ?_
  rcases he.old_or_passive hid with hold | hpassive
  · exact .inl ⟨e, hold, rfl⟩
  · exact .inr hpassive.name

theorem titled_same (hl : Later g h) (hb : h.baseNames = g.baseNames) (hx : h.externals = g.externals)
    (hd : h.declarations = g.declarations) : Titled g h :=
  titled_of_declarations hl hb (by rw [hx]) fun _ e he => .inl ⟨e, hd ▸ he, rfl⟩

theorem name_modifyDeclaration {id : Nat} {f : Declaration → Declaration} (hf : ∀ d, (f d).name = d.name) {i : Nat}
    {e : Declaration} (he : (g.modifyDeclaration id f).declarations[i]? = some e) :
    ∃ d, g.declarations[i]? = some d ∧ d.name = e.name := by
  rw [modifyDeclaration, getElem?_modify_eq] at he
  split at he
  · obtain ⟨d, hd, rfl⟩ := Option.map_eq_some_iff.mp he
    exact ⟨d, hd, (hf d).symm⟩
  · exact ⟨e, he, rfl⟩

theorem titled_modifyDeclaration {id : Nat} {f : Declaration → Declaration}
    (hl : Later g (g.modifyDeclaration id f)) (hf : ∀ d, (f d).name = d.name) :
    Titled g (g.modifyDeclaration id f) :=
  titled_of_declarations hl rfl rfl fun _ _ he => .inl (name_modifyDeclaration hf he)

theorem titled_modifyStatement (g : Graph) (r : StatementRef) (f : Statement → Statement) :
    Titled g (g.modifyStatement r f) := by
  refine titled_same (later_modifyStatement g r f) (map_modify_of_eq ?_ g.modules r.module) rfl rfl
  exact fun _ => rfl

theorem titled_useAsValue (g : Graph) (id : Nat) : Titled g (g.useAsValue id) := by
  have hl := (grown_useAsValue g id).later
  rcases useAsValue_cases g id with h | ⟨d, module, members, -, -, h⟩ <;> rw [h] at hl ⊢
  · exact .refl g
  · refine titled_of_declarations hl rfl rfl fun _ _ he => .inl (name_modifyDeclaration ?_ he)
    exact fun _ => rfl

/-- Whether a name has a property, or else is that of an export and has been given by one of some references. -/
def Given (P : String → Prop) (D : Reference → Prop) (g : Graph) (b : Bearer) (name : String) : Prop :=
  P name ∨ ∃ r, D r ∧ g.Dubs r b ∧ r.name = name ∧ g.Offers name

theorem Given.later {D' : Reference → Prop} {b : Bearer} {name : String} (hn : Given P D g b name)
    (hD : ∀ r, D r → D' r) (hl : Later g h) : Given P D' h b name := by
  refine hn.imp_right ?_
  rintro ⟨r, hr, hdubs, hsame, hoffers⟩
  exact ⟨r, hD r hr, hdubs.later hl, hsame, hoffers.later hl⟩

/-- Every name has a property but those that references have given. -/
structure Called (P : String → Prop) (D : Reference → Prop) (g : Graph) : Prop where
  bases : ∀ name ∈ g.baseNames, P name
  names : ∀ b name, g.Owned b → b.name? g = some name → Given P D g b name

theorem Called.mono {D' : Reference → Prop} (hc : Called P D g) (hD : ∀ r, D r → D' r) : Called P D' g :=
  ⟨hc.bases, fun b name ho hname => (hc.names b name ho hname).later hD (.refl g)⟩

theorem Called.titled (hc : Called P D g) (ht : Titled g h) : Called P D h := by
  refine ⟨ht.bases ▸ hc.bases, fun b name ho hname => ?_⟩
  rcases ht.names b name ho hname with ⟨ho, hname⟩ | hbase
  · exact (hc.names b name ho hname).later (fun _ => id) ht.later
  · exact .inl (hc.bases name hbase)

theorem Called.gives {r : Reference} (hc : Called P D g) (hl : Later g h) (hb : h.baseNames = g.baseNames)
    (hr : P r.name ∨ g.Offers r.name) (hnames : ∀ b name, h.Owned b → b.name? h = some name →
      g.Owned b ∧ b.name? g = some name ∨ name = r.name ∧ h.Dubs r b) :
    Called P (fun x => D x ∨ x = r) h := by
  refine ⟨hb ▸ hc.bases, fun b name ho hname => ?_⟩
  rcases hnames b name ho hname with ⟨ho, hname⟩ | ⟨rfl, hdubs⟩
  · exact (hc.names b name ho hname).later (fun _ => .inl) hl
  · exact hr.imp_right fun hoffers => ⟨r, .inr rfl, hdubs, rfl, hoffers.later hl⟩

theorem Called.rename {id : Nat} {f : Declaration → Declaration} {r : Reference} (hc : Called P D g)
    (hl : Later g (g.modifyDeclaration id f)) (hr : P r.name ∨ g.Offers r.name) (hid : r.declaration? = some id)
    (hf : ∀ d, (f d).name = d.name ∨ (f d).name = r.name) :
    Called P (fun x => D x ∨ x = r) (g.modifyDeclaration id f) := by
  refine hc.gives hl rfl hr fun b name ho hname => ?_
  cases b with
  | external i => exact .inl ⟨trivial, hname⟩
  | declaration i =>
    obtain ⟨e, he, rfl⟩ := Option.map_eq_some_iff.mp hname
    rw [declaration?, modifyDeclaration, getElem?_modify_eq] at he
    split at he
    · next hi =>
      obtain ⟨d, hd, rfl⟩ := Option.map_eq_some_iff.mp he
      refine (hf d).imp (fun hsame => ?_) fun hsame => ⟨hsame, hi ▸ .declaration hid⟩
      rw [hsame]
      exact owned_of_later hl hd ho
    · exact .inl (owned_of_later hl he ho)

theorem Called.suggest {id i : Nat} {name : String} {r : Reference} (hc : Called P D g)
    (hr : P r.name ∨ g.Offers r.name) (hid : r.declaration? = some id)
    (hentity : g.entity? id = some (.outside i name)) (hname : name = "default" ∨ name = "*") :
    Called P (fun x => D x ∨ x = r) (g.modifyExternal i (·.suggest r.name)) := by
  have hl := later_suggest g i r.name
  have hsuggest : ∀ e : External, (e.suggest r.name).name = e.name ∨ (e.suggest r.name).name = r.name := by
    intro e
    rw [External.suggest]
    dsimp only
    split
    · exact .inr rfl
    · exact .inl rfl
  refine hc.gives hl rfl hr fun b called ho hcalled => ?_
  cases b with
  | declaration id => exact .inl ⟨ho, hcalled⟩
  | external j =>
    rw [Bearer.name?, modifyExternal, getElem?_modify_eq] at hcalled
    split at hcalled
    · next hij =>
      subst hij
      rw [Option.map_map] at hcalled
      obtain ⟨e, he, rfl⟩ := Option.map_eq_some_iff.mp hcalled
      refine (hsuggest e).imp (fun hsame => ⟨trivial, ?_⟩) fun hsame => ⟨hsame, ?_⟩
      · rw [Bearer.name?, he, Option.map_some, Function.comp_apply, hsame]
      · exact .external hid (hl.entity id _ hentity) hname
    · exact .inl ⟨trivial, hcalled⟩

theorem Complete.offers {id i member : Nat} {d : Declaration} {members : Table Nat} {v : Bool} {name : String}
    (hc : Complete [] g) (hd : g.declarations[id]? = some d) (hkind : d.kind = .object i members v)
    (hmember : members.get? name = some member) : g.Offers name := by
  refine ⟨i, ?_⟩
  rw [← (hc id d i members v hd hkind List.not_mem_nil).1]
  exact List.mem_map_of_mem (lookup_mem hmember)

theorem called_bindTo_of {module id : Nat} {accesses : List Access} {r r' : Reference} (hc : Called P D g)
    (hcomplete : Complete [] g) (hr : P r.name ∨ g.Offers r.name)
    (hmember : ∀ a rest member, accesses = a :: rest → g.Offers a.name →
      (bindTo module rest member { r with name := a.name, stop := a.stop }).run g = .ok (r', h) →
      Called P (fun x => D x ∨ x = r') h)
    (hrun : (bindTo module accesses id r).run g = .ok (r', h)) : Called P (fun x => D x ∨ x = r') h := by
  rw [bindTo, run_get_bind] at hrun
  dsimp only at hrun
  split at hrun
  · obtain ⟨rfl, rfl⟩ := run_pure_ok.mp hrun
    exact hc.mono fun _ => .inl
  · obtain ⟨rfl, rfl⟩ := Prod.mk.inj (Except.ok.inj hrun)
    exact hc.rename (later_modifyDeclaration fun _ _ => ⟨rfl, rfl⟩) hr rfl fun _ => .inr rfl
  · obtain ⟨rfl, rfl⟩ := Prod.mk.inj (Except.ok.inj hrun)
    refine hc.rename (later_modifyDeclaration fun _ _ => ⟨rfl, rfl⟩) hr rfl fun d => ?_
    dsimp only
    split
    · exact .inl rfl
    · exact .inr rfl
  · next external name hkind =>
    split at hrun
    · next hname =>
      obtain ⟨rfl, rfl⟩ := Prod.mk.inj (Except.ok.inj hrun)
      obtain ⟨d, hd, hdk⟩ := Option.map_eq_some_iff.mp hkind
      refine hc.suggest (r := { r with accesses, binding := .declared id }) hr rfl ?_ (by simpa using hname)
      rw [entity?, show g.declarations[id]? = some d from hd, Option.map_some, Declaration.entity, hdk]
    · obtain ⟨rfl, rfl⟩ := run_pure_ok.mp hrun
      exact hc.mono fun _ => .inl
  · next exporter members v hkind =>
    split at hrun
    · obtain ⟨rfl, rfl⟩ := Prod.mk.inj (Except.ok.inj hrun)
      have ht := titled_useAsValue g id
      exact (hc.titled ht).rename (later_modifyDeclaration fun _ _ => ⟨rfl, rfl⟩) (hr.imp_right (·.later ht.later)) rfl
        fun _ => .inr rfl
    · next a rest =>
      split at hrun
      · next member hget =>
        obtain ⟨d, hd, hdk⟩ := Option.map_eq_some_iff.mp hkind
        exact hmember a rest member rfl (hcomplete.offers hd hdk hget) hrun
      · cases hrun

theorem called_bindTo {module : Nat} {accesses : List Access} {id : Nat} {r r' : Reference} (hc : Called P D g)
    (hcomplete : Complete [] g) (hr : P r.name ∨ g.Offers r.name)
    (hrun : (bindTo module accesses id r).run g = .ok (r', h)) : Called P (fun x => D x ∨ x = r') h := by
  -- Behind each access the reference has another name, that of the member: one that is offered, so the invariant goes on.
  induction accesses generalizing id r with
  | nil => exact called_bindTo_of hc hcomplete hr (fun _ _ _ heq => by cases heq) hrun
  | cons a rest ih =>
    refine called_bindTo_of hc hcomplete hr (fun b rest' member heq hoffers hmember => ?_) hrun
    obtain ⟨rfl, rfl⟩ := List.cons.inj heq
    exact ih (.inr hoffers) hmember

theorem called_found {module : Nat} {found : Option Nat} {r : Reference} {s₁ s₂ : LinkStats}
    {p : Reference × LinkStats} (hc : Called P D g) (hcomplete : Complete [] g) (hr : P r.name)
    (hrun : ((match found with
      | some id => do return (← bindTo module r.accesses id r, s₁)
      | none => do
        modify fun g => { g with globals := addNew r.name g.globals }
        return ({ r with binding := .global }, s₂)) : Build (Reference × LinkStats)).run g = .ok (p, h)) :
    Called P (fun x => D x ∨ x = p.1) h := by
  cases found with
  | some id =>
    obtain ⟨r', k, hbind, hpure⟩ := run_bind_ok.mp hrun
    obtain ⟨rfl, rfl⟩ := run_pure_ok.mp hpure
    exact called_bindTo hc hcomplete (.inl hr) hbind
  | none =>
    obtain ⟨rfl, rfl⟩ := Prod.mk.inj (Except.ok.inj hrun)
    have hG : Grown g { g with globals := addNew r.name g.globals } :=
      grown_same rfl rfl rfl fun _ hname => mem_addNew.mpr (.inr hname)
    exact (hc.titled (titled_same hG.later rfl rfl rfl)).mono fun _ => .inl

theorem called_bindReference (hR : Ranged R n) (hg : Wired R n g) {module : Nat} {stats : LinkStats} {r : Reference}
    {p : Reference × LinkStats} (hc : Called P D g) (hr : P r.name)
    (hrun : (bindReference module stats r).run g = .ok (p, h)) : Called P (fun x => D x ∨ x = p.1) h := by
  rw [bindReference, run_get_bind] at hrun
  split at hrun
  · obtain ⟨rfl, rfl⟩ := run_pure_ok.mp hrun
    exact hc.mono fun _ => .inl
  · dsimp only at hrun
    split at hrun
    · obtain ⟨rfl, rfl⟩ := run_pure_ok.mp hrun
      exact hc.mono fun _ => .inl
    · split at hrun
      · exact called_found hc hg.complete hr hrun
      · obtain ⟨found, k, htrace, hrest⟩ := run_bind_ok.mp hrun
        obtain ⟨t, -⟩ := traces_trace hR module r.name g found k hg.fits htrace
        exact called_found (hc.titled t.grown.titled) (t.complete [] hg.complete) hr hrest

theorem called_bindReferenceList (hR : Ranged R n) (hg : Wired R n g) {module : Nat} {stats : LinkStats}
    {rs : List Reference} (hv : ∀ r ∈ rs, Bound R module g r) {p : List Reference × LinkStats} (hc : Called P D g)
    (hr : ∀ r ∈ rs, P r.name) (hrun : (bindReferenceList module stats rs).run g = .ok (p, h)) :
    Called P (fun x => D x ∨ x ∈ p.1) h := by
  induction rs generalizing g stats p D with
  | nil =>
    obtain ⟨rfl, rfl⟩ := run_pure_ok.mp hrun
    exact hc.mono fun _ => .inl
  | cons r rs ih =>
    obtain ⟨q, k, hfirst, hrest⟩ := run_bind_ok.mp hrun
    obtain ⟨qs, l, hothers, hpure⟩ := run_bind_ok.mp hrest
    obtain ⟨rfl, rfl⟩ := run_pure_ok.mp hpure
    obtain ⟨hw, hl, -⟩ := keeps_bindReference hR module stats r hg (hv r List.mem_cons_self) q k hfirst
    have hcalled := called_bindReference hR hg hc (hr r List.mem_cons_self) hfirst
    have hrest := ih hw (fun x hx => (hv x (List.mem_cons_of_mem r hx)).later hl) hcalled
      (fun x hx => hr x (List.mem_cons_of_mem r hx)) hothers
    refine hrest.mono fun x hx => ?_
    rw [List.mem_cons, ← or_assoc]
    exact hx

/-- How far binding has come: the references of the statements before one may have given names, and those of all
others still have their own. -/
structure Stage (P : String → Prop) (p : StatementRef) (g : Graph) : Prop where
  called : Called P (fun r => ∃ q s, q.Before p ∧ g.statement? q = some s ∧ r ∈ s.references) g
  ahead : ∀ q s, ¬q.Before p → g.statement? q = some s → ∀ r ∈ s.references, P r.name

variable {p q : StatementRef}

theorem Stage.titled (hs : Stage P p g) (ht : Titled g h) (hstatements : ∀ q, h.statement? q = g.statement? q) :
    Stage P p h := by
  refine ⟨(hs.called.titled ht).mono ?_, fun q s hq hget => hs.ahead q s hq (hstatements q ▸ hget)⟩
  rintro r ⟨q, s, hq, hget, hr⟩
  exact ⟨q, s, hq, (hstatements q).trans hget, hr⟩

theorem Stage.skip (hs : Stage P p g) (hp : ∀ k : StatementRef, k.Before p → k.Before q) : Stage P q g := by
  refine ⟨hs.called.mono ?_, fun k s hk hget => hs.ahead k s (fun h => hk (hp k h)) hget⟩
  rintro r ⟨k, s, hk, hget, hr⟩
  exact ⟨k, s, hp k hk, hget, hr⟩

theorem Stage.modifyStatement {module index : Nat} {s : Statement} {references : List Reference}
    (hget : g.statement? ⟨module, index⟩ = some s)
    (hcalled : Called P (fun r => (∃ q s, q.Before ⟨module, index⟩ ∧ g.statement? q = some s ∧ r ∈ s.references) ∨
      r ∈ references) g)
    (hahead : ∀ q s, ¬q.Before ⟨module, index⟩ → g.statement? q = some s → ∀ r ∈ s.references, P r.name) :
    Stage P ⟨module, index + 1⟩ (g.modifyStatement ⟨module, index⟩ fun s => { s with references }) := by
  -- The statement itself goes from those ahead to those behind; all others stay as they are.
  have hother : ∀ q : StatementRef, ⟨module, index⟩ ≠ q →
      (g.modifyStatement ⟨module, index⟩ fun s => { s with references }).statement? q = g.statement? q := by
    intro q hq
    rw [statement?_modifyStatement, if_neg hq]
  refine ⟨(hcalled.titled (titled_modifyStatement g _ _)).mono fun r hr => ?_, fun q t hq hget' => ?_⟩
  · rcases hr with ⟨q, t, hq, hget', hr⟩ | hr
    · refine ⟨q, t, hq.succ, (hother q ?_).trans hget', hr⟩
      rintro rfl
      exact hq.elim (Nat.lt_irrefl _) fun h => Nat.lt_irrefl _ h.2
    · refine ⟨⟨module, index⟩, { s with references }, .inr ⟨rfl, Nat.lt_succ_self index⟩, ?_, hr⟩
      rw [statement?_modifyStatement, if_pos rfl, hget, Option.map_some]
  · refine hahead q t (fun h => hq (h.succ)) ((hother q ?_).symm.trans hget')
    rintro rfl
    exact hq (.inr ⟨rfl, Nat.lt_succ_self index⟩)

theorem Stage.bindStatement {module index : Nat} {stats stats' : LinkStats} (hR : Ranged R n) (hg : Wired R n g)
    (hs : Stage P ⟨module, index⟩ g) (hrun : (bindStatement module stats index).run g = .ok (stats', h)) :
    Stage P ⟨module, index + 1⟩ h := by
  rw [Graph.bindStatement, run_get_bind] at hrun
  split at hrun
  · obtain ⟨-, rfl⟩ := run_pure_ok.mp hrun
    exact hs.skip fun _ => .succ
  · next s hget =>
    split at hrun
    · obtain ⟨-, rfl⟩ := run_pure_ok.mp hrun
      exact hs.skip fun _ => .succ
    · obtain ⟨p, k, hlist, hrest⟩ := run_bind_ok.mp hrun
      obtain ⟨-, rfl⟩ := Prod.mk.inj (Except.ok.inj hrest)
      have hsame : k.statement? = g.statement? :=
        funext (Tweaks.statement? (takes_bindReferenceList module stats s.references p k hlist))
      have hcalled := called_bindReferenceList hR hg (hg.bound _ s hget) hs.called
        (hs.ahead _ s StatementRef.not_before_self hget) hlist
      have hahead := hs.ahead
      rw [← hsame] at hget hcalled hahead
      exact .modifyStatement hget hcalled hahead

theorem titled_bindDefault {module : Nat} {u : Unit} (hR : Ranged R n) (hg : Wired R n g)
    (hrun : (bindDefault module).run g = .ok (u, h)) : Titled g h := by
  rw [bindDefault, run_get_bind] at hrun
  split at hrun
  · obtain ⟨-, rfl⟩ := run_pure_ok.mp hrun
    exact .refl g
  · next m hm =>
    split at hrun
    · next id identifier hid _ =>
      obtain ⟨found, k, htrace, hrest⟩ := run_bind_ok.mp hrun
      obtain ⟨t, hv⟩ := traces_trace hR module identifier g found k hg.fits htrace
      split at hrest
      · next other =>
        split at hrest
        · obtain ⟨-, rfl⟩ := Prod.mk.inj (Except.ok.inj hrest)
          have hb := binds_default t.fits (hg.fits.module hm) (lookup_mem hid) (hv other rfl)
          exact t.grown.titled.trans (titled_modifyDeclaration hb.later fun _ => rfl)
        · obtain ⟨-, rfl⟩ := run_pure_ok.mp hrest
          exact t.grown.titled
      · obtain ⟨-, rfl⟩ := run_pure_ok.mp hrest
        exact t.grown.titled
    · obtain ⟨-, rfl⟩ := run_pure_ok.mp hrun
      exact .refl g

theorem titled_bindAlias {module count count' : Nat} {copy : String × String × Nat} (hR : Ranged R n)
    (hg : Wired R n g) (hrun : (bindAlias module count copy).run g = .ok (count', h)) : Titled g h := by
  obtain ⟨name, copied, twin⟩ := copy
  rw [bindAlias] at hrun
  split at hrun
  · obtain ⟨-, rfl⟩ := run_pure_ok.mp hrun
    exact .refl g
  · obtain ⟨found, k, htrace, hrest⟩ := run_bind_ok.mp hrun
    obtain ⟨t, -⟩ := traces_trace hR module copied g found k hg.fits htrace
    refine t.grown.titled.trans ?_
    split at hrest
    · obtain ⟨-, rfl⟩ := run_pure_ok.mp hrest
      exact .refl k
    · rw [run_get_bind] at hrest
      dsimp only at hrest
      split at hrest
      · obtain ⟨-, rfl⟩ := run_pure_ok.mp hrest
        exact .refl k
      · obtain ⟨-, rfl⟩ := Prod.mk.inj (Except.ok.inj hrest)
        exact titled_modifyDeclaration (later_modifyDeclaration fun _ _ => ⟨rfl, rfl⟩) fun _ => rfl

theorem titled_bindAliases (hR : Ranged R n) (module count : Nat) (hg : Wired R n g) :
    Keeps R n g (bindAliases module count) fun h _ => Titled g h := by
  rw [bindAliases]
  refine Keeps.get ?_
  split
  · exact Keeps.pure hg (.refl g)
  · next m hm =>
    refine Keeps.foldlM (fun copy hcopy b h hw ht => ?_) count hg (.refl g)
    obtain ⟨e, he, -⟩ := hw.fits.own (hg.fits.module hm) (mem_copies hcopy)
    exact (keeps_bindAlias hR module b copy hw ⟨e, he⟩).strengthen fun _ k hrun _ =>
      ht.trans (titled_bindAlias hR hw hrun)

/-- Binding comes from stage to stage. -/
theorem staged_stage (hR : Ranged R n) (P : String → Prop) : Staged R n (Stage P) where
  aliases hg hs hrun := hs.titled (titled_bindAliases hR _ _ hg _ _ hrun).2.2
    (Tweaks.statement? (takes_bindAliases _ _ _ _ hrun))
  default hg hs hrun := hs.titled (titled_bindDefault hR hg hrun)
    (Tweaks.statement? (takes_bindDefault _ _ _ hrun))
  statement hg hs hrun := hs.bindStatement hR hg hrun
  next hs _ := hs.skip fun _ => .next

end Graph

end Treeshake
