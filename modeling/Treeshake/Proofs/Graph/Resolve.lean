import Treeshake.Proofs.Graph.Marking
/-!
What binding makes of references. Main statement: what binding one reference gives, and what lasts while
declarations stay, holds of every reference of a linked graph. So a local reference has a local scope that
declares its name, one that keeps its name and leads out of its statement has none, a name that nothing declares is
a global one, and a module that is referred to as a whole is used as a value.
-/
set_option autoImplicit false

namespace Treeshake

def Declaration.HasValue (d : Declaration) : Prop := ∀ i members, d.kind ≠ .object i members false

namespace Reference

/-- A reference with some accesses after it has been bound to a declaration, or to a member of it. -/
inductive Narrowed (r : Reference) (accesses : List Access) : Reference → Prop
  | whole (id : Nat) : Narrowed r accesses { r with accesses, binding := .declared id }
  | member (a : Access) (rest : List Access) (id : Nat) : a ∈ accesses → rest ⊆ accesses →
      Narrowed r accesses
        { r with name := a.name, stop := a.stop, accesses := rest, binding := .declared id }

theorem Narrowed.of_member {r r' : Reference} {a : Access} {rest : List Access}
    (h : Narrowed { r with name := a.name, stop := a.stop } rest r') : Narrowed r (a :: rest) r' := by
  cases h with
  | whole id => exact .member a rest id List.mem_cons_self (List.subset_cons_self a rest)
  | member b rest' id hb hrest =>
    exact .member b rest' id (List.mem_cons_of_mem a hb) (List.Subset.trans hrest (List.subset_cons_self a rest))

end Reference

def LinkedModule.uses (m : LinkedModule) : ScopeForest × List (List Reference) :=
  (m.scopes, m.statements.map (·.references))

namespace Graph

variable {R : List Routes} {n : Nat} {g h k : Graph}

structure Steady (g h : Graph) : Prop where
  declarations : ∀ (id : Nat) (d : Declaration), g.declarations[id]? = some d →
    ∃ e, h.declarations[id]? = some e ∧ (d.HasValue → e.HasValue)
  globals : g.globals ⊆ h.globals

theorem Steady.refl (g : Graph) : Steady g g := ⟨fun _ d hd => ⟨d, hd, id⟩, fun _ hname => hname⟩

theorem Steady.trans (h₁ : Steady g h) (h₂ : Steady h k) : Steady g k where
  declarations id d hd := by
    obtain ⟨e, he, hde⟩ := h₁.declarations id d hd
    obtain ⟨f, hf, hef⟩ := h₂.declarations id e he
    exact ⟨f, hf, hef ∘ hde⟩
  globals := List.Subset.trans h₁.globals h₂.globals

theorem Steady.of_declarations (hd : h.declarations = g.declarations) (hglobals : g.globals ⊆ h.globals) :
    Steady g h :=
  ⟨fun _ d hid => ⟨d, hd ▸ hid, fun hv => hv⟩, hglobals⟩

theorem Grown.steady (hG : Grown g h) : Steady g h where
  declarations id d hd := by
    obtain ⟨e, he, hkept⟩ := hG.kept id d hd
    refine ⟨e, he, fun hv i members hkind => ?_⟩
    rcases hkept.kind with hsame | ⟨_, _, -, hvalue⟩
    · exact hv i members (hsame ▸ hkind)
    · rw [hvalue] at hkind
      cases hkind
  globals := hG.globals

theorem steady_modifyDeclaration {id : Nat} {f : Declaration → Declaration}
    (hf : ∀ d, g.declarations[id]? = some d → d.HasValue → (f d).HasValue) :
    Steady g (g.modifyDeclaration id f) := by
  refine ⟨fun k d hd => ?_, fun _ hname => hname⟩
  rw [modifyDeclaration, getElem?_modify_eq, hd]
  by_cases hk : id = k
  · subst hk
    rw [if_pos rfl]
    exact ⟨f d, rfl, hf d hd⟩
  · rw [if_neg hk]
    exact ⟨d, rfl, fun hv => hv⟩

theorem steady_useAsValue (g : Graph) (id : Nat) : Steady g (g.useAsValue id) := by
  rcases useAsValue_cases g id with h | ⟨d, module, members, -, -, h⟩ <;> rw [h]
  · exact .refl g
  · have hvalue : Steady g (g.modifyDeclaration id fun d => { d with kind := .object module members true }) :=
      steady_modifyDeclaration fun _ _ _ _ _ hkind => by cases hkind
    exact hvalue.trans (.of_declarations rfl fun _ hname => hname)

theorem hasValue_useAsValue {id : Nat} {e : Declaration}
    (he : (g.useAsValue id).declarations[id]? = some e) : e.HasValue := by
  unfold useAsValue at he
  split at he
  · next module members _ _ _ _ _ hd =>
    rw [modifyDeclaration, getElem?_modify_eq, if_pos rfl] at he
    obtain ⟨d, -, rfl⟩ := Option.map_eq_some_iff.mp he
    exact fun _ _ hkind => by cases hkind
  · next hother =>
    intro i members hkind
    obtain ⟨name, kind, statement, reassigned, exported, used, aliases⟩ := e
    obtain rfl : kind = .object i members false := hkind
    exact hother name i members statement reassigned exported used aliases he

def uses (g : Graph) : List (ScopeForest × List (List Reference)) := g.modules.map (·.uses)

def forests (g : Graph) : List ScopeForest := g.uses.map Prod.fst

theorem getElem?_forests (g : Graph) (i : Nat) : g.forests[i]? = g.modules[i]?.map (·.scopes) := by
  rw [forests, Graph.uses, List.map_map, List.getElem?_map]
  rfl

theorem uses_outline (g : Graph) : g.outline.map (·.uses) = g.uses := by
  rw [outline, List.map_map, uses]
  refine List.map_congr_left fun m _ => ?_
  simp [LinkedModule.uses, LinkedModule.unmarked, LinkedModule.unasked, Statement.unmarked,
    Function.comp_def]

theorem Grown.uses (hG : Grown g h) : h.uses = g.uses := by
  rw [← uses_outline, hG.outline, uses_outline]

structure Idles (g h : Graph) : Prop where
  uses : h.uses = g.uses
  steady : Steady g h

theorem Idles.refl (g : Graph) : Idles g g := ⟨rfl, .refl g⟩

theorem Idles.trans (h₁ : Idles g h) (h₂ : Idles h k) : Idles g k :=
  ⟨h₂.uses.trans h₁.uses, h₁.steady.trans h₂.steady⟩

theorem Grown.idles (hG : Grown g h) : Idles g h := ⟨hG.uses, hG.steady⟩

theorem idles_modifyDeclaration {id : Nat} {f : Declaration → Declaration}
    (hf : ∀ d, g.declarations[id]? = some d → d.HasValue → (f d).HasValue) :
    Idles g (g.modifyDeclaration id f) :=
  ⟨rfl, steady_modifyDeclaration hf⟩

theorem idles_useAsValue (g : Graph) (id : Nat) : Idles g (g.useAsValue id) := by
  refine ⟨?_, steady_useAsValue g id⟩
  rcases useAsValue_cases g id with h | ⟨d, module, members, -, -, h⟩ <;> rw [h]
  rfl

/-- Whatever a reference is bound to has a value. -/
def Valued (g : Graph) (r : Reference) : Prop :=
  ∀ id d, r.declaration? = some id → g.declarations[id]? = some d → d.HasValue

theorem Valued.of_kind {id : Nat} {r : Reference} (hr : r.binding = .declared id)
    (hv : ∀ d, g.declarations[id]? = some d → d.HasValue) : Valued g r := by
  intro k d hk hd
  rw [Reference.declaration?, hr] at hk
  obtain rfl := Option.some.inj hk
  exact hv d hd

theorem hasValue_modifyDeclaration {id : Nat} {f : Declaration → Declaration} {e : Declaration}
    (he : (g.modifyDeclaration id f).declarations[id]? = some e) (hf : ∀ d, (f d).kind = d.kind)
    (hv : ∀ d, g.declarations[id]? = some d → d.HasValue) : e.HasValue := by
  rw [modifyDeclaration, getElem?_modify_eq, if_pos rfl] at he
  obtain ⟨d, hd, rfl⟩ := Option.map_eq_some_iff.mp he
  exact fun i members hkind => hv d hd i members ((hf d).symm.trans hkind)

theorem idles_rename (id : Nat) {f : Declaration → Declaration} (hf : ∀ d, (f d).kind = d.kind) :
    Idles g (g.modifyDeclaration id f) :=
  idles_modifyDeclaration fun d _ hv i members hkind => hv i members ((hf d).symm.trans hkind)

theorem bindTo_narrows_of {module id : Nat} {accesses : List Access} {r r' : Reference}
    (hmember : ∀ a rest k, accesses = a :: rest →
      (bindTo module rest k { r with name := a.name, stop := a.stop }).run g = .ok (r', h) →
      Idles g h ∧ r.Narrowed accesses r' ∧ Valued h r')
    (hrun : (bindTo module accesses id r).run g = .ok (r', h)) :
    Idles g h ∧ r.Narrowed accesses r' ∧ Valued h r' := by
  have hvalue : ∀ kind, (g.declaration? id).map Declaration.kind = some kind →
      (∀ i members v, kind ≠ .object i members v) →
      ∀ d, g.declarations[id]? = some d → d.HasValue := by
    intro kind hkind hobject d hd i members hk
    rw [declaration?, hd, Option.map_some, hk] at hkind
    exact hobject i members false (Option.some.inj hkind).symm
  rw [bindTo, run_get_bind] at hrun
  dsimp only at hrun
  split at hrun
  · next hnone =>
    obtain ⟨rfl, rfl⟩ := run_pure_ok.mp hrun
    refine ⟨.refl g, .whole id, .of_kind rfl fun d hd => ?_⟩
    rw [declaration?, hd] at hnone
    cases hnone
  · next hkind =>
    obtain ⟨rfl, rfl⟩ := Prod.mk.inj (Except.ok.inj hrun)
    exact ⟨idles_rename id fun _ => rfl, .whole id, .of_kind rfl fun e he =>
      hasValue_modifyDeclaration he (fun _ => rfl) (hvalue _ hkind fun _ _ _ h => by cases h)⟩
  · next hkind =>
    obtain ⟨rfl, rfl⟩ := Prod.mk.inj (Except.ok.inj hrun)
    exact ⟨idles_rename id fun _ => rfl, .whole id, .of_kind rfl fun e he =>
      hasValue_modifyDeclaration he (fun _ => rfl) (hvalue _ hkind fun _ _ _ h => by cases h)⟩
  · next hkind =>
    split at hrun
    · obtain ⟨rfl, rfl⟩ := Prod.mk.inj (Except.ok.inj hrun)
      exact ⟨⟨rfl, .of_declarations rfl fun _ hname => hname⟩, .whole id,
        .of_kind rfl (hvalue _ hkind fun _ _ _ h => by cases h)⟩
    · obtain ⟨rfl, rfl⟩ := run_pure_ok.mp hrun
      exact ⟨.refl g, .whole id, .of_kind rfl (hvalue _ hkind fun _ _ _ h => by cases h)⟩
  · split at hrun
    · obtain ⟨rfl, rfl⟩ := Prod.mk.inj (Except.ok.inj hrun)
      exact ⟨(idles_useAsValue g id).trans (idles_rename id fun _ => rfl), .whole id,
        .of_kind rfl fun e he => hasValue_modifyDeclaration he (fun _ => rfl) fun d => hasValue_useAsValue⟩
    · next a rest =>
      split at hrun
      · next k _ => exact hmember a rest k rfl hrun
      · cases hrun

theorem bindTo_narrows (module : Nat) (accesses : List Access) (id : Nat) (r : Reference)
    {r' : Reference} (hrun : (bindTo module accesses id r).run g = .ok (r', h)) :
    Idles g h ∧ r.Narrowed accesses r' ∧ Valued h r' := by
  induction accesses generalizing id r with
  | nil => exact bindTo_narrows_of (fun a rest k heq => by cases heq) hrun
  | cons a rest ih =>
    refine bindTo_narrows_of (fun b rest' k heq hmember => ?_) hrun
    obtain ⟨rfl, rfl⟩ := List.cons.inj heq
    obtain ⟨hidles, hn, hv⟩ := ih k _ hmember
    exact ⟨hidles, hn.of_member, hv⟩

/-- What binding a reference makes of it: one that is local if a local scope declares its name, and else
one to what declares it, or to nothing, and then its name is a global one. -/
inductive Became (f : ScopeForest) (h : Graph) (r : Reference) : Reference → Prop
  | inner : f.containsLocal r.scope r.name = true → Became f h r { r with binding := .inner }
  | global : f.containsLocal r.scope r.name = false → r.name ∈ h.globals →
      Became f h r { r with binding := .global }
  | declared {r' : Reference} : f.containsLocal r.scope r.name = false → r.Narrowed r.accesses r' →
      Valued h r' → Became f h r r'

theorem became_of_found {f : ScopeForest} {module : Nat} {found : Option Nat} {r : Reference}
    {s₁ s₂ : LinkStats} {p : Reference × LinkStats} (hlocal : f.containsLocal r.scope r.name = false)
    (hk : Idles g k)
    (hrun : ((match found with
      | some id => do return (← bindTo module r.accesses id r, s₁)
      | none => do
        modify fun g => { g with globals := addNew r.name g.globals }
        return ({ r with binding := .global }, s₂)) : Build (Reference × LinkStats)).run k = .ok (p, h)) :
    Idles g h ∧ Became f h r p.1 := by
  cases found with
  | some id =>
    obtain ⟨r', l, hbind, hpure⟩ := run_bind_ok.mp hrun
    obtain ⟨rfl, rfl⟩ := run_pure_ok.mp hpure
    obtain ⟨hidles, hn, hv⟩ := bindTo_narrows module r.accesses id r hbind
    exact ⟨hk.trans hidles, .declared hlocal hn hv⟩
  | none =>
    obtain ⟨rfl, rfl⟩ := Prod.mk.inj (Except.ok.inj hrun)
    have hsteady : Steady k { k with globals := addNew r.name k.globals } :=
      .of_declarations rfl fun _ hname => mem_addNew.mpr (.inr hname)
    exact ⟨⟨hk.uses, hk.steady.trans hsteady⟩, .global hlocal (mem_addNew.mpr (.inl rfl))⟩

theorem bindReference_cases (hR : Ranged R n) (hg : Wired R n g) {module : Nat} {stats : LinkStats}
    {r : Reference} {p : Reference × LinkStats}
    (hrun : (bindReference module stats r).run g = .ok (p, h)) :
    Idles g h ∧ ∀ f, g.forests[module]? = some f → Became f h r p.1 := by
  rw [bindReference, run_get_bind] at hrun
  rw [getElem?_forests]
  split at hrun
  · next hnone =>
    obtain ⟨rfl, rfl⟩ := run_pure_ok.mp hrun
    rw [hnone]
    exact ⟨.refl g, fun f hf => by cases hf⟩
  · next m hm =>
    rw [hm, Option.map_some]
    dsimp only at hrun
    split at hrun
    · next hlocal =>
      obtain ⟨rfl, rfl⟩ := run_pure_ok.mp hrun
      exact ⟨.refl g, fun f hf => Option.some.inj hf ▸ .inner hlocal⟩
    · next hlocal =>
      have hnot : m.scopes.containsLocal r.scope r.name = false := Bool.eq_false_iff.mpr hlocal
      split at hrun
      · obtain ⟨hidles, hbecame⟩ := became_of_found hnot (.refl g) hrun
        exact ⟨hidles, fun f hf => Option.some.inj hf ▸ hbecame⟩
      · obtain ⟨found, k, htrace, hrest⟩ := run_bind_ok.mp hrun
        have hidles := (traces_trace hR module r.name g found k hg.fits htrace).1.toExplored.grows.idles
        obtain ⟨hidles', hbecame⟩ := became_of_found hnot hidles hrest
        exact ⟨hidles', fun f hf => Option.some.inj hf ▸ hbecame⟩

/-- A property of references, among the scopes of their module, that lasts while declarations stay, and
that a reference keeps that is bound to what is there. -/
structure Lasting (P : Graph → ScopeForest → Reference → Prop) : Prop where
  steady : ∀ {g h : Graph} {f : ScopeForest} {r : Reference}, Steady g h → P g f r → P h f r
  became : ∀ {h : Graph} {f : ScopeForest} {r r' : Reference}, P h f r → Became f h r r' →
    (∀ id, r'.declaration? = some id → ∃ d, h.declarations[id]? = some d) → P h f r'

theorem lasting_global : Lasting fun g _ r => r.binding = .global → r.name ∈ g.globals where
  steady hs hr hglobal := hs.globals (hr hglobal)
  became := by
    intro h f r r' _ hbecame _ hglobal
    cases hbecame with
    | inner => cases hglobal
    | global _ hname => exact hname
    | declared _ hn => cases hn <;> cases hglobal

def Everywhere (P : Graph → ScopeForest → Reference → Prop) (g : Graph) : Prop :=
  ∀ u ∈ g.uses, ∀ rs ∈ u.2, ∀ r ∈ rs, P g u.1 r

section
variable {P : Graph → ScopeForest → Reference → Prop} (hP : Lasting P)

theorem Everywhere.reference (hg : Everywhere P g) {i : Nat} {m : LinkedModule}
    (hm : g.modules[i]? = some m) {s : Statement} (hs : s ∈ m.statements) {r : Reference}
    (hr : r ∈ s.references) : P g m.scopes r :=
  hg _ (List.mem_map_of_mem (List.mem_of_getElem? hm)) _ (List.mem_map_of_mem hs) r hr

include hP

theorem Everywhere.idles (hg : Everywhere P g) (hi : Idles g h) : Everywhere P h := by
  rw [Everywhere, hi.uses]
  exact fun u hu rs hrs r hr => hP.steady hi.steady (hg u hu rs hrs r hr)

theorem bindReferenceList_cases (hR : Ranged R n) (hg : Wired R n g) {module : Nat} {stats : LinkStats}
    {rs : List Reference} (hv : ∀ r ∈ rs, Bound R module g r)
    (hr : ∀ r ∈ rs, ∀ f, g.forests[module]? = some f → P g f r) {p : List Reference × LinkStats}
    (hrun : (bindReferenceList module stats rs).run g = .ok (p, h)) :
    Idles g h ∧ ∀ r ∈ p.1, ∀ f, g.forests[module]? = some f → P h f r := by
  induction rs generalizing g stats p with
  | nil =>
    obtain ⟨rfl, rfl⟩ := run_pure_ok.mp hrun
    exact ⟨.refl g, fun r hr => by cases hr⟩
  | cons r rs ih =>
    obtain ⟨q, k, hfirst, hrest⟩ := run_bind_ok.mp hrun
    obtain ⟨qs, l, hothers, hpure⟩ := run_bind_ok.mp hrest
    obtain ⟨rfl, rfl⟩ := run_pure_ok.mp hpure
    obtain ⟨hi, hbecame⟩ := bindReference_cases hR hg hfirst
    obtain ⟨hw, hl, hbound⟩ := keeps_bindReference hR module stats r hg (hv r List.mem_cons_self) q k hfirst
    have hforests : k.forests = g.forests := congrArg (List.map Prod.fst) hi.uses
    obtain ⟨hi', hothers'⟩ := ih hw (fun x hx => (hv x (List.mem_cons_of_mem r hx)).later hl)
      (fun x hx f hf => hP.steady hi.steady (hr x (List.mem_cons_of_mem r hx) f (hforests ▸ hf))) hothers
    refine ⟨hi.trans hi', fun x hx f hf => ?_⟩
    rcases List.mem_cons.mp hx with rfl | hx
    · refine hP.steady hi'.steady (hP.became (hP.steady hi.steady (hr r List.mem_cons_self f hf))
        (hbecame f hf) fun id hid => ?_)
      obtain ⟨e, he, -⟩ := hbound id hid
      obtain ⟨d, hd, -⟩ := Option.map_eq_some_iff.mp he
      exact ⟨d, hd⟩
    · exact hothers' x hx f (hforests ▸ hf)

theorem Everywhere.modifyStatement (hg : Everywhere P g) (k : StatementRef) {references : List Reference}
    (hr : ∀ r ∈ references, ∀ f, g.forests[k.module]? = some f → P g f r) :
    Everywhere P (g.modifyStatement k fun s => { s with references }) := by
  intro u hu rs hrs r hmem
  obtain ⟨m', hm', rfl⟩ := List.mem_map.mp hu
  obtain ⟨s', hs', rfl⟩ := List.mem_map.mp hrs
  obtain ⟨i, hi⟩ := List.mem_iff_getElem?.mp hm'
  obtain ⟨j, hj⟩ := List.mem_iff_getElem?.mp hs'
  rw [Graph.modifyStatement, modifyModule, getElem?_modify_eq] at hi
  refine hP.steady (g := g) (.of_declarations rfl fun _ hname => hname) ?_
  split at hi
  · next hmodule =>
    obtain ⟨m, hm, rfl⟩ := Option.map_eq_some_iff.mp hi
    rw [getElem?_modify_eq] at hj
    split at hj
    · obtain ⟨s, hs, rfl⟩ := Option.map_eq_some_iff.mp hj
      exact hr r hmem _ (by rw [getElem?_forests, hmodule, hm]; rfl)
    · exact hg.reference hm (List.mem_of_getElem? hj) hmem
  · exact hg.reference hi (List.mem_of_getElem? hj) hmem

end

def Maintains (P : Graph → ScopeForest → Reference → Prop) (g : Graph) {α : Type} (x : Build α) : Prop :=
  ∀ a h, x.run g = .ok (a, h) → Everywhere P g → Everywhere P h

section
variable {P : Graph → ScopeForest → Reference → Prop} {α β : Type}

theorem Maintains.pure {b : β} : Maintains P g (Pure.pure b) := by
  intro b' h hrun hg
  obtain ⟨-, rfl⟩ := run_pure_ok.mp hrun
  exact hg

theorem Maintains.get {f : Graph → Build β} (hf : Maintains P g (f g)) : Maintains P g (get >>= f) := hf

theorem Maintains.bind {x : Build α} {f : α → Build β} {K : Graph → α → Prop} (hk : Keeps R n g x K)
    (hx : Maintains P g x) (hf : ∀ a h, Wired R n h → Maintains P h (f a)) :
    Maintains P g (x >>= f) := by
  intro b l hrun hg
  obtain ⟨a, h, hxa, hfb⟩ := run_bind_ok.mp hrun
  exact hf a h (hk a h hxa).1 b l hfb (hx a h hxa hg)

theorem Maintains.foldlM {f : β → α → Build β} {l : List α}
    (hk : ∀ a ∈ l, ∀ b h, Wired R n h → Keeps R n h (f b a) fun _ _ => True)
    (hf : ∀ a ∈ l, ∀ b h, Wired R n h → Maintains P h (f b a)) (b : β) (hg : Wired R n g) :
    Maintains P g (l.foldlM f b) := by
  induction l generalizing b g with
  | nil => exact .pure
  | cons a l ih =>
    rw [List.foldlM_cons]
    refine .bind (hk a List.mem_cons_self b g hg) (hf a List.mem_cons_self b g hg) fun b h hw => ?_
    exact ih (fun a ha => hk a (List.mem_cons_of_mem _ ha)) (fun a ha => hf a (List.mem_cons_of_mem _ ha))
      b hw

variable (hP : Lasting P)
include hP

theorem Maintains.idles {x : Build α} (hx : ∀ a h, x.run g = .ok (a, h) → Idles g h) :
    Maintains P g x :=
  fun a h hrun hg => hg.idles hP (hx a h hrun)

theorem Maintains.traces {x : Build α} {K : Graph → α → Prop} (hg : Wired R n g) (hx : Traces R n x K) :
    Maintains P g x :=
  .idles hP fun a h hrun => (hx g a h hg.fits hrun).1.toExplored.grows.idles

theorem maintains_bindStatement (hR : Ranged R n) (module : Nat) (stats : LinkStats) (index : Nat)
    (hg : Wired R n g) : Maintains P g (bindStatement module stats index) := by
  intro stats' h hrun hall
  rw [bindStatement, run_get_bind] at hrun
  split at hrun
  · obtain ⟨-, rfl⟩ := run_pure_ok.mp hrun
    exact hall
  · next s hs =>
    split at hrun
    · obtain ⟨-, rfl⟩ := run_pure_ok.mp hrun
      exact hall
    · obtain ⟨m, hm, hsm⟩ := Option.bind_eq_some_iff.mp hs
      obtain ⟨p, k, hlist, hrest⟩ := run_bind_ok.mp hrun
      obtain ⟨-, rfl⟩ := Prod.mk.inj (Except.ok.inj hrest)
      have hr : ∀ r ∈ s.references, ∀ f, g.forests[module]? = some f → P g f r := by
        intro r hr f hf
        rw [getElem?_forests, hm] at hf
        exact Option.some.inj hf ▸ hall.reference hm (List.mem_of_getElem? hsm) hr
      obtain ⟨hi, hp⟩ := bindReferenceList_cases hP hR hg (hg.bound _ s hs) hr hlist
      have hforests : k.forests = g.forests := congrArg (List.map Prod.fst) hi.uses
      exact (hall.idles hP hi).modifyStatement hP ⟨module, index⟩ (hforests ▸ hp)

theorem maintains_bindDefault (hR : Ranged R n) (module : Nat) (hg : Wired R n g) :
    Maintains P g (bindDefault module) := by
  rw [bindDefault]
  refine .get ?_
  split
  · exact .pure
  · split
    · next identifier _ _ =>
      refine .bind (Keeps.traces hg (traces_trace hR module identifier))
        (.traces hP hg (traces_trace hR module identifier)) fun found h _ => ?_
      split
      · split
        · refine .idles hP fun _ k hrun => ?_
          obtain ⟨-, rfl⟩ := Prod.mk.inj (Except.ok.inj hrun)
          exact idles_modifyDeclaration fun _ _ _ _ _ hkind => by cases hkind
        · exact .pure
      · exact .pure
    · exact .pure

theorem maintains_bindReferences (hR : Ranged R n) (stats : LinkStats) (module : Nat)
    (hg : Wired R n g) : Maintains P g (bindReferences stats module) := by
  rw [bindReferences]
  refine .bind (keeps_bindDefault hR module hg) (maintains_bindDefault hP hR module hg)
    fun _ h hw => .get ?_
  exact .foldlM (fun i _ b k hk => keeps_bindStatement hR module b i hk)
    (fun i _ b k hk => maintains_bindStatement hP hR module b i hk) stats hw

theorem maintains_bindAlias (hR : Ranged R n) (module count : Nat) (copy : String × String × Nat)
    (hg : Wired R n g) : Maintains P g (bindAlias module count copy) := by
  obtain ⟨name, copied, twin⟩ := copy
  rw [bindAlias]
  split
  · exact .pure
  · refine .bind (Keeps.traces hg (traces_trace hR module copied))
      (.traces hP hg (traces_trace hR module copied)) fun found h _ => ?_
    split
    · exact .pure
    · refine .get ?_
      dsimp only
      split
      · exact .pure
      · refine .idles hP fun _ k hrun => ?_
        obtain ⟨-, rfl⟩ := Prod.mk.inj (Except.ok.inj hrun)
        exact idles_rename _ fun _ => rfl

theorem maintains_bindAliases (hR : Ranged R n) (module count : Nat) (hg : Wired R n g) :
    Maintains P g (bindAliases module count) := by
  rw [bindAliases]
  refine .get ?_
  split
  · exact .pure
  · next m hm =>
    have hcopies : ∀ copy ∈ g.copies m, ∀ h, Wired R n h → ∃ e, h.entity? copy.2.2 = some e := by
      intro copy hcopy h hw
      obtain ⟨e, he, -⟩ := hw.fits.own (hg.fits.module hm) (mem_copies hcopy)
      exact ⟨e, he⟩
    exact .foldlM (fun copy hcopy b h hw => keeps_bindAlias hR module b copy hw (hcopies copy hcopy h hw))
      (fun copy _ b h hw => maintains_bindAlias hP hR module b copy hw) count hg

theorem everywhere_bind (hR : Ranged R n) {stats : LinkStats}
    (hg : Wired R n { g with modules := g.modules.map (·.bindStars) }) (hall : Everywhere P g)
    (hrun : bind.run g = .ok (stats, h)) : Everywhere P h := by
  have hmaintains : Maintains P { g with modules := g.modules.map (·.bindStars) } (do
      let modules := List.range (← get).modules.length
      let aliases ← modules.foldlM (fun count module => bindAliases module count) 0
      modules.foldlM bindReferences { aliases }) := by
    refine .get ?_
    refine .bind (Keeps.foldlM (fun i _ count k hk _ => keeps_bindAliases hR i count hk) 0 hg trivial)
      (.foldlM (fun i _ count k hk => keeps_bindAliases hR i count hk)
        (fun i _ count k hk => maintains_bindAliases hP hR i count hk) 0 hg) fun aliases k hw => ?_
    exact .foldlM (fun i _ stats l hl => keeps_bindReferences hR stats i hl)
      (fun i _ stats l hl => maintains_bindReferences hP hR stats i hl) _ hw
  refine hmaintains stats h hrun (hall.idles hP ⟨?_, .of_declarations rfl fun _ hname => hname⟩)
  rw [Graph.uses, List.map_map]
  rfl

end

/-- In a linked graph, what is true of references to nothing and lasts is true of all references. -/
theorem everywhere_linked {P : Graph → ScopeForest → Reference → Prop} (hP : Lasting P)
    {modules : List (Module × Table Target)} {externals : List External} {stats : LinkStats}
    (hf : Fetched modules externals) (hrun : bind.run (ofModules modules externals) = .ok (stats, g))
    (hall : ∀ e ∈ modules, ∀ s ∈ e.1.statements, ∀ r ∈ s.references, r.binding = .unbound →
      P (ofModules modules externals) e.1.scopes r) : Everywhere P g := by
  refine everywhere_bind hP (ranged_starred hf) (wired_starred hf) ?_ hrun
  intro u hu rs hrs r hr
  obtain ⟨m, hm, rfl⟩ := List.mem_map.mp hu
  obtain ⟨s, hs, rfl⟩ := List.mem_map.mp hrs
  obtain ⟨i, hi⟩ := List.mem_iff_getElem?.mp hm
  obtain ⟨e, he, hmodule, -, -⟩ := (linking 0 0 modules hf.fresh).modules i m hi
  have hmem := List.mem_of_getElem? he
  have hs' : s ∈ e.1.statements := hmodule ▸ hs
  have hP' := hall e hmem s hs' r hr ((hf.fresh e hmem).unbound s hs' r hr)
  rw [← hmodule] at hP'
  exact hP'

end Graph

end Treeshake
