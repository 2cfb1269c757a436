import Treeshake.Proofs.Graph.Resolve
/-!
What linking can do to a graph, step by step. Main statement: linking modules takes tweaks of tables and
declarations, star exports being resolved, and references being bound in their statements, and nothing else.
-/
set_option autoImplicit false

namespace Treeshake

inductive Reference.Rebound (r : Reference) : Reference → Prop
  | bound (b : Binding) : Rebound r { r with binding := b }
  | narrowed {r' : Reference} : r.Narrowed r.accesses r' → Rebound r r'

def Statement.unlinked (s : Statement) : Statement := { s with references := [], included := false }

structure Statement.Relinked (s t : Statement) : Prop where
  same : t.unlinked = s.unlinked
  references : List.Forall₂ (Relation.ReflTransGen Reference.Rebound) s.references t.references

theorem Statement.Relinked.refl (s : Statement) : s.Relinked s :=
  ⟨rfl, List.forall₂_same.mpr fun _ _ => .refl⟩

theorem Statement.Relinked.trans {s t u : Statement} (h₁ : s.Relinked t) (h₂ : t.Relinked u) :
    s.Relinked u where
  same := h₂.same.trans h₁.same
  references := (forall₂_comp.mpr ⟨_, h₁.references, h₂.references⟩).imp fun _ _ ⟨_, h, h'⟩ => h.trans h'

def LinkedModule.unlinked (m : LinkedModule) : LinkedModule :=
  { m with statements := [], stars := [], object := none }

structure LinkedModule.Relinked (m n : LinkedModule) : Prop where
  same : n.unlinked = m.unlinked
  statements : List.Forall₂ Statement.Relinked m.statements n.statements

theorem LinkedModule.Relinked.refl (m : LinkedModule) : m.Relinked m :=
  ⟨rfl, List.forall₂_same.mpr fun s _ => .refl s⟩

theorem LinkedModule.Relinked.trans {m n o : LinkedModule} (h₁ : m.Relinked n) (h₂ : n.Relinked o) :
    m.Relinked o where
  same := h₂.same.trans h₁.same
  statements := (forall₂_comp.mpr ⟨_, h₁.statements, h₂.statements⟩).imp fun _ _ ⟨_, h, h'⟩ => h.trans h'

theorem forall₂_modify {α : Type} {R : α → α → Prop} {f : α → α} {l : List α} {i : Nat}
    (hR : ∀ a, R a a) (hf : ∀ a, l[i]? = some a → R a (f a)) : List.Forall₂ R l (l.modify i f) := by
  induction l generalizing i with
  | nil =>
    rw [List.modify_nil]
    exact .nil
  | cons a l ih =>
    cases i with
    | zero => exact .cons (hf a rfl) (List.forall₂_same.mpr fun b _ => hR b)
    | succ i => exact .cons (hR a) (ih hf)

namespace Graph

def Surrogate (g : Graph) (id : Nat) : Prop := ∃ (i : Nat) (m : LinkedModule) (identifier : String),
  g.modules[i]? = some m ∧ m.declarations.get? "default" = some id ∧
    (m.exports.get? "default").bind (·.identifier) = some identifier

/-- What a build leaves of a declaration: where it is, and what, but for a module as a whole, and for a default export
that may come to stand for another declaration. -/
structure Lasts (g : Graph) (id : Nat) (d e : Declaration) : Prop where
  statement : e.statement = d.statement
  kind : e.kind = d.kind ∨ e.isObject = true ∨ g.Surrogate id ∧ ∃ k, e.kind = .defaultValue (some k)

structure Alters (g : Graph) (id : Nat) (d e : Declaration) : Prop extends Lasts g id d e where
  exported : e.exported = d.exported

/-- A change to the tables or the declarations of a graph. -/
inductive Tweak (g : Graph) : Graph → Prop
  | push (d : Declaration) (hd : d.exported = false) (hkind : d.isExternal = true ∨ d.isObject = true) :
      Tweak g (g.push d)
  | declaration (id : Nat) (f : Declaration → Declaration) (hf : ∀ d, Alters g id d (f d)) :
      Tweak g (g.modifyDeclaration id f)
  | external (i : Nat) (f : External → External)
      (hf : ∀ e, e.declarations.keys.Nodup → (f e).declarations.keys.Nodup) : Tweak g (g.modifyExternal i f)
  | whole (i id : Nat) : Tweak g (g.modifyModule i fun m => { m with object := some id })
  | value (id : Nat) : Tweak g { g with objects := g.objects ++ [id] }
  | global (name : String) : Tweak g { g with globals := addNew name g.globals }

/-- A change that linking makes to a graph. -/
inductive Change (g : Graph) : Graph → Prop
  | tweak {h : Graph} (ht : Tweak g h) : Change g h
  | stars : Change g { g with modules := g.modules.map (·.bindStars) }
  | references (k : StatementRef) (references : List Reference)
      (hr : ∀ s, g.statement? k = some s → List.Forall₂ Reference.Rebound s.references references) :
      Change g (g.modifyStatement k fun s => { s with references })

abbrev Tweaks : Graph → Graph → Prop := Relation.ReflTransGen Tweak

abbrev Changes : Graph → Graph → Prop := Relation.ReflTransGen Change

variable {g h k : Graph}

theorem Tweaks.changes (ht : Tweaks g h) : Changes g h :=
  ht.lift id fun _ _ => .tweak

theorem tweaks_useAsValue (g : Graph) (id : Nat) : Tweaks g (g.useAsValue id) := by
  rcases useAsValue_cases g id with h | ⟨d, module, members, -, -, h⟩
  · rw [h]
  · rw [h]
    have hvalue : Tweak g (g.modifyDeclaration id fun d => { d with kind := .object module members true }) :=
      .declaration id _ fun _ => ⟨⟨rfl, .inr (.inl rfl)⟩, rfl⟩
    exact .tail (.single hvalue) (.value id)

theorem Tweaks.modules (ht : Tweaks g h) :
    h.modules.map LinkedModule.unasked = g.modules.map LinkedModule.unasked := by
  induction ht with
  | refl => rfl
  | @tail h k _ hstep ih =>
    refine Eq.trans ?_ ih
    cases hstep with
    | whole i id =>
      have hwhole : ∀ m : LinkedModule, { m with object := some id }.unasked = m.unasked := fun _ => rfl
      exact map_modify_of_eq hwhole h.modules i
    | push | declaration | external | value | global => rfl

theorem Tweaks.statement? (ht : Tweaks g h) (r : StatementRef) : h.statement? r = g.statement? r := by
  have hstatement : ∀ k : Graph, k.statement? r =
      (k.modules.map LinkedModule.unasked)[r.module]?.bind fun m => m.statements[r.index]? := by
    intro k
    cases hm : k.modules[r.module]? <;> simp [Graph.statement?, hm, LinkedModule.unasked]
  rw [hstatement, hstatement, ht.modules]

abbrev Relinked (g h : Graph) : Prop := List.Forall₂ LinkedModule.Relinked g.modules h.modules

theorem Relinked.refl (g : Graph) : Relinked g g := List.forall₂_same.mpr fun m _ => .refl m

theorem Relinked.trans (h₁ : Relinked g h) (h₂ : Relinked h k) : Relinked g k :=
  (forall₂_comp.mpr ⟨_, h₁, h₂⟩).imp fun _ _ ⟨_, h, h'⟩ => h.trans h'

theorem Relinked.statement? (hr : Relinked g h) {k : StatementRef} {s : Statement} (hs : g.statement? k = some s) :
    ∃ t, h.statement? k = some t ∧ s.Relinked t := by
  obtain ⟨m, hm, hs⟩ := Option.bind_eq_some_iff.mp hs
  obtain ⟨n, hn, hmn⟩ := forall₂_getElem? hr hm
  obtain ⟨t, ht, hst⟩ := forall₂_getElem? hmn.statements hs
  exact ⟨t, by rw [Graph.statement?, hn]; exact ht, hst⟩

theorem Change.relinked (hc : Change g h) : Relinked g h := by
  cases hc with
  | tweak ht =>
    cases ht with
    | whole i id => exact forall₂_modify .refl fun m _ => ⟨rfl, List.forall₂_same.mpr fun s _ => .refl s⟩
    | push | declaration | external | value | global => exact .refl g
  | stars =>
    refine List.forall₂_map_right_iff.mpr (List.forall₂_same.mpr fun m _ => ?_)
    exact ⟨rfl, List.forall₂_same.mpr fun s _ => .refl s⟩
  | references k references hr =>
    refine forall₂_modify .refl fun m hm => ⟨rfl, forall₂_modify .refl fun s hs => ⟨rfl, ?_⟩⟩
    exact (hr s (by rw [Graph.statement?, hm]; exact hs)).imp fun _ _ h => .single h

theorem Changes.relinked (hc : Changes g h) : Relinked g h := by
  induction hc with
  | refl => exact .refl g
  | tail _ hstep ih => exact ih.trans hstep.relinked

theorem Relinked.surrogate (hr : Relinked g h) {id : Nat} : h.Surrogate id ↔ g.Surrogate id := by
  have hsame : ∀ {m n : LinkedModule}, m.Relinked n → n.declarations = m.declarations ∧ n.exports = m.exports :=
    fun hmn => ⟨congrArg (·.declarations) hmn.same, congrArg (·.exports) hmn.same⟩
  constructor
  · rintro ⟨i, n, identifier, hn, hdefault, hidentifier⟩
    obtain ⟨m, hm, hmn⟩ := forall₂_getElem? hr.flip hn
    obtain ⟨hdeclarations, hexports⟩ := hsame hmn
    exact ⟨i, m, identifier, hm, hdeclarations ▸ hdefault, hexports ▸ hidentifier⟩
  · rintro ⟨i, m, identifier, hm, hdefault, hidentifier⟩
    obtain ⟨n, hn, hmn⟩ := forall₂_getElem? hr hm
    obtain ⟨hdeclarations, hexports⟩ := hsame hmn
    exact ⟨i, n, identifier, hn, hdeclarations.symm ▸ hdefault, hexports.symm ▸ hidentifier⟩

theorem Grown.relinked (hG : Grown g h) : Relinked g h := by
  have heq : List.Forall₂ (· = ·) g.outline h.outline := by
    rw [hG.outline, List.forall₂_eq_eq_eq]
  rw [Graph.outline, Graph.outline, List.forall₂_map_left_iff, List.forall₂_map_right_iff] at heq
  refine heq.imp fun m n hmn => ⟨(congrArg LinkedModule.unlinked hmn).symm, ?_⟩
  have hstatements : List.Forall₂ (· = ·) (m.statements.map Statement.unmarked)
      (n.statements.map Statement.unmarked) := by
    rw [List.forall₂_eq_eq_eq]
    exact congrArg (·.statements) hmn
  rw [List.forall₂_map_left_iff, List.forall₂_map_right_iff] at hstatements
  refine hstatements.imp fun s t hst => ⟨(congrArg Statement.unlinked hst).symm, ?_⟩
  have hreferences : s.references = t.references := congrArg (·.references) hst
  rw [hreferences]
  exact List.forall₂_same.mpr fun _ _ => .refl

/-- Whatever a run gives from a graph, steps of some kind lead to the graph behind it. -/
def Takes (P : Graph → Graph → Prop) (g : Graph) {α : Type} (x : Build α) : Prop :=
  ∀ a h, x.run g = .ok (a, h) → Relation.ReflTransGen P g h

section
variable {P : Graph → Graph → Prop} {α β : Type}

theorem Takes.pure {a : α} : Takes P g (Pure.pure a) := by
  intro b h hrun
  obtain ⟨-, rfl⟩ := run_pure_ok.mp hrun
  exact .refl

theorem Takes.bind {x : Build α} {f : α → Build β} (hx : Takes P g x) (hf : ∀ a h, Takes P h (f a)) :
    Takes P g (x >>= f) := by
  intro b k hrun
  obtain ⟨a, h, hxa, hfb⟩ := run_bind_ok.mp hrun
  exact (hx a h hxa).trans (hf a h b k hfb)

theorem Takes.get {f : Graph → Build β} (hf : Takes P g (f g)) : Takes P g (get >>= f) := hf

theorem Takes.put {f : Unit → Build β} (hg : Relation.ReflTransGen P g h) (hf : Takes P h (f ())) :
    Takes P g (set h >>= f) :=
  fun b k hrun => hg.trans (hf b k hrun)

theorem Takes.modify {f : Graph → Graph} {y : Unit → Build β} (hg : Relation.ReflTransGen P g (f g))
    (hy : Takes P (f g) (y ())) : Takes P g (modify f >>= y) :=
  fun b k hrun => hg.trans (hy b k hrun)

theorem Takes.fail {e : Error} : Takes P g (throw e : Build α) := by
  intro a h hrun
  cases hrun

theorem Takes.foldlM {f : β → α → Build β} {l : List α} (hf : ∀ b a h, Takes P h (f b a)) (b : β) :
    Takes P g (l.foldlM f b) := by
  induction l generalizing b g with
  | nil => exact .pure
  | cons a l ih =>
    rw [List.foldlM_cons]
    exact .bind (hf b a g) fun b h => ih b

theorem Takes.mapM {f : α → Build β} {l : List α} (hf : ∀ a h, Takes P h (f a)) :
    Takes P g (l.mapM f) := by
  induction l generalizing g with
  | nil => exact .pure
  | cons a l ih =>
    rw [List.mapM_cons]
    exact .bind (hf a g) fun b h => .bind ih fun bs k => .pure

end

theorem tweaks_nameExport (g : Graph) (external : Nat) (name : String) :
    Tweaks g (g.nameExport external name) := by
  rw [nameExport]
  split
  · exact .single (.external external _ fun _ he => he)
  · exact .refl

theorem takes_externalDeclaration (external : Nat) (name : String) :
    Takes Tweak g (externalDeclaration external name) := by
  intro id h hrun
  rw [externalDeclaration_eq] at hrun
  split at hrun
  · obtain ⟨-, rfl⟩ := Prod.mk.inj (Except.ok.inj hrun)
    exact tweaks_nameExport g external name
  · obtain ⟨-, rfl⟩ := Prod.mk.inj (Except.ok.inj hrun)
    exact .tail (.tail (tweaks_nameExport g external name) (.push _ rfl (.inl rfl)))
      (.external external _ fun e he => Table.nodup_keys_insert he)

theorem takes_seek {α : Type} {search : Nat → List Nat → Build (Option α × List Nat)}
    (hs : ∀ i visited h, Takes Tweak h (search i visited)) (stars : List Target) (visited : List Nat) :
    Takes Tweak g (seek search stars visited) := by
  induction stars generalizing visited g with
  | nil => exact .pure
  | cons t stars ih =>
    cases t with
    | outside e => exact ih visited
    | inside i =>
      refine .bind (hs i visited g) fun r h => ?_
      obtain ⟨found, visited⟩ := r
      cases found with
      | none => exact ih visited
      | some a => exact .pure

structure TweaksWithin (fuel : Nat) : Prop where
  trace : ∀ g module name, Takes Tweak g (traceWithin fuel module name)
  follow : ∀ g target name importer, Takes Tweak g (followWithin fuel target name importer)
  export_ : ∀ g module name importer, Takes Tweak g (exportWithin fuel module name importer)
  find : ∀ g module name visited, Takes Tweak g (findExportWithin fuel module name visited)
  object : ∀ g module, Takes Tweak g (objectWithin fuel module)

section
variable {fuel : Nat} (ih : TweaksWithin fuel)
include ih

theorem takes_traceWithin (module : Nat) (name : String) :
    Takes Tweak g (traceWithin (fuel + 1) module name) := by
  rw [traceWithin]
  refine .get ?_
  split
  · exact .pure
  · split
    · exact .pure
    · exact .pure
    · split
      · exact .pure
      · exact .bind (ih.follow g _ _ _) fun _ _ => .pure

theorem takes_followWithin (target : Target) (name : String) (importer : Nat) :
    Takes Tweak g (followWithin (fuel + 1) target name importer) := by
  cases target with
  | outside e =>
    rw [followWithin]
    exact takes_externalDeclaration e name
  | inside i =>
    rw [followWithin]
    split
    · exact ih.object g i
    · exact ih.export_ g i name importer

theorem takes_exportWithin (module : Nat) (name : String) (importer : Nat) :
    Takes Tweak g (exportWithin (fuel + 1) module name importer) := by
  rw [exportWithin]
  refine .bind (ih.find g module name []) fun r h => ?_
  obtain ⟨found, visited⟩ := r
  cases found with
  | none => exact .get .fail
  | some id => exact .pure

theorem takes_findExportWithin (module : Nat) (name : String) (visited : List Nat) :
    Takes Tweak g (findExportWithin (fuel + 1) module name visited) := by
  rw [findExportWithin]
  split
  · exact .pure
  · refine .get ?_
    split
    · exact .pure
    · next m _ =>
      split
      · split
        · exact .pure
        · exact .bind (ih.follow g _ _ _) fun _ _ => .pure
      · exact .bind (ih.trace g _ _) fun _ _ => .pure
      · split
        · exact .pure
        · refine .bind (takes_seek (fun i visited h => ih.find h i name visited) m.stars _) fun r h => ?_
          obtain ⟨found, visited⟩ := r
          cases found with
          | some id => exact .pure
          | none =>
            dsimp only
            split
            · exact .bind (takes_externalDeclaration _ name) fun _ _ => .pure
            · exact .pure

theorem takes_objectWithin (module : Nat) : Takes Tweak g (objectWithin (fuel + 1) module) := by
  rw [objectWithin]
  refine .get ?_
  split
  · exact .fail
  · split
    · exact .pure
    · refine .put (.tail (.single (.push _ rfl (.inr rfl))) (.whole module _))
        (.bind (.mapM fun name h => ?_) fun members k => ?_)
      · exact .bind (ih.export_ h module name module) fun _ _ => .pure
      · exact .modify (.single (.declaration _ _ fun _ => ⟨⟨rfl, .inr (.inl rfl)⟩, rfl⟩)) .pure

end

theorem tweaksWithin (fuel : Nat) : TweaksWithin fuel := by
  induction fuel with
  | zero =>
    constructor
    · intro g module name
      rw [traceWithin]
      exact .get .fail
    · intro g target name importer
      rw [followWithin]
      exact .get .fail
    · intro g module name importer
      rw [exportWithin]
      exact .get .fail
    · intro g module name visited
      rw [findExportWithin]
      exact .get .fail
    · intro g module
      rw [objectWithin]
      exact .get .fail
  | succ fuel ih =>
    exact ⟨fun _ => takes_traceWithin ih, fun _ => takes_followWithin ih, fun _ => takes_exportWithin ih,
      fun _ => takes_findExportWithin ih, fun _ => takes_objectWithin ih⟩

theorem takes_trace (module : Nat) (name : String) : Takes Tweak g (trace module name) :=
  .get ((tweaksWithin _).trace g module name)

theorem takes_traceExport (target : Target) (name : String) (importer : Nat) :
    Takes Tweak g (traceExport target name importer) := by
  cases target with
  | outside e => exact takes_externalDeclaration e name
  | inside i => exact .get ((tweaksWithin _).export_ g i name importer)

theorem takes_bindTo_of {module id : Nat} {accesses : List Access} {r : Reference}
    (hmember : ∀ a rest k, accesses = a :: rest →
      Takes Tweak g (bindTo module rest k { r with name := a.name, stop := a.stop })) :
    Takes Tweak g (bindTo module accesses id r) := by
  have hput : ∀ h, Tweaks g h →
      Takes Tweak g (do set h; return { r with accesses, binding := .declared id }) :=
    fun h hh => .put hh .pure
  rw [bindTo]
  refine .get ?_
  dsimp only
  split
  · exact .pure
  · exact hput _ (.single (.declaration id _ fun _ => ⟨⟨rfl, .inl rfl⟩, rfl⟩))
  · exact hput _ (.single (.declaration id _ fun _ => ⟨⟨rfl, .inl rfl⟩, rfl⟩))
  · split
    · refine hput _ (.single (.external _ _ fun e he => ?_))
      simp only [External.suggest]
      split <;> exact he
    · exact .pure
  · split
    · exact hput _ (.tail (tweaks_useAsValue g id) (.declaration id _ fun _ => ⟨⟨rfl, .inl rfl⟩, rfl⟩))
    · next a rest =>
      split
      · next k _ => exact hmember a rest k rfl
      · exact .fail

theorem takes_bindTo (module : Nat) (accesses : List Access) (id : Nat) (r : Reference) :
    Takes Tweak g (bindTo module accesses id r) := by
  induction accesses generalizing id r with
  | nil => exact takes_bindTo_of fun a rest k h => by cases h
  | cons a rest ih =>
    refine takes_bindTo_of fun b rest' k h => ?_
    obtain ⟨rfl, rfl⟩ := List.cons.inj h
    exact ih k _

theorem takes_found (module : Nat) (found : Option Nat) (r : Reference) (s₁ s₂ : LinkStats) :
    Takes Tweak g ((match found with
      | some id => do return (← bindTo module r.accesses id r, s₁)
      | none => do
        modify fun g => { g with globals := addNew r.name g.globals }
        return ({ r with binding := .global }, s₂)) : Build (Reference × LinkStats)) := by
  cases found with
  | some id => exact .bind (takes_bindTo module r.accesses id r) fun _ _ => .pure
  | none => exact .modify (.single (.global r.name)) .pure

theorem takes_bindReference (module : Nat) (stats : LinkStats) (r : Reference) :
    Takes Tweak g (bindReference module stats r) := by
  rw [bindReference]
  refine .get ?_
  split
  · exact .pure
  · dsimp only
    split
    · exact .pure
    · split
      · exact .bind .pure fun found h => takes_found module found r _ _
      · exact .bind (takes_trace module r.name) fun found h => takes_found module found r _ _

theorem rebound_of_found {module : Nat} {found : Option Nat} {r : Reference} {s₁ s₂ : LinkStats}
    {p : Reference × LinkStats} (hrun : ((match found with
      | some id => do return (← bindTo module r.accesses id r, s₁)
      | none => do
        modify fun g => { g with globals := addNew r.name g.globals }
        return ({ r with binding := .global }, s₂)) : Build (Reference × LinkStats)).run g = .ok (p, h)) :
    r.Rebound p.1 := by
  cases found with
  | some id =>
    obtain ⟨r', k, hbind, hpure⟩ := run_bind_ok.mp hrun
    obtain ⟨rfl, -⟩ := run_pure_ok.mp hpure
    exact .narrowed (bindTo_narrows module r.accesses id r hbind).2.1
  | none =>
    obtain ⟨rfl, -⟩ := Prod.mk.inj (Except.ok.inj hrun)
    exact .bound .global

theorem rebound_bindReference {module : Nat} {stats : LinkStats} {r : Reference} {p : Reference × LinkStats}
    (hrun : (bindReference module stats r).run g = .ok (p, h)) : r.Rebound p.1 := by
  rw [bindReference, run_get_bind] at hrun
  split at hrun
  · obtain ⟨rfl, -⟩ := run_pure_ok.mp hrun
    exact .bound r.binding
  · dsimp only at hrun
    split at hrun
    · obtain ⟨rfl, -⟩ := run_pure_ok.mp hrun
      exact .bound .inner
    · split at hrun
      · exact rebound_of_found hrun
      · obtain ⟨found, k, -, hrest⟩ := run_bind_ok.mp hrun
        exact rebound_of_found hrest

theorem takes_bindReferenceList (module : Nat) (stats : LinkStats) (rs : List Reference) :
    Takes Tweak g (bindReferenceList module stats rs) := by
  induction rs generalizing g stats with
  | nil => exact .pure
  | cons r rs ih =>
    rw [bindReferenceList]
    exact .bind (takes_bindReference module stats r) fun p h => .bind (ih p.2) fun _ _ => .pure

theorem rebound_bindReferenceList {module : Nat} {stats : LinkStats} {rs : List Reference}
    {p : List Reference × LinkStats} (hrun : (bindReferenceList module stats rs).run g = .ok (p, h)) :
    List.Forall₂ Reference.Rebound rs p.1 := by
  induction rs generalizing g h stats p with
  | nil =>
    obtain ⟨rfl, -⟩ := run_pure_ok.mp hrun
    exact .nil
  | cons r rs ih =>
    obtain ⟨q, k, hfirst, hrest⟩ := run_bind_ok.mp hrun
    obtain ⟨qs, l, hothers, hpure⟩ := run_bind_ok.mp hrest
    obtain ⟨rfl, -⟩ := run_pure_ok.mp hpure
    exact .cons (rebound_bindReference hfirst) (ih hothers)

theorem takes_bindStatement (module : Nat) (stats : LinkStats) (index : Nat) :
    Takes Change g (bindStatement module stats index) := by
  intro stats' h hrun
  rw [bindStatement, run_get_bind] at hrun
  split at hrun
  · obtain ⟨-, rfl⟩ := run_pure_ok.mp hrun
    exact .refl
  · next s hs =>
    split at hrun
    · obtain ⟨-, rfl⟩ := run_pure_ok.mp hrun
      exact .refl
    · obtain ⟨p, k, hlist, hrest⟩ := run_bind_ok.mp hrun
      obtain ⟨-, rfl⟩ := Prod.mk.inj (Except.ok.inj hrest)
      have ht := takes_bindReferenceList module stats s.references p k hlist
      -- binding the references changes no statement, so these are still the references to be replaced
      refine .tail (Tweaks.changes ht) (.references ⟨module, index⟩ p.1 fun s' hs' => ?_)
      obtain rfl := Option.some.inj ((hs.symm.trans (Tweaks.statement? ht _).symm).trans hs')
      exact rebound_bindReferenceList hlist

theorem Takes.changes {α : Type} {x : Build α} (hx : Takes Tweak g x) : Takes Change g x :=
  fun a h hrun => Tweaks.changes (hx a h hrun)

theorem takes_bindDefault (module : Nat) : Takes Tweak g (bindDefault module) := by
  intro u h hrun
  rw [bindDefault, run_get_bind] at hrun
  split at hrun
  · obtain ⟨-, rfl⟩ := run_pure_ok.mp hrun
    exact .refl
  · next m hm =>
    split at hrun
    · next id identifier hid hidentifier =>
      obtain ⟨found, k, htrace, hrest⟩ := run_bind_ok.mp hrun
      have ht : Tweaks g k := takes_trace module identifier found k htrace
      split at hrest
      · next other =>
        split at hrest
        · obtain ⟨-, rfl⟩ := Prod.mk.inj (Except.ok.inj hrest)
          have hsurrogate : k.Surrogate id := (Relinked.surrogate (Tweaks.changes ht).relinked).mpr
            ⟨module, m, identifier, hm, hid, hidentifier⟩
          exact .tail ht (.declaration id _ fun _ => ⟨⟨rfl, .inr (.inr ⟨hsurrogate, other, rfl⟩)⟩, rfl⟩)
        · obtain ⟨-, rfl⟩ := run_pure_ok.mp hrest
          exact ht
      · obtain ⟨-, rfl⟩ := run_pure_ok.mp hrest
        exact ht
    · obtain ⟨-, rfl⟩ := run_pure_ok.mp hrun
      exact .refl

theorem takes_bindReferences (stats : LinkStats) (module : Nat) :
    Takes Change g (bindReferences stats module) :=
  .bind (takes_bindDefault module).changes fun _ _ =>
    .get (.foldlM (fun stats index _ => takes_bindStatement module stats index) stats)

theorem takes_bindAlias (module count : Nat) (copy : String × String × Nat) :
    Takes Tweak g (bindAlias module count copy) := by
  obtain ⟨name, copied, twin⟩ := copy
  rw [bindAlias]
  split
  · exact .pure
  · refine .bind (takes_trace module copied) fun found h => ?_
    split
    · exact .pure
    · refine .get ?_
      dsimp only
      split
      · exact .pure
      · exact .modify (.single (.declaration _ _ fun _ => ⟨⟨rfl, .inl rfl⟩, rfl⟩)) .pure

theorem takes_bindAliases (module count : Nat) : Takes Tweak g (bindAliases module count) := by
  rw [bindAliases]
  refine .get ?_
  split
  · exact .pure
  · exact .foldlM (fun count copy _ => takes_bindAlias module count copy) count

theorem takes_bind : Takes Change g bind := by
  rw [bind]
  refine .modify (.single .stars) (.get (.bind ?_ fun aliases h => ?_))
  · exact Takes.changes (.foldlM (fun count module _ => takes_bindAliases module count) 0)
  · exact .foldlM (fun stats module _ => takes_bindReferences stats module) _

theorem takes_anyTarget (module : Nat) (targets : List (Option String)) :
    Takes Tweak g (anyTarget module targets) := by
  induction targets generalizing g with
  | nil => exact .pure
  | cons target targets ih =>
    cases target with
    | none => exact .pure
    | some name =>
      refine .bind (takes_trace module name) fun found h => ?_
      split
      · exact .pure
      · refine .get ?_
        split
        · exact .pure
        · exact ih

theorem takes_hasSideEffects (r : StatementRef) : Takes Tweak g (hasSideEffects r) := by
  rw [hasSideEffects]
  refine .get ?_
  split
  · exact .pure
  · split
    · exact .pure
    · exact takes_anyTarget r.module _

end Graph

end Treeshake
