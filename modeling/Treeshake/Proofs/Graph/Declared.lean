import Treeshake.Proofs.Graph.Contribution
import Treeshake.Proofs.Graph.Origin
import Treeshake.Proofs.Graph.Shown
import Treeshake.Proofs.Graph.Staged
import Treeshake.Proofs.Module.Declared
/-!
What the output declares. A reference whose name its own module declares is bound to what that means, so the references
where a text declares a name are bound to the binding. Main statement: whatever a build of modules that were read from
texts names, the output declares: a binding in its statement, where the text declares it; the value of a default export
where its statement has it; and a module that is used as a value as an object.
-/
set_option autoImplicit false

namespace Treeshake

/-- What a reference is bound to where a scope around it declares its name: to that scope, if it is not the one of its
statement, and else to the declaration of the binding. -/
def LinkedModule.meaning? (m : LinkedModule) (r : Reference) : Option Binding :=
  if m.scopes.containsLocal r.scope r.name then some .inner
  else if (m.scopes.find? r.scope r.name).isSome then (m.declarations.get? r.name).map .declared
  else none

def LinkedModule.nameValue (m : LinkedModule) (s : Statement) (start : Nat) (form : DefaultForm) (name : String)
    (d : Draft) : Except EditFault Draft :=
  match form with
  | .anonymousFunction headEnd => d.overwrite s.nodeStart headEnd (Text.slice start headEnd m.code ++ " " ++ name) false
  | _ => d.overwrite s.nodeStart start ("var " ++ name ++ " = ") false

section
variable {m : LinkedModule} {r : Reference}

theorem LinkedModule.meaning?_inner (hlocal : m.scopes.containsLocal r.scope r.name = true) :
    m.meaning? r = some .inner := by
  rw [meaning?, if_pos hlocal]

theorem LinkedModule.meaning?_declared {id : Nat} (hlocal : m.scopes.containsLocal r.scope r.name = false)
    (hfound : (m.scopes.find? r.scope r.name).isSome = true) (hid : m.declarations.get? r.name = some id) :
    m.meaning? r = some (.declared id) := by
  rw [meaning?, if_neg (Bool.eq_false_iff.mp hlocal), if_pos hfound, hid, Option.map_some]

end

theorem LinkedModule.Relinked.meaning? {m n : LinkedModule} (hmn : m.Relinked n) : n.meaning? = m.meaning? := by
  have hscopes : n.scopes = m.scopes := congrArg (·.scopes) hmn.same
  have hdeclarations : n.declarations = m.declarations := congrArg (·.declarations) hmn.same
  funext r
  rw [LinkedModule.meaning?, LinkedModule.meaning?, hscopes, hdeclarations]

theorem Statement.isLink_iff (s : Statement) : s.isLink = true ↔ s.kind.IsLink := by
  rw [isLink, StatementKind.IsLink]
  cases s.kind <;> simp

theorem Statement.isDefault_iff (s : Statement) :
    s.isDefault = true ↔ ∃ start form, s.kind = .exportDefault start form := by
  rw [isDefault]
  cases s.kind <;> simp

namespace Graph

variable {R : List Routes} {n : Nat} {g h k : Graph} {p q : StatementRef}

theorem bindTo_own {module id : Nat} {accesses : List Access} {r r' : Reference}
    (hown : g.entity? id = some (.own id)) (hrun : (bindTo module accesses id r).run g = .ok (r', h)) :
    r' = { r with accesses, binding := .declared id } := by
  rw [bindTo, run_get_bind] at hrun
  obtain ⟨d, hd, hentity⟩ := Option.map_eq_some_iff.mp hown
  rw [Declaration.entity] at hentity
  rw [show g.declaration? id = some d from hd, Option.map_some] at hrun
  dsimp only at hrun
  cases hkind : d.kind with
  | binding =>
    rw [hkind] at hrun
    exact (Prod.mk.inj (Except.ok.inj hrun)).1.symm
  | defaultValue =>
    rw [hkind] at hrun
    exact (Prod.mk.inj (Except.ok.inj hrun)).1.symm
  | object =>
    rw [hkind] at hentity
    cases hentity
  | external =>
    rw [hkind] at hentity
    cases hentity

theorem bindReference_own {module : Nat} {stats : LinkStats} {r : Reference} {p : Reference × LinkStats}
    {m : LinkedModule} {b : Binding} (hg : Wired R n g) (hm : g.modules[module]? = some m) (hb : m.meaning? r = some b)
    (hrun : (bindReference module stats r).run g = .ok (p, h)) : p.1 = { r with binding := b } := by
  rw [bindReference, run_get_bind, hm] at hrun
  rw [LinkedModule.meaning?, ScopeForest.containsLocal] at hb
  dsimp only at hrun
  split at hrun
  · next hlocal =>
    obtain rfl := Option.some.inj ((if_pos hlocal).symm.trans hb)
    exact congrArg Prod.fst (run_pure_ok.mp hrun).1.symm
  · next hlocal =>
    rw [if_neg hlocal] at hb
    split at hb
    · next hfound =>
      rw [if_pos hfound] at hrun
      obtain ⟨id, hid, rfl⟩ := Option.map_eq_some_iff.mp hb
      obtain ⟨found, k, hpure, hrest⟩ := run_bind_ok.mp hrun
      obtain ⟨rfl, rfl⟩ := run_pure_ok.mp hpure
      rw [hid] at hrest
      obtain ⟨r', l, hbind, hpure⟩ := run_bind_ok.mp hrest
      obtain ⟨rfl, -⟩ := run_pure_ok.mp hpure
      have hroutes : g.routes[module]? = some m.routes := by rw [getElem?_routes, hm, Option.map_some]
      obtain ⟨d, hd, hown, -⟩ := hg.fits.sound.own module m.routes r.name id hroutes (lookup_mem hid)
      exact bindTo_own (by rw [entity?, hd, Option.map_some, hown]) hbind
    · cases hb

theorem bindReferenceList_own (hR : Ranged R n) (hg : Wired R n g) {module : Nat} {stats : LinkStats}
    {rs : List Reference} (hv : ∀ r ∈ rs, Bound R module g r) {p : List Reference × LinkStats} {m : LinkedModule}
    (hm : g.modules[module]? = some m) (hrun : (bindReferenceList module stats rs).run g = .ok (p, h)) :
    ∀ r ∈ rs, ∀ b, m.meaning? r = some b → { r with binding := b } ∈ p.1 := by
  induction rs generalizing g stats p m with
  | nil => exact fun r hr => absurd hr List.not_mem_nil
  | cons r rs ih =>
    obtain ⟨q, k, hfirst, hrest⟩ := run_bind_ok.mp hrun
    obtain ⟨qs, l, hothers, hpure⟩ := run_bind_ok.mp hrest
    obtain ⟨rfl, rfl⟩ := run_pure_ok.mp hpure
    obtain ⟨hw, hl, -⟩ := keeps_bindReference hR module stats r hg (hv r List.mem_cons_self) q k hfirst
    have hrelinked : Relinked g k := (Tweaks.changes (takes_bindReference module stats r q k hfirst)).relinked
    obtain ⟨m', hm', hmm'⟩ := forall₂_getElem? hrelinked hm
    have hrest := ih hw (fun x hx => (hv x (List.mem_cons_of_mem r hx)).later hl) hm' hothers
    rw [hmm'.meaning?] at hrest
    intro x hx b hb
    rcases List.mem_cons.mp hx with rfl | hx
    · rw [← bindReference_own hg hm hb hfirst]
      exact List.mem_cons_self
    · exact List.mem_cons_of_mem _ (hrest x hx b hb)

/-- How far binding has come from a graph: all references of the statements before one whose names their module
declares are bound to what these mean, and the other statements are as they were. What clauses list is no use. -/
structure Advanced (g : Graph) (p : StatementRef) (h : Graph) : Prop where
  relinked : Relinked g h
  ahead : ∀ q, ¬q.Before p → h.statement? q = g.statement? q
  behind : ∀ (q : StatementRef) (m : LinkedModule) (s t : Statement), q.Before p → g.modules[q.module]? = some m →
    g.statement? q = some s → s.kind ≠ .exportClause → h.statement? q = some t → ∀ r ∈ s.references, ∀ b,
    m.meaning? r = some b → { r with binding := b } ∈ t.references

theorem Advanced.same (hs : Advanced g p h) (hr : Relinked h k) (hstatements : ∀ q, k.statement? q = h.statement? q) :
    Advanced g p k where
  relinked := hs.relinked.trans hr
  ahead q hq := (hstatements q).trans (hs.ahead q hq)
  behind q m s t hq hm hget hkind hget' := hs.behind q m s t hq hm hget hkind (hstatements q ▸ hget')

theorem Advanced.skip (hs : Advanced g p h) (hpq : ∀ k : StatementRef, k.Before p → k.Before q)
    (hbetween : ∀ k s, k.Before q → ¬k.Before p → h.statement? k = some s → s.kind = .exportClause) :
    Advanced g q h where
  relinked := hs.relinked
  ahead k hk := hs.ahead k fun h => hk (hpq k h)
  behind k m s t hk hm hget hkind hget' := by
    by_cases hbefore : k.Before p
    · exact hs.behind k m s t hbefore hm hget hkind hget'
    · exact absurd (hbetween k s hk hbefore ((hs.ahead k hbefore).trans hget)) hkind

theorem Advanced.bindStatement {module index : Nat} {stats stats' : LinkStats} (hR : Ranged R n) (hh : Wired R n h)
    (hs : Advanced g ⟨module, index⟩ h) (hrun : (bindStatement module stats index).run h = .ok (stats', k)) :
    Advanced g ⟨module, index + 1⟩ k := by
  have honly : ∀ q : StatementRef, q.Before ⟨module, index + 1⟩ → ¬q.Before ⟨module, index⟩ → q = ⟨module, index⟩ :=
    fun q hq hnot => hq.of_succ.resolve_left hnot
  have hr : Relinked h k := Changes.relinked (takes_bindStatement module stats index stats' k hrun)
  rw [Graph.bindStatement, run_get_bind] at hrun
  split at hrun
  · next hnone =>
    obtain ⟨-, rfl⟩ := run_pure_ok.mp hrun
    refine hs.skip (fun _ => .succ) fun q s hq hnot hget => ?_
    rw [honly q hq hnot, hnone] at hget
    cases hget
  · next s hget =>
    split at hrun
    · next hclause =>
      obtain ⟨-, rfl⟩ := run_pure_ok.mp hrun
      refine hs.skip (fun _ => .succ) fun q t hq hnot hget' => ?_
      rw [honly q hq hnot, hget] at hget'
      obtain rfl := Option.some.inj hget'
      exact beq_iff_eq.mp (Bool.and_eq_true_iff.mp hclause).1
    · obtain ⟨p, l, hlist, hrest⟩ := run_bind_ok.mp hrun
      obtain ⟨-, rfl⟩ := Prod.mk.inj (Except.ok.inj hrest)
      have ht : Tweaks h l := takes_bindReferenceList module stats s.references p l hlist
      have hother : ∀ q : StatementRef, q ≠ ⟨module, index⟩ →
          (l.modifyStatement ⟨module, index⟩ fun s => { s with references := p.1 }).statement? q = h.statement? q := by
        intro q hq
        rw [statement?_modifyStatement, if_neg hq.symm, Tweaks.statement? ht]
      refine ⟨hs.relinked.trans hr, fun q hq => ?_, fun q m s' t hq hm hget' hkind ht' r hr' b hb => ?_⟩
      · have hne : q ≠ ⟨module, index⟩ := by
          rintro rfl
          exact hq (.inr ⟨rfl, Nat.lt_succ_self index⟩)
        exact (hother q hne).trans (hs.ahead q fun hbefore => hq hbefore.succ)
      · rcases hq.of_succ with hq | rfl
        · have hne : q ≠ ⟨module, index⟩ := by
            rintro rfl
            exact StatementRef.not_before_self hq
          exact hs.behind q m s' t hq hm hget' hkind ((hother q hne).symm.trans ht') r hr' b hb
        · -- the references of this statement are still those of the first graph
          have hsame := hget.symm.trans ((hs.ahead _ StatementRef.not_before_self).trans hget')
          obtain rfl := Option.some.inj hsame
          obtain ⟨m', hm', hmm'⟩ := forall₂_getElem? hs.relinked hm
          have hbound := bindReferenceList_own hR hh (hh.bound _ s hget) hm' hlist r hr' b (by rwa [hmm'.meaning?])
          have hnew := statement?_modifyStatement l ⟨module, index⟩ ⟨module, index⟩ fun s => { s with references := p.1 }
          rw [if_pos rfl, Tweaks.statement? ht, hget, Option.map_some] at hnew
          obtain rfl := Option.some.inj (hnew.symm.trans ht')
          exact hbound

theorem staged_advanced (hR : Ranged R n) (g : Graph) : Staged R n (Advanced g) where
  aliases hg hs hrun := by
    have ht := takes_bindAliases _ _ _ _ hrun
    exact hs.same (Tweaks.changes ht).relinked (Tweaks.statement? ht)
  default hg hs hrun := by
    have ht := takes_bindDefault _ _ _ hrun
    exact hs.same (Tweaks.changes ht).relinked (Tweaks.statement? ht)
  statement hg hs hrun := hs.bindStatement hR hg hrun
  next {g module index} hs hnone := by
    refine hs.skip (fun _ => .next) fun q s hq hnot hget => ?_
    obtain ⟨i, j⟩ := q
    obtain ⟨rfl, hj⟩ := hq.of_next.resolve_left hnot
    rw [hnone j hj] at hget
    cases hget

section
variable {modules : List (Module × Table Target)} {externals : List External} (hf : Fetched modules externals)
  (hg : Built modules externals g)
include hf hg

theorem Built.bound {i j : Nat} {l : LinkedModule} {s t : Statement} {r : Reference} {b : Binding}
    (hl : (ofModules modules externals).modules[i]? = some l) (hs : l.statements[j]? = some s)
    (hkind : s.kind ≠ .exportClause) (ht : g.statement? ⟨i, j⟩ = some t) (hr : r ∈ s.references)
    (hb : l.meaning? r = some b) : { r with binding := b } ∈ t.references := by
  obtain ⟨stats, k, passes, h, order, hbind, hmark, rfl⟩ := hg
  have hR := ranged_starred hf
  have hw := wired_starred hf
  have hfirst : Advanced (starred modules externals) ⟨0, 0⟩ (starred modules externals) := by
    refine ⟨.refl _, fun _ _ => rfl, fun q _ _ _ hq => ?_⟩
    rcases hq with hq | ⟨-, hq⟩ <;> exact absurd hq (Nat.not_lt_zero _)
  have hlast := (staged_advanced hR _).bind hR hw hfirst hbind
  have hgrown : Grown k h := Scans.grown hR (wired_bind hR hw hbind) (.refl k) (mark_settles hR
    (wired_bind hR hw hbind) hmark).1
  rw [(renamed_deconflict h order).statement?] at ht
  obtain ⟨t', ht', hsame⟩ := hgrown.statement? ht
  have hreferences : t.references = t'.references := congrArg (·.references) hsame
  have hstarred : (starred modules externals).modules[i]? = some l.bindStars := by
    rw [starred, List.getElem?_map, hl, Option.map_some]
  have hstatement : (starred modules externals).statement? ⟨i, j⟩ = some s := by
    rw [Graph.statement?, hstarred]
    exact hs
  rw [hreferences]
  exact hlast.behind ⟨i, j⟩ l.bindStars s t' (.inl (List.getElem?_eq_some_iff.mp hl).1) hstarred hstatement hkind ht' r
    hr b hb

theorem Built.not_redundant {i : Nat} {m : LinkedModule} {s : Statement} {root : Node} {l : LinkedModule}
    (hl : (ofModules modules externals).modules[i]? = some l) (hroot : l.toModule.Declared root)
    (hm : g.modules[i]? = some m) (hs : s ∈ m.statements)
    (hidentifier : ∀ start form, s.kind = .exportDefault start form → form ≠ .declaration →
      (m.exports.get? "default").bind (·.identifier) = none) : g.isRedundant m s = false := by
  rw [isRedundant]
  split
  · next start form hkind =>
    rw [Bool.and_eq_false_iff]
    by_cases hform : form = .declaration
    · exact .inl (by rw [hform]; rfl)
    · refine .inr (Bool.eq_false_iff.mpr fun hreplaced => ?_)
      obtain ⟨d, hd, hreplaced⟩ := (Option.any_eq_true _ _).mp hreplaced
      obtain ⟨id, hid, hd⟩ := Option.bind_eq_some_iff.mp hd
      obtain ⟨e, l', b, he, hkey, hl', hstems⟩ := hg.stemsFrom_of_mem hf hm (lookup_mem hid)
      obtain rfl := Option.some.inj (hd.symm.trans he)
      obtain rfl := Option.some.inj (hl.symm.trans hl')
      rcases hstems.kind with hsame | ⟨⟨i', m', identifier, hm', hdefault, hname⟩, -⟩
      · rw [isReplaced, Declaration.standsFor, hsame, TopBinding.declare, hkey] at hreplaced
        cases hreplaced
      · -- the declaration of the default export is in the module of its statement, and in no other
        obtain ⟨s', hs', hss'⟩ := forall₂_mem hstems.relinked.statements hs
        have hdefaulted : s'.isDefault = true := by
          have hkinds : s.kind = s'.kind := congrArg (·.kind) hss'.same
          rw [Statement.isDefault, ← hkinds, hkind]
        obtain ⟨j, hj⟩ := Option.isSome_iff_exists.mp ((hroot.default b hstems.binding hkey).2 s' hs' hdefaulted)
        have hplace : d.statement = some ⟨i, j⟩ := by rw [hstems.statement, TopBinding.declare, hj, Option.map_some]
        have hroutes : g.routes[i']? = some m'.routes := by rw [getElem?_routes, hm', Option.map_some]
        obtain ⟨d', hd', -, hmodule⟩ := (hg.fits hf).sound.own i' m'.routes "default" id hroutes (lookup_mem hdefault)
        obtain rfl := Option.some.inj (hd'.symm.trans hd)
        obtain rfl : i = i' := hmodule ⟨i, j⟩ hplace
        obtain rfl := Option.some.inj (hm.symm.trans hm')
        rw [hidentifier start form hkind hform] at hname
        cases hname
  · rfl

theorem Built.stays {i j : Nat} {m : LinkedModule} {s : Statement} {root : Node} {l : LinkedModule}
    (hl : (ofModules modules externals).modules[i]? = some l) (hroot : l.toModule.Declared root)
    (hm : g.modules[i]? = some m) (hs : m.statements[j]? = some s) (hincluded : g.isIncluded ⟨i, j⟩ = true)
    (hlink : ¬s.kind.IsLink) (hidentifier : ∀ start form, s.kind = .exportDefault start form → form ≠ .declaration →
      (m.exports.get? "default").bind (·.identifier) = none) : g.isDropped m s = false := by
  have hget : g.statement? ⟨i, j⟩ = some s := by
    rw [Graph.statement?, hm]
    exact hs
  obtain ⟨s', hget', hincluded⟩ := isIncluded_iff.mp hincluded
  obtain rfl := Option.some.inj (hget.symm.trans hget')
  rw [isDropped, hincluded, hg.not_redundant hf hl hroot hm (List.mem_of_getElem? hs) hidentifier,
    Bool.eq_false_iff.mpr fun h => hlink (s.isLink_iff.mp h)]
  rfl

end

theorem renderName_binding {id : Nat} {e : Declaration} {es6 : Bool} (he : g.declaration? id = some e)
    (hkind : e.kind = .binding) (hthrough : e.writesThrough es6 = false) : g.renderName id es6 = e.name := by
  have hstands : (g.declaration? id).bind (·.standsFor) = none := by
    rw [he, Option.bind_some, Declaration.standsFor, hkind]
  have hexternal : e.isExternal = false := by rw [Declaration.isExternal, hkind]
  exact nameWithin_owner ((ownerWithin_of_standsFor _ _ hstands).symm ▸ he) hexternal hthrough

theorem exportsBinding_own {m : LinkedModule} {key : String} {id : Nat} {e : Declaration}
    (hkey : m.declarations.get? key = some id) (he : g.declaration? id = some e) (hkind : e.kind = .binding)
    (es6 : Bool) : g.exportsBinding m (some key) es6 = e.writesThrough es6 := by
  rw [exportsBinding, Option.bind_some, hkey, Option.bind_some, he, Option.any_some, Declaration.writesThrough, hkind,
    beq_self_eq_true, Bool.and_true, Bool.and_assoc]

def ReadModules (roots : Nat → Node) (modules : List (Module × Table Target)) : Prop :=
  ∀ i p, modules[i]? = some p → ∃ (grammar : Grammar) (id : String) (source : Source) (tree : SyntaxTree),
    Module.treeOf grammar id source = .ok tree ∧ tree.Declaring source.code.toList ∧ tree.root = roots i ∧
      Module.parse grammar id source = .ok p.1

/-- Where the output declares a binding: at a reference of a statement that stays, where a declaration in the text of
the module binds the name. The reference is bound to the binding, and has its name in the output unless it has that name
and makes room for another; or else a function or block in the statement declares the name again, around it. -/
structure DeclaredAt (roots : Nat → Node) (g : Graph) (id : Nat) (e : Declaration) (i j : Nat) (m : LinkedModule)
    (s : Statement) (r : Reference) : Prop where
  place : e.statement = some ⟨i, j⟩
  module : g.modules[i]? = some m
  statement : m.statements[j]? = some s
  stays : g.isDropped m s = false
  reference : r ∈ s.references
  binds : r.Binds m.code (roots i)
  own : m.declarations.get? r.name = some id
  keyword : ∀ es6, g.exportsBinding m (some r.name) es6 = e.writesThrough es6
  written : (r.declaration? = some id ∧ ∀ es6, e.writesThrough es6 = false →
      (g.emitted m es6 s.references r = e.name ↔
        (g.newName? es6 r = none → r.name ∉ g.captured m es6 s.references))) ∨
    r.binding = .inner ∧ m.scopes.containsLocal r.scope r.name = true

/-- Where the output binds the value of a default export: in its statement, which gets the name in front of the value,
unless it is a declaration. -/
structure ValuedAt (g : Graph) (id : Nat) (e : Declaration) (i j : Nat) (m : LinkedModule) (s : Statement)
    (start : Nat) (form : DefaultForm) : Prop where
  place : e.statement = some ⟨i, j⟩
  module : g.modules[i]? = some m
  statement : m.statements[j]? = some s
  included : s.included = true
  own : m.declarations.get? "default" = some id
  kind : s.kind = .exportDefault start form
  written : form ≠ .declaration → g.isDropped m s = false ∧
    ∀ es6 d, g.renderDefault m es6 s start form d = m.nameValue s start form e.name d

/-- What the output declares under the name of a declaration, whatever that is: a binding where the text declares it, a
default export that nothing replaces where its value is, unless its module has no statement for it, and a module that
is used as a value as an object. -/
structure Declares (roots : Nat → Node) (g : Graph) (id : Nat) (e : Declaration) : Prop where
  binding : e.kind = .binding → ∃ i j m s r, DeclaredAt roots g id e i j m s r
  default : ∀ underlying, e.kind = .defaultValue underlying → g.isReplaced e = false →
    (∃ i j m s start form, ValuedAt g id e i j m s start form) ∨
      e.statement = none ∧ ∃ (i : Nat) (m : LinkedModule), g.modules[i]? = some m ∧
        m.declarations.get? "default" = some id ∧ ∀ s ∈ m.statements, s.isDefault = false
  object : ∀ i members v, e.kind = .object i members v → ∃ m, g.modules[i]? = some m ∧
    ∀ es6, g.renderObject? m es6 = if v then
      some ("\n\nvar " ++ e.name ++ r" = {" ++ "\n" ++
        ",\n".intercalate (members.map (g.renderMember es6 m.draft.indentUnit)) ++ "\n" ++ r"};" ++ "\n\n")
    else none

section
variable {modules : List (Module × Table Target)} {externals : List External} {roots : Nat → Node}

theorem ReadModules.declared (hf : Fetched modules externals) (ht : ReadModules roots modules) {i : Nat}
    {l : LinkedModule} (hl : (ofModules modules externals).modules[i]? = some l) : l.toModule.Declared (roots i) := by
  obtain ⟨p, hp, hmodule, -, -⟩ := (linking 0 0 modules hf.fresh).modules i l hl
  obtain ⟨grammar, id, source, tree, htree, hdeclaring, hroot, hparse⟩ := ht i p hp
  rw [hmodule, ← hroot]
  exact Module.declared_parse htree hdeclaring hparse

variable (hf : Fetched modules externals) (ht : ReadModules roots modules) (hg : Built modules externals g)
include hf ht hg

theorem Built.declaredAt {id : Nat} {e : Declaration} (he : g.declaration? id = some e) (hu : e.used = true)
    (hkind : e.kind = .binding) : ∃ i j m s r, DeclaredAt roots g id e i j m s r := by
  have hown : e.entity id = .own id := by rw [Declaration.entity, hkind]
  obtain ⟨i, l, m, b, hl, hstems⟩ := hg.stemsFrom hf he hown
  have hroot := ht.declared hf hl
  have hkey : b.key ≠ "default" := by
    rintro hkey
    rcases hstems.kind with hsame | ⟨-, k, hvalue⟩
    · rw [hkind, TopBinding.declare, hkey] at hsame
      cases hsame
    · rw [hkind] at hvalue
      cases hvalue
  obtain ⟨j, s, r, hat⟩ := hroot.bound b hstems.binding hkey
  have hplace : e.statement = some ⟨i, j⟩ := by
    rw [hstems.statement, TopBinding.declare, hat.place, Option.map_some]
  obtain ⟨t, ht', hst⟩ := forall₂_getElem? hstems.relinked.statements hat.statement
  have hget : g.statement? ⟨i, j⟩ = some t := by
    rw [Graph.statement?, hstems.module]
    exact ht'
  have hkinds : t.kind = s.kind := congrArg (·.kind) hst.same
  have hexports : m.exports = l.exports := congrArg (·.exports) hstems.relinked.same
  have hcode : m.code = l.code := congrArg (·.code) hstems.relinked.same
  have hscopes : m.scopes = l.scopes := congrArg (·.scopes) hstems.relinked.same
  have hdeclarations : m.declarations = l.declarations := congrArg (·.declarations) hstems.relinked.same
  have hid : m.declarations.get? r.name = some id := hat.name ▸ hstems.get? hroot.keys
  have hstays : g.isDropped m t = false := by
    have hincluded := (hg.live hf).statement id e ⟨i, j⟩ he hu hplace
    refine hg.stays hf hl hroot hstems.module ht' hincluded (hkinds ▸ hat.visible) fun start form hdefault hform => ?_
    exact hexports ▸ hat.shown start form (hkinds ▸ hdefault) hform
  -- the reference is bound to what it means in its module: to a scope around it, or else to the binding
  have hmeans : ∀ b', l.meaning? r = some b' → { r with binding := b' } ∈ t.references := by
    have hclause : s.kind ≠ .exportClause := fun h => hat.visible (h ▸ .inr (.inl rfl))
    exact fun b' => hg.bound hf hl hat.statement hclause hget hat.reference
  cases hlocal : l.scopes.containsLocal r.scope r.name with
  | true =>
    exact ⟨i, j, m, t, { r with binding := .inner }, hplace, hstems.module, ht', hstays,
      hmeans _ (LinkedModule.meaning?_inner hlocal), hcode ▸ hat.binds, hid, exportsBinding_own hid he hkind,
      .inr ⟨rfl, hscopes ▸ hlocal⟩⟩
  | false =>
    refine ⟨i, j, m, t, { r with binding := .declared id }, hplace, hstems.module, ht', hstays,
      hmeans _ (LinkedModule.meaning?_declared hlocal hat.found (hdeclarations ▸ hid)), hcode ▸ hat.binds, hid,
      exportsBinding_own hid he hkind, .inl ⟨rfl, fun es6 hthrough => ?_⟩⟩
    rw [← renderName_binding he hkind hthrough]
    exact emitted_eq_renderName_iff rfl

theorem Built.valuedAt {id : Nat} {e : Declaration} {underlying : Option Nat} (he : g.declaration? id = some e)
    (hu : e.used = true) (hkind : e.kind = .defaultValue underlying) (hreplaced : g.isReplaced e = false) :
    (∃ i j m s start form, ValuedAt g id e i j m s start form) ∨
      e.statement = none ∧ ∃ (i : Nat) (m : LinkedModule), g.modules[i]? = some m ∧
        m.declarations.get? "default" = some id ∧ ∀ s ∈ m.statements, s.isDefault = false := by
  obtain ⟨i, l, m, b, hkey, hl, hstems⟩ := hg.stemsFrom_default hf he hkind
  have hroot := ht.declared hf hl
  obtain ⟨hsome, hnone⟩ := hroot.default b hstems.binding hkey
  have hget : m.declarations.get? "default" = some id := hkey ▸ hstems.get? hroot.keys
  have hsame : ∀ {s t : Statement}, s.Relinked t → t.isDefault = s.isDefault := by
    intro s t hst
    rw [Statement.isDefault, Statement.isDefault, show t.kind = s.kind from congrArg (·.kind) hst.same]
  cases hplace : b.statement with
  | none =>
    refine .inr ⟨by rw [hstems.statement, TopBinding.declare, hplace, Option.map_none], i, m, hstems.module, hget,
      fun t ht' => Bool.eq_false_iff.mpr fun hdefault => ?_⟩
    obtain ⟨s, hs, hst⟩ := forall₂_mem hstems.relinked.statements ht'
    have hisSome := hnone s hs ((hsame hst).symm.trans hdefault)
    rw [hplace] at hisSome
    cases hisSome
  | some j =>
    obtain ⟨s, hs, hdefault⟩ := hsome j hplace
    obtain ⟨t, ht', hst⟩ := forall₂_getElem? hstems.relinked.statements hs
    obtain ⟨start, form, hform⟩ := t.isDefault_iff.mp ((hsame hst).trans hdefault)
    have hplace' : e.statement = some ⟨i, j⟩ := by rw [hstems.statement, TopBinding.declare, hplace, Option.map_some]
    have hincluded : t.included = true := by
      obtain ⟨t', hget', hincluded⟩ := isIncluded_iff.mp ((hg.live hf).statement id e ⟨i, j⟩ he hu hplace')
      rw [Graph.statement?, hstems.module] at hget'
      obtain rfl := Option.some.inj (ht'.symm.trans hget')
      exact hincluded
    refine .inl ⟨i, j, m, t, start, form, hplace', hstems.module, ht', hincluded, hget, hform, fun hne => ?_⟩
    have hexternal : e.isExternal = false := by rw [Declaration.isExternal, hkind]
    obtain ⟨hredundant, hwritten⟩ :=
      ((hg.live hf).renders he hu hexternal).value underlying hkind hreplaced m t start form hget hform hne
    refine ⟨?_, hwritten⟩
    rw [isDropped, hincluded, hredundant, Statement.isLink, hform]
    rfl

/-- In a build of modules that were read from texts, what the output names for itself is used as a value if it is a
module. What the output names has the name of its owner, unless that is written through the exports, and the output
declares the owner under that name. -/
theorem named_declarations_declared {id : Nat} (hid : g.Named id) (hinternal : g.isInternal id = true) :
    (g.Mentioned id → ∀ d, g.declaration? id = some d → d.HasValue) ∧
    ∀ e, g.declaration? (g.owner id) = some e → e.isExternal = false →
      (∀ es6, e.writesThrough es6 = false → g.renderName id es6 = e.name) ∧ Declares roots g (g.owner id) e := by
  have hl := hg.live hf
  refine ⟨fun hm d hd => hl.mentioned hm hd, fun e he hexternal => ⟨fun es6 => nameWithin_owner he hexternal, ?_⟩⟩
  have hu := hl.owner (hl.named hid hinternal) he hexternal
  exact ⟨hg.declaredAt hf ht he hu, fun _ => hg.valuedAt hf ht he hu, (hl.renders he hu hexternal).object⟩

end

def handedText : String := "var a = 1;\nf(a);"

def handedTree : SyntaxTree := .of handedText (.mk { kind := "program", start := 0, stop := 16 } [
  .mk { kind := "variable_declaration", start := 0, stop := 10 } [
    .mk { kind := "variable_declarator", start := 4, stop := 9 } [
      .mk { kind := "identifier", start := 4, stop := 5, field := "name" } [],
      .mk { kind := "number", start := 8, stop := 9, field := "value" } []]],
  .mk { kind := "expression_statement", start := 11, stop := 16 } [
    .mk { kind := "call_expression", start := 11, stop := 15 } [
      .mk { kind := "identifier", start := 11, stop := 12, field := "function" } [],
      .mk { kind := "arguments", start := 12, stop := 15, field := "arguments" } [
        .mk { kind := "identifier", start := 13, stop := 14 } []]]]])

def handed : List (Module × Table Target) :=
  [({ id := "a"
      code := handedText.toList
      firstCode := handedText
      maps := []
      draft := {
        source := handedText
        cells := Cell.settled 0 handedText.toList
        anchors := [14, 13, 15, 12, 12, 11, 15, 11, 16, 11, 9, 8, 5, 4, 9, 4, 10, 0, 16, 0] }
      statements := [
        { kind := .variable, start := 0, stop := 10, next := 11, nodeStart := 0, scope := some 0
          references := [{ name := "a", start := 4, stop := 5, scope := 0 }] },
        { kind := .other, start := 11, stop := 16, next := 16, nodeStart := 11, scope := some 1
          references := [{ name := "f", start := 11, stop := 12, scope := 1 },
            { name := "a", start := 13, stop := 14, scope := 1 }]
          effects := { calls := true } }]
      scopes := ⟨[⟨none, .statement, ["a"]⟩, ⟨none, .statement, []⟩]⟩
      imports := []
      exports := []
      reexports := []
      starSources := []
      sources := []
      bindings := [⟨"a", "a", some 0⟩] }, [])]

theorem read_handed : ReadModules (fun _ => handedTree.root) handed := by
  have hparse : (Module.parse (fun _ => some handedTree) "a" { code := handedText, firstCode := handedText }).toOption =
      handed.head?.map (·.1) := by
    decide +kernel
  intro i p hp
  obtain rfl : p = handed.head (List.cons_ne_nil _ _) := List.mem_singleton.mp (List.mem_of_getElem? hp)
  exact ⟨fun _ => some handedTree, "a", { code := handedText, firstCode := handedText }, handedTree, rfl,
    by decide +kernel, rfl, ok_of_toOption hparse⟩

theorem fetched_handed : Fetched handed [] := by
  refine .of_inside (fun e he => ?_) fun e he p hp => ?_
  · obtain rfl := List.mem_singleton.mp he
    exact ⟨by decide, by decide, by decide⟩
  · obtain rfl := List.mem_singleton.mp he
    cases hp

theorem named_declarations_declared_handed : ∃ g, Built handed [] g ∧ g.Named 0 ∧ ∃ i j m s r e,
    g.declaration? (g.owner 0) = some e ∧ DeclaredAt (fun _ => handedTree.root) g (g.owner 0) e i j m s r := by
  have hrun : (bind.run (ofModules handed [])).toOption.bind (fun p => (mark.run p.2).toOption.bind fun q =>
      let g := (q.2.deconflict [0]).1
      (g.statement? ⟨0, 1⟩).bind fun s => s.references[1]?.bind fun r => r.declaration?.bind fun id =>
        (g.declaration? (g.owner id)).map fun e => (s.included, id, e.kind, e.isExternal, g.isInternal id)) =
      some (true, 0, .binding, false, true) := by
    cbv
  obtain ⟨⟨stats, l⟩, hbind, hrun⟩ := Option.bind_eq_some_iff.mp hrun
  obtain ⟨⟨passes, h⟩, hmark, hrun⟩ := Option.bind_eq_some_iff.mp hrun
  obtain ⟨s, hs, hrun⟩ := Option.bind_eq_some_iff.mp hrun
  obtain ⟨r, hr, hrun⟩ := Option.bind_eq_some_iff.mp hrun
  obtain ⟨id, hid, hrun⟩ := Option.bind_eq_some_iff.mp hrun
  obtain ⟨e, he, hvalue⟩ := Option.map_eq_some_iff.mp hrun
  simp only [Prod.mk.injEq] at hvalue
  obtain ⟨hincluded, rfl, hkind, hexternal, hinternal⟩ := hvalue
  have hg : Built handed [] (h.deconflict [0]).1 :=
    ⟨stats, l, passes, h, [0], ok_of_toOption hbind, ok_of_toOption hmark, rfl⟩
  have hnamed : (h.deconflict [0]).1.Named 0 :=
    .inl (.reference ⟨0, 1⟩ s r hs hincluded (List.mem_of_getElem? hr) hid)
  obtain ⟨-, howner⟩ := named_declarations_declared fetched_handed read_handed hg hnamed hinternal
  obtain ⟨i, j, m, s, r, hat⟩ := (howner e he hexternal).2.binding hkind
  exact ⟨_, hg, hnamed, i, j, m, s, r, e, he, hat⟩

end Graph

end Treeshake
