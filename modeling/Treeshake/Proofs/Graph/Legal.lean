import Treeshake.Proofs.Graph.Called
import Treeshake.Proofs.Text.Identifier
/-!
Whether the names in the output are legal. Marking gives no names, and de-conflicting only puts numbers behind them.
Main statement: where all names of the texts are legal, the names of external modules and of what modules show are
too, but for those given by an access to a member of a module whose name is not.
-/
set_option autoImplicit false

namespace Treeshake.Graph

variable {R : List Routes} {n : Nat} {g₀ g h k : Graph} {N : Identifier.Naming}

theorem titled_keepOf (g : Graph) (o : Option StatementRef) : Titled g (g.keepOf o).1 := by
  rcases keepOf_cases g o with ⟨h, -⟩ | ⟨r, s, -, -, -, h⟩ <;> rw [h]
  · exact .refl g
  · exact titled_modifyStatement g r _

theorem titled_flagExport (g : Graph) (name : String) (id : Nat) : Titled g (g.flagExport name id) := by
  have hentry : Grown g { g with entryExports := g.entryExports.insert name id } := grown_same rfl rfl rfl fun _ h => h
  refine ((titled_same hentry.later rfl rfl rfl).trans ?_).trans (titled_useAsValue _ id)
  exact titled_modifyDeclaration (later_modifyDeclaration fun _ _ => ⟨rfl, rfl⟩) fun _ => rfl

section
variable {a b : Graph × List Nat} (hR : Ranged R n) (hw : Wired R n g₀)
include hR hw

theorem Scan.titled (hG : Grown g₀ a.1) (hs : Scan a b) : Titled a.1 b.1 := by
  have hfits := hG.fits hw.fits
  cases hs with
  | export_ hname hrun =>
    obtain ⟨t, -⟩ := traces_traceExport hR entry _ entry _ _ _ hfits hrun
    exact t.grown.titled.trans (titled_flagExport _ _ _)
  | @use g p q id d hd hused hexternal =>
    have hflag : Titled g (g.flagUsed id) :=
      titled_modifyDeclaration (later_modifyDeclaration fun _ _ => ⟨rfl, rfl⟩) fun _ => rfl
    exact hflag.trans (titled_keepOf _ d.statement)
  | drop hd => exact .refl _
  | @effect g h p r hr hrun =>
    exact (hasSideEffects_explored hR hfits hrun).grown.titled.trans (titled_keepOf h (some r))
  | idle hr hrun => exact (hasSideEffects_explored hR hfits hrun).grown.titled

theorem Scans.titled (hs : Scans (g₀, []) b) : Titled g₀ b.1 := by
  induction hs with
  | refl => exact .refl g₀
  | tail hsteps hstep ih => exact ih.trans (hstep.titled hR hw (Scans.grown hR hw (.refl g₀) hsteps))

end

theorem legal_of_numbered {name name' : String} (hn : Relation.ReflTransGen Numbered name name')
    (h : N.Legal name) : N.Legal name' := by
  induction hn with
  | refl => exact h
  | tail _ hstep ih =>
    obtain ⟨i, rfl⟩ := hstep
    exact ih.numbered i

theorem prefix_of_numbered {name name' : String} (hn : Relation.ReflTransGen Numbered name name') :
    name.toList <+: name'.toList := by
  induction hn with
  | refl => exact List.prefix_rfl
  | tail _ hstep ih =>
    obtain ⟨i, rfl⟩ := hstep
    rw [String.toList_append, String.toList_append, List.append_assoc]
    exact ih.trans (List.prefix_append _ _)

/-- The names in the texts of modules may be bound, and external modules are named after their ids. -/
structure Proper (N : Identifier.Naming) (modules : List (Module × Table Target)) (externals : List External) :
    Prop where
  bindings : ∀ e ∈ modules, ∀ b ∈ e.1.bindings, N.Legal b.name ∨ b.name = Module.idName e.1.id
  references : ∀ e ∈ modules, ∀ s ∈ e.1.statements, ∀ r ∈ s.references, N.Legal r.name
  externals : ∀ x ∈ externals, x.name = Identifier.ofText x.id

/-- The name of something is legal, or it begins with the name of an export that is not, which a reference to it
has: one to a member of a module. -/
def ProperlyCalled (N : Identifier.Naming) (g : Graph) (b : Bearer) : Prop :=
  ∃ name, b.name? g = some name ∧ (N.Legal name ∨
    ∃ q s r, g.statement? q = some s ∧ r ∈ s.references ∧ g.Dubs r b ∧ g.Offers r.name ∧ ¬N.Legal r.name ∧
      r.name.toList <+: name.toList)

section
variable {modules : List (Module × Table Target)} {externals : List External}

theorem mem_linkAll {next module : Nat} {d : Declaration} (hd : d ∈ (linkAll next module modules).2) :
    ∃ e ∈ modules, ∃ b ∈ e.1.bindings, b.name = d.name := by
  induction modules generalizing next module with
  | nil => cases hd
  | cons e modules ih =>
    obtain ⟨m, targets⟩ := e
    rw [linkAll_cons] at hd
    rcases List.mem_append.mp hd with hd | hd
    · obtain ⟨b, hb, rfl⟩ := List.mem_map.mp hd
      exact ⟨_, List.mem_cons_self, b, hb, rfl⟩
    · obtain ⟨e, he, hbinding⟩ := ih hd
      exact ⟨e, List.mem_cons_of_mem _ he, hbinding⟩

theorem stage_starred (hf : Fetched modules externals) (hp : Proper N modules externals) :
    Stage N.Legal ⟨0, 0⟩ (starred modules externals) := by
  refine ⟨⟨fun name hname => ?_, fun b name ho hname => .inl ?_⟩, fun q s _ hs => ?_⟩
  · obtain ⟨m, -, rfl⟩ := List.mem_map.mp hname
    exact Identifier.legal_ofText N _
  · cases b with
    | external i =>
      obtain ⟨x, hx, rfl⟩ := Option.map_eq_some_iff.mp hname
      rw [hp.externals x (List.mem_of_getElem? hx)]
      exact Identifier.legal_ofText N x.id
    | declaration id =>
      obtain ⟨d, hd, rfl⟩ := Option.map_eq_some_iff.mp hname
      obtain ⟨e, he, b, hb, hsame⟩ := mem_linkAll (List.mem_of_getElem? hd)
      rw [← hsame]
      rcases hp.bindings e he b hb with hlegal | hid
      · exact hlegal
      · rw [hid]
        exact Identifier.legal_ofText N _
  · obtain ⟨e, he, hmem⟩ := statement_starred hf hs
    exact hp.references e he s hmem

theorem Built.properlyCalled (hf : Fetched modules externals) (hp : Proper N modules externals)
    (hk : Built modules externals k) {b : Bearer} (hb : k.Bears b) (ho : k.Owned b) : k.ProperlyCalled N b := by
  obtain ⟨stats, g, passes, h, order, hbind, hmark, rfl⟩ := hk
  have hR := ranged_starred hf
  have hw := wired_bind hR (wired_starred hf) hbind
  have hscans : Scans (g, []) (h, []) := (mark_settles hR hw hmark).1
  have hG : Grown g h := Scans.grown hR hw (.refl g) hscans
  have hr := renamed_deconflict h order
  obtain ⟨name', hname'⟩ := hb.named ⟨modules, externals, stats, hf, hbind⟩ hmark
  -- Back from the name in the output: de-conflicting numbered it, marking kept it, and binding gave it.
  obtain ⟨name, hname, hnumbered⟩ := name?_deconflict hname'
  have hcalled := ((staged_stage hR N.Legal).bind hR (wired_starred hf) (stage_starred hf hp) hbind).called.titled
    (Scans.titled hR hw hscans)
  have howned : h.Owned b := by
    cases b with
    | external i => trivial
    | declaration id => exact (hr.isInternal id).symm.trans ho
  refine ⟨name', hname', ?_⟩
  by_cases hlegal : N.Legal name
  · exact .inl (legal_of_numbered hnumbered hlegal)
  · obtain ⟨r, ⟨q, s, -, hs, hmem⟩, hdubs, rfl, hoffers⟩ := (hcalled.names b name howned hname).resolve_left hlegal
    obtain ⟨s', hs', hsame⟩ := hG.statement?_later hs
    have hreferences : s'.references = s.references := congrArg (·.references) hsame
    exact .inr ⟨q, s', r, (hr.statement? q).trans hs', hreferences ▸ hmem, hdubs.later hr.later,
      hoffers.later hr.later, hlegal, prefix_of_numbered hnumbered⟩

/-- In a graph that is linked, marked and de-conflicted, every external module and every declaration that a module
shows has a legal name, unless one begins with the illegal name of an export by which it is referred to as a member
of the module. -/
theorem output_names_legal (hf : Fetched modules externals) (hp : Proper N modules externals)
    (hk : Built modules externals k) :
    (∀ i, i < k.externals.length → k.ProperlyCalled N (.external i)) ∧
      ∀ (i : Nat) (m : LinkedModule), k.modules[i]? = some m → ∀ id ∈ k.renderedDeclarations m,
        k.ProperlyCalled N (.declaration id) := by
  refine ⟨fun i hi => hk.properlyCalled hf hp (.external i hi) trivial, fun i m hm id hid => ?_⟩
  exact hk.properlyCalled hf hp (bears_of_rendered hm hid) ((hk.fits hf).sound.isInternal hm hid)

end

theorem output_names_legal_namesakes : Fetched namesakes [{ id := "a", name := "a" }] ∧
    Proper Identifier.ascii namesakes [{ id := "a", name := "a" }] ∧ ∃ k,
      Built namesakes [{ id := "a", name := "a" }] k ∧ k.ProperlyCalled Identifier.ascii (.external 0) := by
  have hp : Proper Identifier.ascii namesakes [{ id := "a", name := "a" }] :=
    ⟨by decide +kernel, by decide +kernel, by decide +kernel⟩
  have hrun : (bind.run (ofModules namesakes [{ id := "a", name := "a" }])).toOption.bind (fun p =>
      (mark.run p.2).toOption.map fun q => (q.2.deconflict [1, 0]).1.externals.length) = some 1 := by
    cbv
  obtain ⟨⟨stats, g⟩, hbind, hrun⟩ := Option.bind_eq_some_iff.mp hrun
  obtain ⟨⟨passes, h⟩, hmark, hlength⟩ := Option.map_eq_some_iff.mp hrun
  have hk : Built namesakes [{ id := "a", name := "a" }] (h.deconflict [1, 0]).1 :=
    ⟨stats, g, passes, h, [1, 0], ok_of_toOption hbind, ok_of_toOption hmark, rfl⟩
  have hlt : 0 < (h.deconflict [1, 0]).1.externals.length := by
    rw [hlength]
    exact Nat.zero_lt_one
  exact ⟨fetched_namesakes, hp, _, hk, (output_names_legal fetched_namesakes hp hk).1 0 hlt⟩

def keywordMember : List (Module × Table Target) :=
  [({ wholeModule "0" .variable [{ name := "a", start := 4, stop := 5, scope := 0 }] []
        [("class", ⟨"a", none, 0⟩)] [⟨"a", "a", some 0⟩] with sources := ["./1"] }, [("./1", .inside 1)]),
    (wholeModule "1" .other [{ name := "ns", start := 0, stop := 2, scope := 0, accesses := [⟨"class", 3⟩] }]
      [("ns", ⟨"./0", "*", 0⟩)] [] [], [("./0", .inside 0)])]

/-- A declaration that is referred to as a member by the name of a keyword is called so. -/
theorem keyword_member_renames : Fetched keywordMember [] ∧ Proper Identifier.ascii keywordMember [] ∧
    ∃ k m, Built keywordMember [] k ∧ k.modules[0]? = some m ∧ 0 ∈ k.renderedDeclarations m ∧
      (Bearer.declaration 0).name? k = some "class" ∧ ¬Identifier.ascii.Legal "class" := by
  have hf : Fetched keywordMember [] := by
    refine .of_inside (fun e he => ?_) (by decide)
    simp only [keywordMember, List.mem_cons, List.not_mem_nil, or_false] at he
    rcases he with rfl | rfl <;> exact ⟨by decide, by decide, by decide⟩
  have hrun : (bind.run (ofModules keywordMember [])).toOption.bind (fun p =>
      (mark.run p.2).toOption.bind fun q =>
        let k := (q.2.deconflict [1, 0]).1
        k.modules[0]?.map fun m => (k.renderedDeclarations m, k.declarations.map (·.name))) =
      some ([0], ["class", "_0"]) := by
    cbv
  obtain ⟨⟨stats, g⟩, hbind, hrun⟩ := Option.bind_eq_some_iff.mp hrun
  obtain ⟨⟨passes, h⟩, hmark, hrun⟩ := Option.bind_eq_some_iff.mp hrun
  obtain ⟨m, hm, hvalue⟩ := Option.map_eq_some_iff.mp hrun
  obtain ⟨hshown, hnames⟩ := Prod.mk.inj hvalue
  refine ⟨hf, ⟨by decide +kernel, by decide +kernel, by decide +kernel⟩, _, m,
    ⟨stats, g, passes, h, [1, 0], ok_of_toOption hbind, ok_of_toOption hmark, rfl⟩, hm, ?_, ?_, by decide +kernel⟩
  · rw [hshown]
    exact List.mem_singleton_self 0
  · rw [Bearer.name?, declaration?, ← List.getElem?_map, hnames]
    rfl

end Treeshake.Graph
