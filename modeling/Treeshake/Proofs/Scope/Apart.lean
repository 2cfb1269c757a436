import Mathlib
import Treeshake.Proofs.Graph.Linked
import Treeshake.Proofs.Scope.Sited
/-!
References of a statement and its literals. Main statement: references stand in the node of their statement one behind
the other and have no text of a literal, before they are bound and after, whichever accesses they have taken in.
-/
set_option autoImplicit false

namespace Treeshake

namespace Node

variable {code : List Char} {n : Node} {r : Reference}

def isSubstitution (n : Node) : Bool := n.named && n.kind == "template_substitution"

/-- Accesses and templates as the grammar has them: what is accessed stands in front of the property, and names are in a
template only where it has substitutions. -/
structure Grammatical (n : Node) : Prop where
  member : ∀ m ∈ n.nodes, m.kind = "member_expression" →
    ∀ o ∈ m.childAt? "object", ∀ p ∈ m.childAt? "property", o.stop ≤ p.start
  template : ∀ m ∈ n.nodes, m.kind = "template_string" →
    ∀ c ∈ m.children, c.isSubstitution = false → ∀ d ∈ c.nodes, d.isName = false

instance (n : Node) : Decidable n.Grammatical :=
  decidable_of_iff ((∀ m ∈ n.nodes, m.kind = "member_expression" →
      ∀ o ∈ m.childAt? "object", ∀ p ∈ m.childAt? "property", o.stop ≤ p.start) ∧
    ∀ m ∈ n.nodes, m.kind = "template_string" →
      ∀ c ∈ m.children, c.isSubstitution = false → ∀ d ∈ c.nodes, d.isName = false)
    ⟨fun h => ⟨h.1, h.2⟩, fun h => ⟨h.member, h.template⟩⟩

theorem Grammatical.node {m : Node} (h : n.Grammatical) (hm : m ∈ n.nodes) : m.Grammatical where
  member c hc := h.member c (nodes_trans hm hc)
  template c hc := h.template c (nodes_trans hm hc)

theorem Grammatical.chain {root : Node} {accesses : List Access} (hg : n.Grammatical) (hn : n.Nested code)
    (h : n.chain? code = some (root, accesses)) : root ∈ n.nodes ∧ ∀ a ∈ accesses, root.stop ≤ a.stop := by
  refine chain_induction (P := fun n accesses => n.Grammatical → n.Nested code →
    root ∈ n.nodes ∧ ∀ a ∈ accesses, root.stop ≤ a.stop)
    (fun _ _ _ => ⟨self_mem_nodes root, List.forall_mem_nil _⟩) ?_ h hg hn
  intro n o p rest hkind ho hp _ ih hg hn
  have hobject := mem_children_of_childAt? ho
  have hon := (hn.children.mem hobject).1
  obtain ⟨hroot, hrest⟩ := ih (hg.node (child_mem_nodes hobject)) hon
  have hfront : o.stop ≤ p.start := hg.member n (self_mem_nodes n) hkind o ho p hp
  have hle : p.start ≤ p.stop := (hn.children.mem (mem_children_of_childAt? hp)).1.le
  refine ⟨mem_nodes_of_child hobject hroot, List.forall_mem_append.mpr ⟨hrest, List.forall_mem_singleton.mpr ?_⟩⟩
  exact Nat.le_trans (hon.node hroot).2.2 (Nat.le_trans hfront hle)

theorem Tells.start_le (hg : n.Grammatical) (hn : n.Nested code) (h : n.Tells code r) : ∀ k ∈ r.ends, r.start ≤ k := by
  cases h with
  | name m hm _ hr =>
    rw [Reference.ends, hr.accesses, hr.start, hr.stop]
    exact List.forall_mem_singleton.mpr (hn.node hm).1.le
  | chain e root accesses he hchain hr =>
    have hen := (hn.node he).1
    obtain ⟨hroot, haccesses⟩ := (hg.node he).chain hen hchain
    have hle := (hen.node hroot).1.le
    rw [Reference.ends, hr.accesses, hr.start, hr.stop]
    exact List.forall_mem_cons.mpr ⟨hle, List.forall_mem_map.mpr fun a ha => Nat.le_trans hle (haccesses a ha)⟩

theorem Tells.text (h : n.Tells code r) : r.name = Text.slice r.start r.stop code := by
  cases h with
  | name m _ _ hr => rw [hr.name, hr.start, hr.stop, Node.text]
  | chain e root accesses _ _ hr => rw [hr.name, hr.start, hr.stop, Node.text]

theorem Tells.exists_isName (h : n.Tells code r) : ∃ m ∈ n.nodes, m.isName = true := by
  cases h with
  | name m hm hname _ => exact ⟨m, hm, hname⟩
  | chain e root accesses he hchain _ =>
    obtain ⟨hroot, hkind, -⟩ := chain_nodes hchain
    exact ⟨root, nodes_trans he hroot, isName_of_identifier hkind⟩

end Node

namespace Reference

variable {start stop : Nat} {literals : List (Nat × Nat)} {r r' : Reference} {rs rs' : List Reference}

def Clear (r : Reference) (l : Nat × Nat) : Prop := (∀ k ∈ r.ends, k ≤ l.1) ∨ l.2 ≤ r.start

/-- References that stand in a range one behind the other and have no text of literals. -/
structure Apart (start stop : Nat) (literals : List (Nat × Nat)) (rs : List Reference) : Prop where
  ordered : rs.Pairwise fun r r' => r.stop ≤ r'.start
  inside : ∀ r ∈ rs, start ≤ r.start ∧ r.start ≤ r.stop ∧ r.stop ≤ stop
  clear : ∀ r ∈ rs, ∀ l ∈ literals, r.stop ≤ l.1 ∨ l.2 ≤ r.start

/-- References that stand so and have room for their accesses. -/
structure Spaced (start stop : Nat) (literals : List (Nat × Nat)) (rs : List Reference) : Prop where
  ordered : rs.Pairwise fun r r' => ∀ k ∈ r.ends, k ≤ r'.start
  inside : ∀ r ∈ rs, start ≤ r.start ∧ ∀ k ∈ r.ends, r.start ≤ k ∧ k ≤ stop
  clear : ∀ r ∈ rs, ∀ l ∈ literals, r.Clear l

theorem Spaced.apart (h : Spaced start stop literals rs) : Apart start stop literals rs where
  ordered := h.ordered.imp fun hends => hends _ List.mem_cons_self
  inside r hr := ⟨(h.inside r hr).1, (h.inside r hr).2 _ List.mem_cons_self⟩
  clear r hr l hl := (h.clear r hr l hl).imp_left fun hends => hends _ List.mem_cons_self

theorem Spaced.stays (h : Spaced start stop literals rs) (hrs : List.Forall₂ Stays rs rs') :
    Spaced start stop literals rs' where
  ordered := pairwise_of_forall₂ hrs h.ordered fun q _ q' _ r r' hends hqr hqr' k hk => by
    rw [hqr'.start]
    exact hends k (hqr.ends hk)
  inside r hr := by
    obtain ⟨q, hq, hqr⟩ := forall₂_mem hrs hr
    obtain ⟨hfirst, hends⟩ := h.inside q hq
    rw [hqr.start]
    exact ⟨hfirst, fun k hk => hends k (hqr.ends hk)⟩
  clear r hr l hl := by
    obtain ⟨q, hq, hqr⟩ := forall₂_mem hrs hr
    rw [Clear, hqr.start]
    exact (h.clear q hq l hl).imp_left fun hends k hk => hends k (hqr.ends hk)

end Reference

def Findings.Parted (start stop : Nat) (f : Findings) : Prop :=
  ∀ l ∈ f.literals, start ≤ l.1 ∧ l.2 ≤ stop ∧ ∀ r ∈ f.references, r.Clear l

theorem Findings.Parted.append {start mid stop : Nat} {f f' : Findings} (hf : f.Parted start mid)
    (hf' : f'.Parted mid stop) (hstart : start ≤ mid) (hstop : mid ≤ stop)
    (hbefore : ∀ r ∈ f.references, ∀ k ∈ r.ends, k ≤ mid) (hbehind : ∀ r ∈ f'.references, mid ≤ r.start) :
    (f ++ f').Parted start stop := by
  refine List.forall_mem_append.mpr ⟨fun l hl => ?_, fun l hl => ?_⟩
  · obtain ⟨hfirst, hlast, hclear⟩ := hf l hl
    refine ⟨hfirst, Nat.le_trans hlast hstop, List.forall_mem_append.mpr ⟨hclear, fun r hr => .inr ?_⟩⟩
    exact Nat.le_trans hlast (hbehind r hr)
  · obtain ⟨hfirst, hlast, hclear⟩ := hf' l hl
    refine ⟨Nat.le_trans hstart hfirst, hlast, List.forall_mem_append.mpr ⟨fun r hr => .inl fun k hk => ?_, hclear⟩⟩
    exact Nat.le_trans (hbefore r hr k hk) hfirst

namespace Survey

variable {v : Survey}

theorem templateRanges_apart {code : List Char} {lo start stop hi : Nat} {ns : List Node}
    (hns : Node.NestedFrom code lo hi ns) (hstart : lo ≤ start) (hstop : stop ≤ hi) :
    ∀ l ∈ templateRanges start stop ns, lo ≤ l.1 ∧ l.2 ≤ hi ∧
      ∀ c ∈ ns, c.isSubstitution = true → c.stop ≤ l.1 ∨ l.2 ≤ c.start := by
  induction ns generalizing lo start with
  | nil =>
    intro l hl
    rw [templateRanges] at hl
    split at hl
    · obtain rfl := List.mem_singleton.mp hl
      exact ⟨hstart, hstop, List.forall_mem_nil _⟩
    · cases hl
  | cons n ns ih =>
    obtain ⟨hlo, hn, hrest⟩ := hns
    rw [templateRanges]
    split
    · next hsubstitution =>
      refine List.forall_mem_append.mpr ⟨fun l hl => ?_, fun l hl => ?_⟩
      · split at hl
        · obtain rfl := List.mem_singleton.mp hl
          have hnstop := Nat.le_trans hn.le hrest.le
          refine ⟨hstart, hnstop, List.forall_mem_cons.mpr ⟨fun _ => .inr (Nat.le_refl _), fun c hc _ => .inr ?_⟩⟩
          exact Nat.le_trans hn.le (hrest.mem hc).2.1
        · cases hl
      · obtain ⟨hfirst, hlast, hclear⟩ := ih hrest (Nat.le_refl _) l hl
        exact ⟨Nat.le_trans hlo (Nat.le_trans hn.le hfirst), hlast,
          List.forall_mem_cons.mpr ⟨fun _ => .inl hfirst, hclear⟩⟩
    · next hplain =>
      intro l hl
      obtain ⟨hfirst, hlast, hclear⟩ := ih (hrest.mono (Nat.le_trans hlo hn.le)) hstart l hl
      exact ⟨hfirst, hlast, List.forall_mem_cons.mpr ⟨fun h => absurd h hplain, hclear⟩⟩

theorem parted_visit {n : Node} {o : Outlook} {p : Findings × Outlook × Bool} (hn : n.Nested v.code)
    (h : v.visit o n = .ok p) : p.1.Parted n.start n.stop ∧ (p.2.2 = true → p.1.references = []) := by
  obtain ⟨found, below, deeper⟩ := p
  cases (visited h : v.Visited n found deeper) with
  | string =>
    refine ⟨fun l hl => ?_, Bool.noConfusion⟩
    dsimp only at hl
    split at hl
    · obtain rfl := List.mem_singleton.mp hl
      exact ⟨Nat.le_succ _, Nat.sub_le _ _, List.forall_mem_nil _⟩
    · cases hl
  | template =>
    refine ⟨fun l hl => ?_, fun _ => rfl⟩
    obtain ⟨hfirst, hlast, -⟩ := templateRanges_apart hn.children (Nat.le_succ _) (Nat.sub_le _ _) l hl
    exact ⟨hfirst, hlast, List.forall_mem_nil _⟩
  | deeper => exact ⟨List.forall_mem_nil _, fun _ => rfl⟩
  | comment | name | chain | exported | exportedName => exact ⟨List.forall_mem_nil _, Bool.noConfusion⟩

theorem clear_visit {n c : Node} {o : Outlook} {p : Findings × Outlook × Bool} {r : Reference} (hn : n.Nested v.code)
    (hg : n.Grammatical) (h : v.visit o n = .ok p) (hdeeper : p.2.2 = true) (hc : c ∈ n.children)
    (hr : c.Tells v.code r) : ∀ l ∈ p.1.literals, r.Clear l := by
  obtain ⟨found, below, deeper⟩ := p
  cases (visited h : v.Visited n found deeper) with
  | template hkind =>
    intro l hl
    obtain ⟨m, hm, hname⟩ := hr.exists_isName
    have hsubstitution : c.isSubstitution = true := by
      by_contra hplain
      rw [hg.template n (Node.self_mem_nodes n) hkind c hc (Bool.eq_false_iff.mpr hplain) m hm] at hname
      cases hname
    obtain ⟨-, -, hclear⟩ := templateRanges_apart hn.children (Nat.le_succ _) (Nat.sub_le _ _) l hl
    obtain ⟨hfirst, hlast⟩ := hr.bounds (hn.children.mem hc).1
    rcases hclear c hc hsubstitution with hbehind | hbefore
    · exact .inl fun k hk => Nat.le_trans (hlast k hk) hbehind
    · exact .inr (Nat.le_trans hbefore hfirst)
  | deeper => exact List.forall_mem_nil _
  | comment | string | name | chain | exported | exportedName => cases hdeeper

mutual

/-- The literals that a walk finds have no text of the references that it finds. -/
theorem parted_collect : ∀ {n : Node} {o : Outlook} {f : Findings}, n.Nested v.code → n.Grammatical →
    v.collect o n = .ok f → f.Parted n.start n.stop
  | .mk head cs, o, f, hn, hg, h => by
    rw [collect] at h
    obtain ⟨⟨found, below, deeper⟩, hvisit, h⟩ := bind_eq_ok.mp h
    obtain ⟨hfound, hnone⟩ := parted_visit hn hvisit
    dsimp only at h hfound hnone
    split at h
    · next hdeeper =>
      obtain ⟨rest, hrest, h⟩ := bind_eq_ok.mp h
      obtain rfl := Except.ok.inj h
      have htells := tells_collectAll hrest
      have hall := parted_collectAll hn.2 (fun c hc => hg.node (Node.child_mem_nodes hc)) hrest
      refine List.forall_mem_append.mpr ⟨fun l hl => ?_, fun l hl => ?_⟩
      · refine ⟨(hfound l hl).1, (hfound l hl).2.1, List.forall_mem_append.mpr ⟨(hfound l hl).2.2, fun r hr => ?_⟩⟩
        obtain ⟨c, hc, htold⟩ := htells r hr
        exact clear_visit hn hg hvisit hdeeper hc htold l hl
      · refine ⟨(hall l hl).1, (hall l hl).2.1, List.forall_mem_append.mpr ⟨?_, (hall l hl).2.2⟩⟩
        rw [hnone hdeeper]
        exact List.forall_mem_nil _
    · obtain rfl := Except.ok.inj h
      exact hfound

theorem parted_collectAll {start stop : Nat} : ∀ {ns : List Node} {o : Outlook} {f : Findings},
    Node.NestedFrom v.code start stop ns → (∀ n ∈ ns, n.Grammatical) → v.collectAll o ns = .ok f →
    f.Parted start stop
  | [], o, f, hns, hg, h => by
    obtain rfl := Except.ok.inj h
    exact List.forall_mem_nil _
  | n :: ns, o, f, ⟨hstart, hn, hns⟩, hg, h => by
    obtain ⟨hgn, hgs⟩ := List.forall_mem_cons.mp hg
    obtain ⟨first, rest, hfirst, hrest, rfl⟩ := collectAll_cons h
    obtain ⟨hparted, htells⟩ : first.Parted n.start n.stop ∧ ∀ r ∈ first.references, n.Tells v.code r := by
      rcases hfirst with ⟨-, hfirst⟩ | ⟨-, rfl⟩
      · exact ⟨parted_collect hn hgn hfirst, tells_collect hfirst⟩
      · exact ⟨List.forall_mem_nil _, List.forall_mem_nil _⟩
    have hlower : first.Parted start n.stop := fun l hl => ⟨Nat.le_trans hstart (hparted l hl).1, (hparted l hl).2⟩
    refine hlower.append (parted_collectAll hns hgs hrest) (Nat.le_trans hstart hn.le) hns.le
      (fun r hr => ((htells r hr).bounds hn).2) fun r hr => ?_
    obtain ⟨m, hm, htold⟩ := tells_collectAll hrest r hr
    exact Nat.le_trans (hns.mem hm).2.1 (htold.bounds (hns.mem hm).1).1

end

theorem spaced_collect {n : Node} {o : Outlook} {f : Findings} (hn : n.Nested v.code) (hg : n.Grammatical)
    (h : v.collect o n = .ok f) : Reference.Spaced n.start n.stop f.literals f.references := by
  have htells := tells_collect h
  obtain ⟨es, hes, -, hyields⟩ := readOff_collect hn h
  refine ⟨pairwise_of_forall₂ hyields hes.pairwise fun e he e' he' r r' hle hr hr' k hk => ?_, fun r hr => ?_,
    fun r hr l hl => ((parted_collect hn hg h) l hl).2.2 r hr⟩
  · have hbefore := (hr.bounds (hes.mem he).1).2 k hk
    have hbehind := (hr'.bounds (hes.mem he').1).1
    exact Nat.le_trans hbefore (Nat.le_trans hle hbehind)
  · obtain ⟨hfirst, hlast⟩ := (htells r hr).bounds hn
    exact ⟨hfirst, fun k hk => ⟨(htells r hr).start_le hg hn k hk, hlast k hk⟩⟩

end Survey

/-- The references of a statement do not overlap each other or its literals, and each has the name that it stands on.
When they have been bound, with accesses taken in or without, they still do not. -/
theorem Analysis.references_never_overlap {id : String} {code : List Char} {imports : Table ImportSpecifier}
    {forest forest' : ScopeForest} {ancestors : List Node} {n : Node} {a : Analysis} (hn : n.Nested code)
    (hg : n.Grammatical) (h : Analysis.of id code imports forest ancestors n = .ok (a, forest')) :
    Reference.Apart n.start n.stop a.findings.literals a.findings.references ∧
      (∀ r ∈ a.findings.references, r.name = Text.slice r.start r.stop code) ∧
      ∀ (g g' : Graph) (stats : LinkStats) (k : StatementRef) (s : Statement), g.statement? k = some s →
        s.references = a.findings.references → Graph.bind.run g = .ok (stats, g') →
        ∃ t, g'.statement? k = some t ∧ List.Forall₂ Reference.Stays s.references t.references ∧
          Reference.Apart n.start n.stop a.findings.literals t.references := by
  rw [Analysis.of] at h
  obtain ⟨findings, hcollect, h⟩ := bind_eq_ok.mp h
  obtain ⟨rfl, -⟩ := Prod.mk.inj (Except.ok.inj h)
  have hspaced := Survey.spaced_collect (v := ⟨id, code, imports, _⟩) hn hg hcollect
  refine ⟨hspaced.apart, fun r hr => (Survey.tells_collect hcollect r hr).text, ?_⟩
  intro g g' stats k s hs hreferences hbind
  obtain ⟨t, ht, hst⟩ := (Graph.Changes.relinked (Graph.takes_bind stats g' hbind)).statement? hs
  have hstays : List.Forall₂ Reference.Stays s.references t.references :=
    hst.references.imp fun _ _ hr => Reference.stays_of_rebounds hr
  exact ⟨t, ht, hstays, (hspaced.stays (hreferences ▸ hstays)).apart⟩

namespace Analysis

def callText : List Char := "f(ns.a, `x${y}z`);".toList

def callNode : Node :=
  .mk { kind := "expression_statement", start := 0, stop := 18 } [
    .mk { kind := "call_expression", start := 0, stop := 17 } [
      .mk { kind := "identifier", start := 0, stop := 1, field := "function" } [],
      .mk { kind := "arguments", start := 1, stop := 17, field := "arguments" } [
        .mk { kind := "member_expression", start := 2, stop := 6 } [
          .mk { kind := "identifier", start := 2, stop := 4, field := "object" } [],
          .mk { kind := "property_identifier", start := 5, stop := 6, field := "property" } []],
        .mk { kind := "template_string", start := 8, stop := 16 } [
          .mk { kind := "string_fragment", start := 9, stop := 10 } [],
          .mk { kind := "template_substitution", start := 10, stop := 14 } [
            .mk { kind := "identifier", start := 12, stop := 13 } []],
          .mk { kind := "string_fragment", start := 14, stop := 15 } []]]]]

def callReferences : List Reference :=
  [{ name := "f", start := 0, stop := 1, scope := 0 },
    { name := "ns", start := 2, stop := 4, scope := 0, accesses := [⟨"a", 6⟩] },
    { name := "y", start := 12, stop := 13, scope := 0 }]

def callGraph : Graph :=
  .ofModules [({ Graph.wholeModule "0" .other callReferences [("ns", ⟨"./1", "*", 0⟩)] [] [] with code := callText },
      [("./1", .inside 1)]),
    (Graph.wholeModule "1" .variable [] [] [("a", ⟨"a", none, 0⟩)] [⟨"a", "a", some 0⟩], [])] []

theorem references_never_overlap_call : ∃ a forest, Analysis.of "0" callText [] {} [] callNode = .ok (a, forest) ∧
    a.findings.references = callReferences ∧ a.findings.literals = [(9, 10), (14, 15)] ∧
    ∃ stats g t, Graph.bind.run callGraph = .ok (stats, g) ∧ g.statement? ⟨0, 0⟩ = some t ∧
      t.references.map (fun r => (r.name, r.start, r.stop)) = [("f", 0, 1), ("a", 2, 6), ("y", 12, 13)] ∧
      Reference.Apart 0 18 a.findings.literals t.references := by
  have hanalysis : (Analysis.of "0" callText [] {} [] callNode).toOption.map (fun p =>
      (p.1.findings.references, p.1.findings.literals)) = some (callReferences, [(9, 10), (14, 15)]) := by
    decide +kernel
  have hrun : (Graph.bind.run callGraph).toOption.bind (fun p => (p.2.statement? ⟨0, 0⟩).map fun t =>
      t.references.map (fun r => (r.name, r.start, r.stop))) = some [("f", 0, 1), ("a", 2, 6), ("y", 12, 13)] := by
    cbv
  obtain ⟨⟨a, forest⟩, hof, hfound⟩ := Option.map_eq_some_iff.mp hanalysis
  obtain ⟨hreferences, hliterals⟩ := Prod.mk.inj hfound
  obtain ⟨⟨stats, g⟩, hbind, hstatement⟩ := Option.bind_eq_some_iff.mp hrun
  obtain ⟨t, ht, hnames⟩ := Option.map_eq_some_iff.mp hstatement
  have hof := ok_of_toOption hof
  have hbind := ok_of_toOption hbind
  obtain ⟨-, -, hbound⟩ := references_never_overlap (n := callNode) (by decide +kernel) (by decide +kernel) hof
  obtain ⟨t', ht', -, hapart⟩ := hbound callGraph g stats ⟨0, 0⟩ _ rfl hreferences.symm hbind
  obtain rfl := Option.some.inj (ht.symm.trans ht')
  exact ⟨a, forest, hof, hreferences, hliterals, stats, g, t, hbind, ht, hnames, hapart⟩

end Analysis

end Treeshake
