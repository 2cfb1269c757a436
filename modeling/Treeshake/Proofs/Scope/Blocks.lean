import Treeshake.Proofs.Graph.Build
import Treeshake.Proofs.Module.Parsed
import Treeshake.Proofs.Scope.Stations
import Treeshake.Proofs.Syntax.Lexed
/-!
What blocks keep to themselves. Main statement: a name that is declared with let or const, or as that of a class, in a
function, a block, a loop or a catch clause is not found from any reference outside of it.
-/
set_option autoImplicit false

namespace Treeshake

namespace ScopeForest

theorem findWithin_closed {f : ScopeForest} {P : Nat → Prop} {name : String} {fuel scope found : Nat}
    (hP : ∀ x y, P x → f.parent? x = some y → P y) (h : f.findWithin name fuel scope = some found) (hscope : P scope) :
    P found := by
  induction fuel generalizing scope with
  | zero => cases h
  | succ fuel ih =>
    rw [findWithin] at h
    split at h
    · obtain rfl := Option.some.inj h
      exact hscope
    · obtain ⟨y, hy, h⟩ := Option.bind_eq_some_iff.mp h
      exact ih h (hP scope y hscope hy)

end ScopeForest

namespace Survey

variable {v : Survey} {n : Node} {o : Outlook}

def Around (v : Survey) (inner : Nat) (r : Reference) : Prop :=
  r.scope = inner ∨ v.scoping.forest.parent? inner = some r.scope

theorem around_visit {p : Findings × Outlook × Bool} (h : v.visit o n = .ok p) :
    (∀ r ∈ p.1.references, v.Around ((v.scoping.owners.lookup n.identity).getD o.scope) r) ∧
      (p.2.2 = true → p.2.1.ancestors = n :: o.ancestors ∧
        p.2.1.scope = (v.scoping.owners.lookup n.identity).getD o.scope) := by
  unfold visit at h
  extract_lets scope deferred here below assigns at h
  have hnone : ∀ (effects : Effects) (literals : List (Nat × Nat)), ∀ r ∈ ({ literals, effects } : Findings).references,
      v.Around scope r := fun _ _ => List.forall_mem_nil _
  have hassigns : ∀ field, assigns field = .ok p → (∀ r ∈ p.1.references, v.Around scope r) ∧
      (p.2.2 = true → p.2.1.ancestors = n :: o.ancestors ∧ p.2.1.scope = scope) := by
    intro field h
    simp only [assigns] at h
    split at h
    · obtain rfl := Except.ok.inj h
      exact ⟨hnone _ _, fun _ => ⟨rfl, rfl⟩⟩
    · obtain ⟨q, -, h⟩ := bind_eq_ok.mp h
      obtain rfl := Except.ok.inj h
      exact ⟨hnone _ _, fun _ => ⟨rfl, rfl⟩⟩
  have hone : ∀ (m : Node) (accesses : List Access) (shorthand : Bool),
      ∀ r ∈ (v.reference here m accesses shorthand).references, v.Around scope r := fun _ _ _ =>
    List.forall_mem_singleton.mpr (.inl rfl)
  -- the name of a function may be bound around the function's scope
  have houtside : ∀ outside : Bool, let scope' := if outside then (v.scoping.forest.parent? scope).getD scope else scope
      scope' = scope ∨ v.scoping.forest.parent? scope = some scope' := by
    intro outside
    cases outside with
    | false => exact .inl rfl
    | true =>
      cases hparent : v.scoping.forest.parent? scope with
      | none => exact .inl rfl
      | some parent => exact .inr rfl
  split at h
  · obtain rfl := Except.ok.inj h
    exact ⟨hnone _ _, Bool.noConfusion⟩
  · obtain rfl := Except.ok.inj h
    exact ⟨hnone _ _, Bool.noConfusion⟩
  · obtain rfl := Except.ok.inj h
    exact ⟨hnone _ _, fun _ => ⟨rfl, rfl⟩⟩
  · obtain rfl := Except.ok.inj h
    exact ⟨List.forall_mem_singleton.mpr (houtside _), Bool.noConfusion⟩
  · obtain rfl := Except.ok.inj h
    exact ⟨hone _ _ _, Bool.noConfusion⟩
  · obtain rfl := Except.ok.inj h
    exact ⟨hone _ _ _, Bool.noConfusion⟩
  · split at h
    · obtain rfl := Except.ok.inj h
      exact ⟨hone _ _ _, Bool.noConfusion⟩
    · obtain rfl := Except.ok.inj h
      exact ⟨hnone _ _, fun _ => ⟨rfl, rfl⟩⟩
  · split at h
    · obtain rfl := Except.ok.inj h
      refine ⟨?_, Bool.noConfusion⟩
      dsimp only
      split
      · exact hone _ _ _
      · exact hnone _ _
    · obtain rfl := Except.ok.inj h
      exact ⟨hnone _ _, Bool.noConfusion⟩
  · exact hassigns _ h
  · exact hassigns _ h
  · exact hassigns _ h
  · obtain rfl := Except.ok.inj h
    exact ⟨hnone _ _, fun _ => ⟨rfl, rfl⟩⟩
  · obtain rfl := Except.ok.inj h
    exact ⟨hnone _ _, fun _ => ⟨rfl, rfl⟩⟩
  · obtain rfl := Except.ok.inj h
    exact ⟨hnone _ _, fun _ => ⟨rfl, rfl⟩⟩

/-- The scopes are known by their owners at given stations. -/
def Knows (v : Survey) (qs : List Station) : Prop :=
  ∀ q ∈ qs, (v.scoping.owners.lookup q.node.identity).getD q.scope = q.inner v.code

/-- A reference that is told under a station, in a scope around its children. -/
def FoundAt (v : Survey) (qs : List Station) (r : Reference) : Prop :=
  ∃ q ∈ qs, q.node.Tells v.code r ∧ v.Around (q.inner v.code) r

mutual

theorem found_collect : ∀ {n : Node} {o : Outlook} {s : Scoping} {f : Findings},
    v.Knows (n.stations v.code o.ancestors o.scope s) → v.collect o n = .ok f →
    ∀ r ∈ f.references, v.FoundAt (n.stations v.code o.ancestors o.scope s) r
  | .mk head cs, o, s, f, hknows, h => by
    let p : Station := ⟨o.ancestors, o.scope, s, .mk head cs⟩
    obtain ⟨hown, hbelow⟩ := List.forall_mem_cons.mp hknows
    rw [collect] at h
    obtain ⟨⟨found, below, deeper⟩, hvisit, h⟩ := bind_eq_ok.mp h
    obtain ⟨haround, hdeeper⟩ := around_visit hvisit
    have htells := tells_visit hvisit
    have hfound : ∀ r ∈ found.references, v.FoundAt (p :: p.below v.code) r := fun r hr =>
      ⟨p, List.mem_cons_self, htells r hr, hown ▸ haround r hr⟩
    dsimp only at h hdeeper
    split at h
    · next hgoes =>
      obtain ⟨rest, hrest, h⟩ := bind_eq_ok.mp h
      obtain rfl := Except.ok.inj h
      obtain ⟨hancestors, hscope⟩ := hdeeper hgoes
      have hinner : below.scope = p.inner v.code := hscope.trans hown
      refine List.forall_mem_append.mpr ⟨hfound, fun r hr => ?_⟩
      have hbelow : v.Knows (Node.stationsOf v.code below.ancestors below.scope (p.opened v.code) cs) := by
        rw [hancestors, hinner]
        exact hbelow
      obtain ⟨q, hq, htold⟩ := found_collectAll hbelow hrest r hr
      rw [hancestors, hinner] at hq
      exact ⟨q, List.mem_cons_of_mem p hq, htold⟩
    · obtain rfl := Except.ok.inj h
      exact hfound

theorem found_collectAll : ∀ {ns : List Node} {o : Outlook} {s : Scoping} {f : Findings},
    v.Knows (Node.stationsOf v.code o.ancestors o.scope s ns) → v.collectAll o ns = .ok f →
    ∀ r ∈ f.references, v.FoundAt (Node.stationsOf v.code o.ancestors o.scope s ns) r
  | [], o, s, f, _, h => by
    obtain rfl := Except.ok.inj h
    exact List.forall_mem_nil _
  | n :: ns, o, s, f, hknows, h => by
    obtain ⟨first, rest, hfirst, hrest, rfl⟩ := collectAll_cons h
    refine List.forall_mem_append.mpr ⟨fun r hr => ?_, fun r hr => ?_⟩
    · rcases hfirst with ⟨hnamed, hfirst⟩ | ⟨-, rfl⟩
      · have hstations : ∀ q ∈ n.stations v.code o.ancestors o.scope s,
            q ∈ Node.stationsOf v.code o.ancestors o.scope s (n :: ns) := fun q hq =>
          Node.mem_stationsOf_cons.mpr (.inl ⟨hnamed, hq⟩)
        obtain ⟨q, hq, htold⟩ := found_collect (fun q hq => hknows q (hstations q hq)) hfirst r hr
        exact ⟨q, hstations q hq, htold⟩
      · cases hr
    · obtain ⟨q, hq, htold⟩ := found_collectAll
        (fun q hq => hknows q (Node.mem_stationsOf_cons.mpr (.inr hq))) hrest r hr
      exact ⟨q, Node.mem_stationsOf_cons.mpr (.inr hq), htold⟩

end

end Survey

namespace Station

variable {code : List Char} {forest : ScopeForest} {ancestors : List Node} {n : Node} {b q : Station} {x y : Nat}

def start (forest : ScopeForest) (ancestors : List Node) (n : Node) : Station :=
  ⟨ancestors, forest.size, ⟨forest.add none .statement, []⟩, n⟩

theorem start_lt : (start forest ancestors n).scope < (start forest ancestors n).scoping.forest.size := by
  rw [start, ScopeForest.size_add]
  exact Nat.lt_succ_self _

theorem parents_start : ((start forest ancestors n).done code).forest.parents[forest.size]? = some none := by
  let p := start forest ancestors n
  have hnone : p.scoping.forest.parents[forest.size]? = some none := by
    rw [← ScopeForest.length_parents]
    exact (congrArg (·[forest.parents.length]?) (ScopeForest.parents_add forest none .statement)).trans
      List.getElem?_concat_length
  exact ((p.grown_opened code).trans (p.grown_done code)).parent hnone

theorem between_start (hb : b ∈ (start forest ancestors n).all code) :
    b.Between code forest.size (start forest ancestors n).scoping ((start forest ancestors n).done code) := by
  rw [all_eq] at hb
  exact Node.between_stations _ _ _ _ start_lt b hb

theorem between_below {scope : Nat} {s t : Scoping} (hb : b.Between code scope s t) (hq : q ∈ b.below code) :
    q.Between code (b.inner code) (b.opened code) (b.done code) := by
  rw [done_eq]
  exact Node.between_stationsOf _ _ _ _ (b.inner_lt code hb.lt) q hq

/-- A scope of the statement that is not built under a node of it. -/
def Outside (code : List Char) (forest : ScopeForest) (b : Station) (x : Nat) : Prop :=
  forest.size ≤ x ∧ b.Avoids code x

theorem outside_of_not_under (hb : b ∈ (start forest ancestors n).all code)
    (hq : q ∈ (start forest ancestors n).all code) (hnot : q ∉ b.all code) :
    b.Outside code forest q.scope ∧ b.Outside code forest (q.inner code) := by
  have hbetween := between_start hq
  have hroot : ∀ x, x = forest.size ∨ (start forest ancestors n).scoping.forest.size ≤ x → forest.size ≤ x := by
    intro x hx
    have hlt : forest.size < (start forest ancestors n).scoping.forest.size := start_lt
    omega
  rw [all_eq] at hb hq
  obtain ⟨hscope, hinner⟩ := (Node.apart_stations _ _ _ _ start_lt hb hq).resolve_left hnot
  exact ⟨⟨hroot _ hbetween.home, hscope⟩, hroot _ hbetween.inner_home, hinner⟩

theorem outside_parent (hb : b ∈ (start forest ancestors n).all code) (hx : b.Outside code forest x)
    (h : ((start forest ancestors n).done code).forest.parent? x = some y) : b.Outside code forest y := by
  let p := start forest ancestors n
  rw [ScopeForest.parent?_eq_some] at h
  have hsize : p.scoping.forest.size = forest.size + 1 := ScopeForest.size_add forest none .statement
  have hhigh : x < (p.done code).forest.size := by
    rw [← ScopeForest.length_parents]
    exact (List.getElem?_eq_some_iff.mp h).1
  rcases Nat.lt_or_ge x p.scoping.forest.size with hroot | hbuilt
  · -- the root has no parent
    rw [hsize] at hroot
    obtain rfl : x = forest.size := Nat.le_antisymm (Nat.le_of_lt_succ hroot) hx.1
    rw [parents_start] at h
    cases h
  · obtain ⟨q, hq, hqsize, hqinner, hparent⟩ := Node.built_declare p.ancestors p.scope p.scoping p.node x hbuilt hhigh
    obtain rfl : q.scope = y := Option.some.inj (Option.some.inj (hparent.symm.trans h))
    rw [← all_eq] at hq
    refine (outside_of_not_under hb hq fun hunder => ?_).1
    have hbetween := between_start hb
    rw [all_eq] at hunder
    have hunder := Node.between_stations _ _ _ _ hbetween.lt q hunder
    have hlow := hunder.before.size_le
    have hlt := Nat.lt_of_lt_of_le hunder.inner_lt hunder.after.size_le
    rcases hx.2 with hlow' | hhigh'
    · exact absurd hlow (Nat.not_le.mpr (hqsize ▸ hlow'))
    · exact absurd hlt (Nat.not_lt.mpr (hqinner ▸ hhigh'))

end Station

/-- What is declared with let or const, or as a class, anywhere in a function, a block, a loop or a catch clause is
declared by a scope that is not found, under the name, from any reference with text outside of it. -/
theorem Analysis.block_declarations_hidden {id : String} {code : List Char} {imports : Table ImportSpecifier}
    {forest forest' : ScopeForest} {ancestors : List Node} {n : Node} {a : Analysis} (hn : n.Nested code)
    (hids : n.identities.Nodup) (h : Analysis.of id code imports forest ancestors n = .ok (a, forest'))
    {block declaration : Station} (hb : block ∈ (Station.start forest ancestors n).all code)
    (hblock : block.node.isBlock block.ancestors = true) (hd : declaration ∈ block.below code) {name : String}
    (hname : name ∈ declaration.node.lexicalNames code declaration.ancestors) :
    forest'.declares declaration.scope name = true ∧
      ∀ r ∈ a.findings.references, ¬(block.node.start ≤ r.start ∧ r.stop ≤ block.node.stop) →
        forest'.find? r.scope name ≠ some declaration.scope := by
  let p := Station.start forest ancestors n
  obtain ⟨findings, hcollect, h⟩ := bind_eq_ok.mp h
  obtain ⟨rfl, rfl⟩ := Prod.mk.inj (Except.ok.inj h)
  have hin := Station.between_start hb
  have hbelow := Station.between_below hin hd
  refine ⟨?_, fun r hr hout hfound => ?_⟩
  · have hgrown := (declaration.grown_done code).trans (hbelow.after.trans hin.after)
    exact hgrown.declares _ _ (Node.declares_introduce hbelow.lt hname)
  · have hknows : Survey.Knows ⟨id, code, imports, p.done code⟩ (p.all code) := by
      intro q hq
      rw [Station.all_eq] at hq
      exact Node.owner_stations ancestors forest.size _ n hids (fun _ _ => rfl) (fun _ _ => rfl) q hq
    rw [Station.all_eq] at hknows
    obtain ⟨q, hq, htells, haround⟩ := Survey.found_collect (s := p.scoping) hknows hcollect r hr
    have hq : q ∈ p.all code := by
      rw [Station.all_eq]
      exact hq
    have hnot : q ∉ block.all code := by
      intro hunder
      rw [Station.all_eq] at hb hunder
      have hnested := (hn.node (Node.mem_nodes_of_stations hb)).1
      have hwithin := (htells.of_node (Node.mem_nodes_of_stations hunder)).within hnested
      exact hout ⟨hwithin.first, hwithin.last.2⟩
    have hinner := (Station.outside_of_not_under hb hq hnot).2
    have hscope : block.Outside code forest r.scope := by
      rcases haround with heq | hparent
      · rw [heq]
        exact hinner
      · exact Station.outside_parent hb hinner hparent
    have hfar : block.Outside code forest declaration.scope :=
      ScopeForest.findWithin_closed (fun _ _ => Station.outside_parent hb) hfound hscope
    have hfirst : block.inner code = block.scoping.forest.size := Node.introduce_isBlock hblock
    have hle := (block.grown_opened code).size_le
    have hhome := hbelow.home
    have hlt := Nat.lt_of_lt_of_le hbelow.lt_done hbelow.after.size_le
    rcases hfar.2 with hlow | hhigh <;> omega

namespace Analysis

def letNode (start : Nat) : Node :=
  .mk { kind := "lexical_declaration", start, stop := start + 10 } [
    .mk { kind := "let", start, stop := start + 3, named := false } [],
    .mk { kind := "variable_declarator", start := start + 4, stop := start + 9 } [
      .mk { kind := "identifier", start := start + 4, stop := start + 5, field := "name" } [],
      .mk { kind := "number", start := start + 8, stop := start + 9, field := "value" } []]]

def conditionNode (start : Nat) : Node :=
  .mk { kind := "parenthesized_expression", start, stop := start + 3 } [
    .mk { kind := "identifier", start := start + 1, stop := start + 2 } []]

def branchText : String := "if (x) { let x = 2; }"

def branchNode : Node := (SyntaxTree.of branchText
  (.mk { kind := "if_statement", start := 0, stop := 21 } [
    conditionNode 3,
    .mk { kind := "statement_block", start := 7, stop := 21 } [letNode 9]])).root

theorem block_declarations_hidden_branch : ∃ a forest,
    Analysis.of "0" branchText.toList [] {} [] branchNode = .ok (a, forest) ∧
    a.findings.references.map (fun r => (r.name, r.start, r.scope)) = [("x", 4, 0), ("x", 13, 1)] ∧
    forest.declares 1 "x" = true ∧
      ∀ r ∈ a.findings.references, r.start < 7 → forest.find? r.scope "x" ≠ some 1 := by
  have hanalysis : (Analysis.of "0" branchText.toList [] {} [] branchNode).toOption.map (fun p =>
      p.1.findings.references.map fun r => (r.name, r.start, r.scope)) = some [("x", 4, 0), ("x", 13, 1)] := by
    decide +kernel
  have hstations : ((Station.start {} [] branchNode).all branchText.toList).any (fun b =>
      b.node.isBlock b.ancestors && b.node.start == 7 && (b.below branchText.toList).any fun d =>
        (d.node.lexicalNames branchText.toList d.ancestors).contains "x" && d.scope == 1) = true := by
    decide +kernel
  obtain ⟨⟨a, forest⟩, hof, hreferences⟩ := Option.map_eq_some_iff.mp hanalysis
  have hof := ok_of_toOption hof
  simp only [List.any_eq_true, Bool.and_eq_true, beq_iff_eq, List.contains_iff_mem] at hstations
  obtain ⟨b, hb, ⟨hblock, hstart⟩, d, hd, hname, hscope⟩ := hstations
  obtain ⟨hdeclares, hhidden⟩ :=
    block_declarations_hidden (by decide +kernel) (Node.nodup_identities_of _ _) hof hb hblock hd hname
  rw [hscope] at hdeclares hhidden
  exact ⟨a, forest, hof, hreferences, hdeclares, fun r hr hbefore => hhidden r hr fun hwithin => by omega⟩

def switchText : String := "switch (x) { case 1: let x = 2; }"

def switchNode : Node := (SyntaxTree.of switchText
  (.mk { kind := "switch_statement", start := 0, stop := 33 } [
    .mk { (conditionNode 7).head with field := "value" } (conditionNode 7).children,
    .mk { kind := "switch_body", start := 11, stop := 33 } [
      .mk { kind := "switch_case", start := 13, stop := 31 } [
        .mk { kind := "number", start := 18, stop := 19, field := "value" } [],
        letNode 21]]])).root

/-- What the body of a switch declares is found from in front of it, as the body has no scope of its own. -/
theorem switch_declaration_found : switchNode.Nested switchText.toList ∧ switchNode.identities.Nodup ∧
    ∃ a forest, Analysis.of "0" switchText.toList [] {} [] switchNode = .ok (a, forest) ∧
      ∃ body ∈ (Station.start {} [] switchNode).all switchText.toList, body.node.kind = "switch_body" ∧
        ∃ d ∈ body.below switchText.toList, "x" ∈ d.node.lexicalNames switchText.toList d.ancestors ∧
          ∃ r ∈ a.findings.references, r.name = "x" ∧ r.stop ≤ body.node.start ∧
            forest.find? r.scope r.name = some d.scope := by
  have hanalysis : (Analysis.of "0" switchText.toList [] {} [] switchNode).toOption.map (fun p =>
      (p.1.findings.references, p.2)) = some ([{ name := "x", start := 8, stop := 9, scope := 0 },
        { name := "x", start := 25, stop := 26, scope := 0 }], ⟨[{ parent := none, kind := .statement, names := ["x"] }]⟩) := by
    decide +kernel
  have hstations : ((Station.start {} [] switchNode).all switchText.toList).any (fun b =>
      b.node.kind == "switch_body" && b.node.start == 11 && (b.below switchText.toList).any fun d =>
        (d.node.lexicalNames switchText.toList d.ancestors).contains "x" && d.scope == 0) = true := by
    decide +kernel
  obtain ⟨⟨a, forest⟩, hof, hvalue⟩ := Option.map_eq_some_iff.mp hanalysis
  obtain ⟨hreferences, rfl⟩ := Prod.mk.inj hvalue
  simp only [List.any_eq_true, Bool.and_eq_true, beq_iff_eq, List.contains_iff_mem] at hstations
  obtain ⟨b, hb, ⟨hkind, hstart⟩, d, hd, hname, hscope⟩ := hstations
  refine ⟨by decide +kernel, Node.nodup_identities_of _ _, a, _, ok_of_toOption hof, b, hb, hkind, d, hd, hname, ?_⟩
  rw [hreferences, hscope, hstart]
  exact ⟨_, List.mem_cons_self, rfl, by decide, by decide⟩

end Analysis

end Treeshake
