import Treeshake.Proofs.Scope.Blocks
import Treeshake.Proofs.Scope.Literals
import Treeshake.Proofs.Scope.Lookup
/-!
Where the names that a statement declares are written. Main statement: every name that a statement declares at its root
is that of a node by which a declaration in the statement binds it, and the walk has a reference there, which finds the
name in every forest that the scopes of the statement are in.
-/
set_option autoImplicit false

namespace Treeshake

namespace ScopeForest

variable {f : ScopeForest} {x scope other : Nat} {name new : String} {blockScoped : Bool}

theorem hoist_declare (f : ScopeForest) (other : Nat) (new : String) (blockScoped : Bool) (fuel scope : Nat) :
    (f.declare other new blockScoped).hoist fuel scope = f.hoist fuel scope := by
  induction fuel generalizing scope with
  | zero => rfl
  | succ fuel ih =>
    rw [hoist, kind?_declare, parent?_declare, hoist]
    simp only [ih]

theorem landed_declare (h : (f.declare other new blockScoped).declares x name = true) :
    f.declares x name = true ∨ name = new ∧ x = if blockScoped then other else f.hoist f.size other := by
  rw [declares_iff, names, scope_declare] at h
  rw [declares_iff, names]
  generalize (if blockScoped then other else f.hoist f.size other) = target at h ⊢
  cases hs : f.scopes[x]? with
  | none =>
    rw [hs] at h
    cases h
  | some s =>
    rw [hs, Option.map_some, Option.map_some, Option.getD_some] at h
    rw [Option.map_some, Option.getD_some]
    split at h
    · next htarget =>
      rcases mem_addNew.mp h with rfl | hold
      · exact .inr ⟨rfl, htarget.symm⟩
      · exact .inl hold
    · exact .inl h

theorem hoist_closed {P : Nat → Prop} (hP : ∀ x y, P x → f.parent? x = some y → P y) (hscope : P scope) (fuel : Nat) :
    P (f.hoist fuel scope) := by
  induction fuel generalizing scope with
  | zero => exact hscope
  | succ fuel ih =>
    rw [hoist]
    split
    · split
      · next y hy => exact ih (hP scope y hscope hy)
      · exact hscope
    · exact hscope

theorem find?_isSome_of_leads {P : Nat → Prop}
    (hP : ∀ x, P x → f.declares x name = true ∨ ∃ y < x, P y ∧ f.parent? x = some y) (hscope : P scope)
    (hlt : scope < f.size) : (f.find? scope name).isSome = true := by
  have hwithin : ∀ fuel x, P x → x < fuel → (f.findWithin name fuel x).isSome = true := by
    intro fuel
    induction fuel with
    | zero => exact fun x _ hx => absurd hx (Nat.not_lt_zero x)
    | succ fuel ih =>
      intro x hx hfuel
      rw [findWithin]
      split
      · rfl
      · next hnot =>
        obtain ⟨y, hyx, hy, hparent⟩ := (hP x hx).resolve_left hnot
        rw [hparent, Option.bind_some]
        exact ih y hy (Nat.lt_of_lt_of_le hyx (Nat.le_of_lt_succ hfuel))
  exact hwithin _ scope hscope (Nat.lt_succ_of_lt hlt)

end ScopeForest

namespace Scoping

variable {s : Scoping} {scope outer x : Nat} {names : List String} {name : String} {blockScoped : Bool}

theorem landed_declareAll (h : (s.declareAll scope names blockScoped).forest.declares x name = true) :
    s.forest.declares x name = true ∨
      name ∈ names ∧ x = if blockScoped then scope else s.forest.hoist s.forest.size scope := by
  induction names generalizing s with
  | nil => exact .inl h
  | cons new names ih =>
    have hrest := ih (s := { s with forest := s.forest.declare scope new blockScoped }) h
    dsimp only at hrest
    rw [ScopeForest.size_declare, ScopeForest.hoist_declare] at hrest
    rcases hrest with hold | ⟨hname, hx⟩
    · rcases ScopeForest.landed_declare hold with hold | ⟨rfl, hx⟩
      · exact .inl hold
      · exact .inr ⟨List.mem_cons_self, hx⟩
    · exact .inr ⟨List.mem_cons_of_mem _ hname, hx⟩

theorem landed_enter {n : Node} {kind : ScopeKind} (hkind : blockScoped = true ∨ kind ≠ .block)
    (h : (s.enter n outer kind names blockScoped).forest.declares x name = true) :
    s.forest.declares x name = true ∨ x = s.forest.size := by
  rcases landed_declareAll h with hold | ⟨-, hx⟩
  · exact .inl ((ScopeForest.declares_add _ _ _ _ _).symm.trans hold)
  · refine .inr ?_
    rcases hkind with rfl | hkind
    · exact hx
    · have hnot : (s.forest.add (some outer) kind).kind? s.forest.size ≠ some .block := by
        rw [ScopeForest.kind?, ScopeForest.scopes_add, if_pos rfl]
        exact fun heq => hkind (Option.some.inj heq)
      rw [ScopeForest.hoist_of_not_block hnot, ite_self] at hx
      exact hx

end Scoping

namespace Node

variable {code : List Char} {ancestors : List Node} {scope x : Nat} {s : Scoping} {n : Node} {name : String}

def calledKinds : List String :=
  ["function_declaration", "generator_function_declaration", "function_expression", "function", "generator_function",
    "class_declaration", "class"]

/-- The nodes of the names that a function, a class or a declarator binds around itself. -/
def binders (n : Node) : List Node :=
  if n.kind == "variable_declarator" then ((n.childAt? "name").map bound).getD []
  else if calledKinds.contains n.kind then (n.childAt? "name").toList
  else []

theorem mem_binders_of_ownName {kind : String} (hkind : n.kind = kind) (hcalled : calledKinds.contains kind = true)
    (h : name ∈ n.ownName code) : ∃ b ∈ n.binders, b.text code = name := by
  obtain ⟨b, hb, rfl⟩ := List.mem_map.mp h
  refine ⟨b, ?_, rfl⟩
  have hdeclarator : ¬(kind == "variable_declarator") = true := by
    rintro heq
    rw [eq_of_beq heq] at hcalled
    exact absurd hcalled (by decide)
  rw [binders, hkind, if_neg hdeclarator, if_pos hcalled]
  exact hb

theorem mem_binders_of_boundNames (hkind : n.kind = "variable_declarator")
    (h : name ∈ boundNames code (n.childAt? "name")) : ∃ b ∈ n.binders, b.text code = name := by
  obtain ⟨b, hb, rfl⟩ := List.mem_map.mp h
  refine ⟨b, ?_, rfl⟩
  rw [binders, if_pos (beq_iff_eq.mpr hkind)]
  exact hb

/-- The names that a node declares come to the scope that it opens, or to the scope around it or that of the function
around it; and those are names that it binds around itself. -/
def Lands (code : List Char) (n : Node) (scope : Nat) (s : Scoping) (x : Nat) (name : String) : Prop :=
  x = s.forest.size ∨
    (∃ b ∈ n.binders, b.text code = name) ∧ (x = scope ∨ x = s.forest.hoist s.forest.size scope)

theorem landed_names {names : List String} {blockScoped : Bool}
    (hnames : name ∈ names → ∃ b ∈ n.binders, b.text code = name)
    (h : (s.declareAll scope names blockScoped).forest.declares x name = true) :
    s.forest.declares x name = true ∨ n.Lands code scope s x name := by
  rcases Scoping.landed_declareAll h with hold | ⟨hname, hx⟩
  · exact .inl hold
  · refine .inr (.inr ⟨hnames hname, ?_⟩)
    cases blockScoped with
    | true => exact .inl hx
    | false => exact .inr hx

theorem landed_opened {names : List String} {kind : ScopeKind} {blockScoped : Bool}
    (hkind : blockScoped = true ∨ kind ≠ .block)
    (h : (s.enter n scope kind names blockScoped).forest.declares x name = true) :
    s.forest.declares x name = true ∨ n.Lands code scope s x name :=
  (Scoping.landed_enter hkind h).imp_right .inl

theorem landed_introduce (h : (introduce code ancestors scope s n).1.forest.declares x name = true) :
    s.forest.declares x name = true ∨ n.Lands code scope s x name := by
  have hdeclaration : ∀ {kind}, n.kind = kind → calledKinds.contains kind = true →
      ((s.declareAll scope (n.ownName code) false).enter n scope .function (n.parameterNames code) false).forest.declares
        x name = true → s.forest.declares x name = true ∨ n.Lands code scope s x name := by
    intro kind hkind hcalled h
    rcases Scoping.landed_enter (.inr ScopeKind.noConfusion) h with hold | hx
    · exact landed_names (mem_binders_of_ownName hkind hcalled) hold
    · exact .inr (.inl (hx.trans Scoping.size_declareAll))
  -- the name of a function expression is one more in the function's own scope
  have hexpression : ((s.enter n scope .function (n.parameterNames code) false).declareAll s.forest.size
      (n.ownName code) false).forest.declares x name = true →
      s.forest.declares x name = true ∨ n.Lands code scope s x name := by
    intro h
    have hnames : (s.enter n scope .function (n.parameterNames code) false).declareAll s.forest.size (n.ownName code) false =
        s.enter n scope .function (n.parameterNames code ++ n.ownName code) false := by
      rw [Scoping.enter, Scoping.enter, Scoping.declareAll, Scoping.declareAll, Scoping.declareAll, List.foldl_append]
    exact landed_opened (.inr ScopeKind.noConfusion) (hnames ▸ h)
  unfold introduce at h
  extract_lets inner at h
  split at h
  · next hkind => exact hdeclaration hkind (by decide) h
  · next hkind => exact hdeclaration hkind (by decide) h
  · next hkind =>
    split at h
    · exact hdeclaration hkind (by decide) h
    · exact hexpression h
  · next hkind =>
    split at h
    · exact hdeclaration hkind (by decide) h
    · exact hexpression h
  · next hkind =>
    split at h
    · exact hdeclaration hkind (by decide) h
    · exact hexpression h
  · exact landed_opened (.inr ScopeKind.noConfusion) h
  · exact landed_opened (.inr ScopeKind.noConfusion) h
  · next hkind =>
    exact landed_names (mem_binders_of_ownName hkind (by decide)) h
  · next hkind =>
    split at h
    · exact .inl h
    · split at h
      · exact landed_names (mem_binders_of_ownName hkind (by decide)) h
      · exact landed_opened (.inl rfl) h
  · split at h
    · exact .inl h
    · exact landed_opened (.inl rfl) h
  · exact landed_opened (.inl rfl) h
  · exact landed_opened (.inl rfl) h
  · exact landed_opened (.inl rfl) h
  · next hkind => exact landed_names (mem_binders_of_boundNames hkind) h
  · exact .inl h

mutual

theorem landed_stations : ∀ (ancestors : List Node) (scope : Nat) (s : Scoping) (n : Node),
    (declare code ancestors scope s n).forest.declares x name = true →
    s.forest.declares x name = true ∨
      ∃ q ∈ stations code ancestors scope s n, q.node.Lands code q.scope q.scoping x name
  | ancestors, scope, s, .mk h cs, hx => by
    rw [declare] at hx
    rcases landed_stationsOf _ _ _ cs hx with hold | ⟨q, hq, hlands⟩
    · exact (landed_introduce hold).imp_right fun hlands =>
        ⟨⟨ancestors, scope, s, .mk h cs⟩, List.mem_cons_self, hlands⟩
    · exact .inr ⟨q, List.mem_cons_of_mem _ hq, hlands⟩

theorem landed_stationsOf : ∀ (ancestors : List Node) (scope : Nat) (s : Scoping) (ns : List Node),
    (declareAll code ancestors scope s ns).forest.declares x name = true →
    s.forest.declares x name = true ∨
      ∃ q ∈ stationsOf code ancestors scope s ns, q.node.Lands code q.scope q.scoping x name
  | _, _, _, [], hx => .inl hx
  | ancestors, scope, s, n :: ns, hx => by
    rw [declareAll] at hx
    rcases landed_stationsOf ancestors scope _ ns hx with hold | ⟨q, hq, hlands⟩
    · split at hold
      · next hnamed =>
        refine (landed_stations ancestors scope s n hold).imp_right ?_
        rintro ⟨q, hq, hlands⟩
        exact ⟨q, mem_stationsOf_cons.mpr (.inl ⟨hnamed, hq⟩), hlands⟩
      · exact .inl hold
    · exact .inr ⟨q, mem_stationsOf_cons.mpr (.inr hq), hlands⟩

end

mutual

theorem owners_built : ∀ (ancestors : List Node) (scope : Nat) (s : Scoping) (n : Node),
    ∀ e ∈ (declare code ancestors scope s n).owners,
      e ∈ s.owners ∨ s.forest.size ≤ e.2 ∧ e.2 < (declare code ancestors scope s n).forest.size
  | ancestors, scope, s, .mk h cs, e, he => by
    let p : Station := ⟨ancestors, scope, s, .mk h cs⟩
    have hgrown : (p.opened code).Grown (p.done code) := p.grown_done code
    rcases owners_builtAll (.mk h cs :: ancestors) (p.inner code) (p.opened code) cs e he with hold | ⟨hlow, hhigh⟩
    · have hopened : p.node.Introduced scope s (p.opened code, p.inner code) := p.introduced
      generalize hr : (p.opened code, p.inner code) = r at hopened
      cases hopened with
      | within hparents howners _ =>
        obtain ⟨rfl, -⟩ := Prod.mk.inj hr
        exact .inl (howners ▸ hold)
      | opens hparents howners _ =>
        obtain ⟨rfl, -⟩ := Prod.mk.inj hr
        rw [howners] at hold
        rcases List.mem_cons.mp hold with rfl | hold
        · have hsize : (p.opened code).forest.size = s.forest.size + 1 := by
            rw [← ScopeForest.length_parents, hparents, List.length_append, ScopeForest.length_parents]
            rfl
          exact .inr ⟨Nat.le_refl _, Nat.lt_of_lt_of_le (hsize ▸ Nat.lt_succ_self _) hgrown.size_le⟩
        · exact .inl hold
    · exact .inr ⟨Nat.le_trans (p.grown_opened code).size_le hlow, hhigh⟩

theorem owners_builtAll : ∀ (ancestors : List Node) (scope : Nat) (s : Scoping) (ns : List Node),
    ∀ e ∈ (declareAll code ancestors scope s ns).owners,
      e ∈ s.owners ∨ s.forest.size ≤ e.2 ∧ e.2 < (declareAll code ancestors scope s ns).forest.size
  | _, _, _, [], _, he => .inl he
  | ancestors, scope, s, n :: ns, e, he => by
    have hgrown := grown_named code ancestors scope s n
    rw [declareAll] at he ⊢
    rcases owners_builtAll ancestors scope _ ns e he with hold | ⟨hlow, hhigh⟩
    · split at hold
      · next hnamed =>
        rw [if_pos hnamed]
        refine (owners_built ancestors scope s n e hold).imp_right fun hbuilt => ⟨hbuilt.1, ?_⟩
        exact Nat.lt_of_lt_of_le hbuilt.2 (grown_declareAll _ _ _ ns).size_le
      · exact .inl hold
    · exact .inr ⟨Nat.le_trans hgrown.size_le hlow, hhigh⟩

end

end Node

namespace Station

variable {code : List Char} {forest f : ScopeForest} {ancestors : List Node} {n : Node} {x : Nat} {name : String}

theorem leads_start (hlow : forest.size ≤ x) (hhigh : x < ((start forest ancestors n).done code).forest.size) :
    x = forest.size ∨ ∃ y < x, forest.size ≤ y ∧
      ((start forest ancestors n).done code).forest.parents[x]? = some (some y) := by
  let p := start forest ancestors n
  have hsize : p.scoping.forest.size = forest.size + 1 := ScopeForest.size_add forest none .statement
  rcases Nat.eq_or_lt_of_le hlow with heq | hlt
  · exact .inl heq.symm
  · have hbuilt : p.scoping.forest.size ≤ x := hsize ▸ hlt
    obtain ⟨q, hq, hqsize, -, hparent⟩ := Node.built_declare p.ancestors p.scope p.scoping p.node x hbuilt hhigh
    have hbetween := Node.between_stations _ _ _ _ start_lt q hq
    have hhome : q.scope = forest.size ∨ p.scoping.forest.size ≤ q.scope := hbetween.home
    exact .inr ⟨q.scope, hqsize ▸ hbetween.lt, by omega, hparent⟩

theorem binder_of_declares_root
    (h : ((start forest ancestors n).done code).forest.declares forest.size name = true) :
    ∃ d ∈ n.nodes, ∃ b ∈ d.binders, b.text code = name := by
  let p := start forest ancestors n
  have hsize : p.scoping.forest.size = forest.size + 1 := ScopeForest.size_add forest none .statement
  rcases Node.landed_stations p.ancestors p.scope p.scoping p.node h with hold | ⟨q, hq, hlands⟩
  · have hnone : forest.declares forest.size name = false := by
      rw [ScopeForest.declares, ScopeForest.names, ScopeForest.size, List.getElem?_eq_none (Nat.le_refl _)]
      rfl
    rw [show p.scoping.forest = forest.add none .statement from rfl, ScopeForest.declares_add, hnone] at hold
    cases hold
  · have hbetween := Node.between_stations _ _ _ _ start_lt q hq
    rcases hlands with hnew | ⟨⟨b, hb, hname⟩, -⟩
    · have hle : p.scoping.forest.size ≤ q.scoping.forest.size := hbetween.before.size_le
      omega
    · exact ⟨q.node, Node.mem_nodes_of_stations hq, b, hb, hname⟩

theorem declares_earlier (hx : x < forest.size)
    (h : ((start forest ancestors n).done code).forest.declares x name = true) : forest.declares x name = true := by
  let p := start forest ancestors n
  have hsize : p.scoping.forest.size = forest.size + 1 := ScopeForest.size_add forest none .statement
  rcases Node.landed_stations p.ancestors p.scope p.scoping p.node h with hold | ⟨q, hq, hlands⟩
  · exact (ScopeForest.declares_add _ _ _ _ _).symm.trans hold
  · exfalso
    have hbetween := Node.between_stations _ _ _ _ start_lt q hq
    have hle : p.scoping.forest.size ≤ q.scoping.forest.size := hbetween.before.size_le
    have hhome : q.scope = forest.size ∨ p.scoping.forest.size ≤ q.scope := hbetween.home
    have hgrown : q.scoping.Grown (p.done code) := ((q.grown_opened code).trans (q.grown_done code)).trans hbetween.after
    have hclosed : ∀ y z, forest.size ≤ y → q.scoping.forest.parent? y = some z → forest.size ≤ z := by
      intro y z hy hparent
      have hparents := hgrown.parent (ScopeForest.parent?_eq_some.mp hparent)
      have hhigh : y < (p.done code).forest.size := by
        rw [← ScopeForest.length_parents]
        exact (List.getElem?_eq_some_iff.mp hparents).1
      rcases leads_start hy hhigh with rfl | ⟨y', -, hlow, hparents'⟩
      · cases hparents.symm.trans parents_start
      · obtain rfl : z = y' := Option.some.inj (Option.some.inj (hparents.symm.trans hparents'))
        exact hlow
    rcases hlands with rfl | ⟨-, rfl | rfl⟩
    · omega
    · omega
    · have hscope : forest.size ≤ q.scope := by omega
      exact absurd (ScopeForest.hoist_closed hclosed hscope q.scoping.forest.size) (Nat.not_le.mpr hx)

theorem found_of_declares_root (hparents : ((start forest ancestors n).done code).forest.parents <+: f.parents)
    (hname : f.declares forest.size name = true) (hlow : forest.size ≤ x)
    (hhigh : x < ((start forest ancestors n).done code).forest.size) : (f.find? x name).isSome = true := by
  have hsize : ((start forest ancestors n).done code).forest.size ≤ f.size := by
    rw [← ScopeForest.length_parents, ← ScopeForest.length_parents]
    exact hparents.length_le
  refine ScopeForest.find?_isSome_of_leads
    (P := fun y => forest.size ≤ y ∧ y < ((start forest ancestors n).done code).forest.size) ?_ ⟨hlow, hhigh⟩
    (Nat.lt_of_lt_of_le hhigh hsize)
  rintro y ⟨hlow, hhigh⟩
  rcases leads_start hlow hhigh with rfl | ⟨z, hzy, hz, hparent⟩
  · exact .inl hname
  · refine .inr ⟨z, hzy, ⟨hz, Nat.lt_trans hzy hhigh⟩, ScopeForest.parent?_eq_some.mpr ?_⟩
    obtain ⟨rest, hrest⟩ := hparents
    rw [← hrest, List.getElem?_append_left (List.getElem?_eq_some_iff.mp hparent).1, hparent]

end Station

namespace Node

mutual

/-- The nodes that the walk for references comes to: it goes below no node that is taken as a whole. -/
def surveyed (code : List Char) : Node → List Node
  | .mk h cs =>
    .mk h cs :: if isAtom code (.mk h cs) || h.kind == "export_specifier" then [] else surveyedOf code cs

def surveyedOf (code : List Char) : List Node → List Node
  | [] => []
  | n :: ns => (if n.named then surveyed code n else []) ++ surveyedOf code ns

end

/-- Where declarations under a node bind names, the walk for references comes to a name. -/
def Declaring (code : List Char) (n : Node) : Prop :=
  ∀ d ∈ n.nodes, ∀ b ∈ d.binders, ∃ m ∈ n.surveyed code, m.isName = true ∧ m.start = b.start ∧ m.stop = b.stop

instance (code : List Char) (n : Node) : Decidable (n.Declaring code) :=
  inferInstanceAs (Decidable (∀ d ∈ n.nodes, ∀ b ∈ d.binders, ∃ m ∈ n.surveyed code,
    m.isName = true ∧ m.start = b.start ∧ m.stop = b.stop))

theorem kind_of_isName {n : Node} (h : n.isName = true) : n.kind = "identifier" ∨
    n.kind = "shorthand_property_identifier" ∨ n.kind = "shorthand_property_identifier_pattern" := by
  simpa [isName] using h

end Node

namespace Survey

variable {v : Survey} {P : Nat → Prop}

theorem spells_visit {n : Node} {o : Outlook} {p : Findings × Outlook × Bool} (hname : n.isName = true)
    (h : v.visit o n = .ok p) : ∃ r ∈ p.1.references, r.Spells v.code n [] := by
  have hone : ∀ (o : Outlook) (shorthand : Bool),
      ∃ r ∈ (v.reference o n [] shorthand).references, r.Spells v.code n [] := fun o shorthand =>
    ⟨_, List.mem_singleton.mpr rfl, rfl, rfl, rfl, rfl, rfl⟩
  rcases Node.kind_of_isName hname with hkind | hkind | hkind
  all_goals
    unfold visit at h
    rw [hkind] at h
    obtain rfl := Except.ok.inj h
    exact hone _ _

mutual

theorem spells_collect : ∀ {n : Node} {o : Outlook} {f : Findings}, v.collect o n = .ok f →
    ∀ m ∈ n.surveyed v.code, m.isName = true → ∃ r ∈ f.references, r.Spells v.code m []
  | .mk head cs, o, f, h, m, hm, hname => by
    rw [collect] at h
    obtain ⟨⟨found, below, deeper⟩, hvisit, h⟩ := bind_eq_ok.mp h
    have hfound : found.references ⊆ f.references := by
      dsimp only at h
      split at h
      · obtain ⟨rest, -, h⟩ := bind_eq_ok.mp h
        obtain rfl := Except.ok.inj h
        exact List.subset_append_left _ _
      · obtain rfl := Except.ok.inj h
        exact List.Subset.refl _
    rw [Node.surveyed] at hm
    rcases List.mem_cons.mp hm with rfl | hm
    · obtain ⟨r, hr, hspells⟩ := spells_visit hname hvisit
      exact ⟨r, hfound hr, hspells⟩
    · split at hm
      · cases hm
      · next hopen =>
        rw [Bool.or_eq_true, beq_iff_eq, not_or] at hopen
        have hdeeper : deeper = true := by
          by_contra hstays
          rcases (notes_visit hvisit).2 (Bool.eq_false_iff.mpr hstays) with hatom | hkind
          · exact hopen.1 hatom
          · exact hopen.2 hkind
        dsimp only at h
        rw [if_pos hdeeper] at h
        obtain ⟨rest, hrest, h⟩ := bind_eq_ok.mp h
        obtain rfl := Except.ok.inj h
        obtain ⟨r, hr, hspells⟩ := spells_collectAll hrest m hm hname
        exact ⟨r, List.mem_append_right _ hr, hspells⟩

theorem spells_collectAll : ∀ {ns : List Node} {o : Outlook} {f : Findings}, v.collectAll o ns = .ok f →
    ∀ m ∈ Node.surveyedOf v.code ns, m.isName = true → ∃ r ∈ f.references, r.Spells v.code m []
  | [], _, _, _, _, hm, _ => by cases hm
  | n :: ns, o, f, h, m, hm, hname => by
    obtain ⟨first, rest, hfirst, hrest, rfl⟩ := collectAll_cons h
    rw [Node.surveyedOf] at hm
    rcases List.mem_append.mp hm with hm | hm
    · rcases hfirst with ⟨hnamed, hfirst⟩ | ⟨hunnamed, -⟩
      · rw [if_pos hnamed] at hm
        obtain ⟨r, hr, hspells⟩ := spells_collect hfirst m hm hname
        exact ⟨r, List.mem_append_left _ hr, hspells⟩
      · rw [if_neg (Bool.eq_false_iff.mp hunnamed)] at hm
        cases hm
    · obtain ⟨r, hr, hspells⟩ := spells_collectAll hrest m hm hname
      exact ⟨r, List.mem_append_right _ hr, hspells⟩

end

structure Closed (v : Survey) (P : Nat → Prop) : Prop where
  owners : ∀ i x, v.scoping.owners.lookup i = some x → P x
  parents : ∀ x y, P x → v.scoping.forest.parent? x = some y → P y

theorem Closed.visit (hP : v.Closed P) {n : Node} {o : Outlook} {p : Findings × Outlook × Bool} (ho : P o.scope)
    (h : v.visit o n = .ok p) : (∀ r ∈ p.1.references, P r.scope) ∧ (p.2.2 = true → P p.2.1.scope) := by
  obtain ⟨haround, hbelow⟩ := around_visit h
  have hinner : P ((v.scoping.owners.lookup n.identity).getD o.scope) := by
    cases hlookup : v.scoping.owners.lookup n.identity with
    | none => exact ho
    | some x => exact hP.owners _ x hlookup
  refine ⟨fun r hr => ?_, fun hdeeper => ?_⟩
  · rcases haround r hr with heq | hparent
    · exact heq ▸ hinner
    · exact hP.parents _ _ hinner hparent
  · rw [(hbelow hdeeper).2]
    exact hinner

mutual

theorem Closed.collect (hP : v.Closed P) : ∀ {n : Node} {o : Outlook} {f : Findings}, P o.scope →
    v.collect o n = .ok f → ∀ r ∈ f.references, P r.scope
  | .mk head cs, o, f, ho, h => by
    rw [Survey.collect] at h
    obtain ⟨⟨found, below, deeper⟩, hvisit, h⟩ := bind_eq_ok.mp h
    obtain ⟨hfound, hbelow⟩ := hP.visit ho hvisit
    dsimp only at h hbelow
    split at h
    · next hdeeper =>
      obtain ⟨rest, hrest, h⟩ := bind_eq_ok.mp h
      obtain rfl := Except.ok.inj h
      exact List.forall_mem_append.mpr ⟨hfound, hP.collectAll (hbelow hdeeper) hrest⟩
    · obtain rfl := Except.ok.inj h
      exact hfound

theorem Closed.collectAll (hP : v.Closed P) : ∀ {ns : List Node} {o : Outlook} {f : Findings}, P o.scope →
    v.collectAll o ns = .ok f → ∀ r ∈ f.references, P r.scope
  | [], _, _, _, h => by
    obtain rfl := Except.ok.inj h
    exact List.forall_mem_nil _
  | n :: ns, o, f, ho, h => by
    obtain ⟨first, rest, hfirst, hrest, rfl⟩ := collectAll_cons h
    refine List.forall_mem_append.mpr ⟨?_, hP.collectAll ho hrest⟩
    rcases hfirst with ⟨-, hfirst⟩ | ⟨-, rfl⟩
    · exact hP.collect ho hfirst
    · exact List.forall_mem_nil _

end

end Survey

def Reference.Binds (code : List Char) (n : Node) (r : Reference) : Prop :=
  ∃ d ∈ n.nodes, ∃ b ∈ d.binders, r.start = b.start ∧ r.stop = b.stop ∧ r.name = b.text code

/-- What a statement declares at its root a declaration in it binds where the walk finds a reference. The reference has
the name and no accesses, and whatever scopes come behind those of the statement, it finds the name that the root
declares. What scopes in front of the statement declare stays as it was. -/
theorem Analysis.declared_names_bound {id : String} {code : List Char} {imports : Table ImportSpecifier}
    {forest forest' : ScopeForest} {ancestors : List Node} {n : Node} {a : Analysis} (hn : n.Declaring code)
    (h : Analysis.of id code imports forest ancestors n = .ok (a, forest')) :
    a.scope = forest.size ∧ forest.size < forest'.size ∧ forest.parents <+: forest'.parents ∧
    (∀ x < forest.size, ∀ name, forest'.declares x name = forest.declares x name) ∧
    ∀ name, forest'.declares a.scope name = true → ∃ r ∈ a.findings.references, r.Binds code n ∧ r.name = name ∧
      r.accesses = [] ∧ ∀ f : ScopeForest, forest'.parents <+: f.parents → f.declares a.scope name = true →
        (f.find? r.scope name).isSome = true := by
  let p := Station.start forest ancestors n
  obtain ⟨findings, hcollect, h⟩ := bind_eq_ok.mp h
  obtain ⟨rfl, rfl⟩ := Prod.mk.inj (Except.ok.inj h)
  have hadd : (forest.add none .statement).parents = forest.parents ++ [none] := forest.parents_add none .statement
  have hgrown : p.scoping.Grown (p.done code) := (p.grown_opened code).trans (p.grown_done code)
  have hsize : forest.size < (p.done code).forest.size := Nat.lt_of_lt_of_le Station.start_lt hgrown.size_le
  have hparents : forest.parents <+: (forest.add none .statement).parents := hadd ▸ List.prefix_append _ _
  refine ⟨rfl, hsize, hparents.trans hgrown.parents, fun x hx name => ?_, fun name hname => ?_⟩
  · rw [Bool.eq_iff_iff]
    refine ⟨Station.declares_earlier hx, fun hold => hgrown.declares x name ?_⟩
    exact (ScopeForest.declares_add _ _ _ _ _).trans hold
  · obtain ⟨d, hd, b, hb, rfl⟩ := Station.binder_of_declares_root hname
    obtain ⟨m, hm, hmname, hstart, hstop⟩ := hn d hd b hb
    obtain ⟨r, hr, hspells⟩ := Survey.spells_collect hcollect m hm hmname
    have hclosed : Survey.Closed ⟨id, code, imports, p.done code⟩
        fun x => forest.size ≤ x ∧ x < (p.done code).forest.size := by
      refine ⟨fun i x hlookup => ?_, fun x y hx hparent => ?_⟩
      · have hsize : p.scoping.forest.size = forest.size + 1 := ScopeForest.size_add forest none .statement
        obtain ⟨l₁, l₂, hsplit, -⟩ := List.lookup_eq_some_iff.mp hlookup
        have howner : (i, x) ∈ (p.done code).owners := hsplit ▸ List.mem_append_right l₁ List.mem_cons_self
        rcases Node.owners_built p.ancestors p.scope p.scoping p.node (i, x) howner with hold | ⟨hlow, hhigh⟩
        · cases hold
        · exact ⟨Nat.le_trans (hsize ▸ Nat.le_succ _) hlow, hhigh⟩
      · rcases Station.leads_start hx.1 hx.2 with rfl | ⟨z, hzx, hz, hparents⟩
        · cases (ScopeForest.parent?_eq_some.mp hparent).symm.trans Station.parents_start
        · obtain rfl : y = z := Option.some.inj (hparent.symm.trans (ScopeForest.parent?_eq_some.mpr hparents))
          exact ⟨hz, Nat.lt_trans hzx hx.2⟩
    obtain ⟨hlow, hhigh⟩ := hclosed.collect (o := ⟨ancestors, forest.size, false, []⟩) ⟨Nat.le_refl _, hsize⟩ hcollect r hr
    have hname : r.name = b.text code := by rw [hspells.name, Node.text, hstart, hstop, Node.text]
    exact ⟨r, hr, ⟨d, hd, b, hb, hspells.start.trans hstart, hspells.stop.trans hstop, hname⟩, hname, hspells.accesses,
      fun f hparents hdeclares => Station.found_of_declares_root hparents hdeclares hlow hhigh⟩

end Treeshake
