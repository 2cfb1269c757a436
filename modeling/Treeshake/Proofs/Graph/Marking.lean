import Treeshake.Graph.Liveness
import Treeshake.Proofs.Graph.Linked
/-!
Marking a graph. Main statement: whatever marking has done to a linked graph, every declaration keeps what
it is and what it needs, and every statement keeps all but its mark.
-/
set_option autoImplicit false

namespace Treeshake

def Statement.unmarked (s : Statement) : Statement := { s with included := false }

def LinkedModule.unmarked (m : LinkedModule) : LinkedModule :=
  { m with statements := m.statements.map Statement.unmarked }

theorem Reference.declaration?_eq_some {x : Reference} {k : Nat} :
    x.declaration? = some k ↔ x.binding = .declared k := by
  rw [Reference.declaration?]
  cases x.binding <;> simp

namespace Graph

variable {R : List Routes} {n : Nat} {g h k : Graph}

/-- What marking leaves of a declaration. -/
structure Kept (d e : Declaration) : Prop where
  kind : e.kind = d.kind ∨
    ∃ i members, d.kind = .object i members false ∧ e.kind = .object i members true
  statement : e.statement = d.statement
  aliases : e.aliases = d.aliases
  used : d.used = true → e.used = true

theorem Kept.refl (d : Declaration) : Kept d d := ⟨.inl rfl, rfl, rfl, fun h => h⟩

theorem Kept.trans {d e f : Declaration} (h₁ : Kept d e) (h₂ : Kept e f) : Kept d f where
  kind := by
    rcases h₂.kind with h | ⟨i, members, h, h'⟩
    · rw [h]
      exact h₁.kind
    · rcases h₁.kind with hde | ⟨j, members', -, hobject⟩
      · exact .inr ⟨i, members, hde.symm.trans h, h'⟩
      · rw [hobject] at h
        cases h
  statement := h₂.statement.trans h₁.statement
  aliases := h₂.aliases.trans h₁.aliases
  used hu := h₂.used (h₁.used hu)

theorem Kept.entity {d e : Declaration} (h : Kept d e) (id : Nat) : e.entity id = d.entity id := by
  unfold Declaration.entity
  rcases h.kind with h | ⟨i, members, h, h'⟩
  · rw [h]
  · rw [h, h']

theorem Kept.standsFor {d e : Declaration} (h : Kept d e) : e.standsFor = d.standsFor := by
  unfold Declaration.standsFor
  rcases h.kind with h | ⟨i, members, h, h'⟩
  · rw [h]
  · rw [h, h']

theorem Kept.needs {d e : Declaration} (h : Kept d e) : needs e = needs d := by
  unfold Graph.needs
  rw [h.aliases]
  rcases h.kind with h | ⟨i, members, h, h'⟩
  · rw [h]
  · rw [h, h']

theorem isExternal_iff (d : Declaration) (id : Nat) :
    d.isExternal = true ↔ ∃ e name, d.entity id = .outside e name := by
  unfold Declaration.isExternal Declaration.entity
  cases d.kind <;> simp

theorem isObject_iff (d : Declaration) (id : Nat) : d.isObject = true ↔ ∃ i, d.entity id = .whole i := by
  unfold Declaration.isObject Declaration.entity
  cases d.kind <;> simp

/-- The modules but for what tracing and marking change in them. -/
def outline (g : Graph) : List LinkedModule := g.modules.map fun m => m.unasked.unmarked

theorem statement?_outline (g : Graph) (r : StatementRef) :
    (g.statement? r).map (·.unmarked) = g.outline[r.module]?.bind fun m => m.statements[r.index]? := by
  rw [statement?, outline, List.getElem?_map]
  cases g.modules[r.module]? <;> simp [LinkedModule.unasked, LinkedModule.unmarked]

/-- What tracing and marking do to a graph. -/
structure Grown (g h : Graph) : Prop where
  later : Later g h
  sound : g.Sound → h.Sound
  complete : Complete [] g → Complete [] h
  outline : h.outline = g.outline
  kept : ∀ (id : Nat) (d : Declaration), g.declarations[id]? = some d →
    ∃ e, h.declarations[id]? = some e ∧ Kept d e
  bare : ∀ (id : Nat) (e : Declaration), h.declarations[id]? = some e → g.declarations[id]? = none →
    e.statement = none ∧ e.aliases = [] ∧ ∀ k, e.entity k ≠ .own k
  included : ∀ r, g.isIncluded r = true → h.isIncluded r = true
  globals : g.globals ⊆ h.globals

theorem Grown.refl (g : Graph) : Grown g g :=
  ⟨.refl g, fun h => h, fun h => h, rfl, fun _ d hd => ⟨d, hd, .refl d⟩,
    fun _ _ he hnone => absurd (hnone.symm.trans he) (by simp), fun _ h => h, fun _ h => h⟩

theorem Grown.trans (h₁ : Grown g h) (h₂ : Grown h k) : Grown g k where
  later := h₁.later.trans h₂.later
  sound hg := h₂.sound (h₁.sound hg)
  complete hg := h₂.complete (h₁.complete hg)
  outline := h₂.outline.trans h₁.outline
  kept id d hd := by
    obtain ⟨e, he, hde⟩ := h₁.kept id d hd
    obtain ⟨f, hf, hef⟩ := h₂.kept id e he
    exact ⟨f, hf, hde.trans hef⟩
  bare id f hf hnone := by
    cases he : h.declarations[id]? with
    | none => exact h₂.bare id f hf he
    | some e =>
      obtain ⟨f', hf', hef⟩ := h₂.kept id e he
      obtain rfl := Option.some.inj (hf.symm.trans hf')
      obtain ⟨hs, ha, hk⟩ := h₁.bare id e he hnone
      exact ⟨hef.statement.trans hs, hef.aliases.trans ha, fun k => by rw [hef.entity]; exact hk k⟩
  included r hr := h₂.included r (h₁.included r hr)
  globals := List.Subset.trans h₁.globals h₂.globals

theorem Grown.fits (hG : Grown g h) (hg : Fits R n g) : Fits R n h :=
  ⟨hG.later.routes.trans hg.routes, hG.later.externals.trans hg.externals, hG.sound hg.sound⟩

theorem Grown.statement? (hG : Grown g h) {r : StatementRef} {s : Statement}
    (hs : h.statement? r = some s) : ∃ s', g.statement? r = some s' ∧ s.unmarked = s'.unmarked := by
  have heq : (h.statement? r).map (·.unmarked) = (g.statement? r).map (·.unmarked) := by
    rw [statement?_outline, statement?_outline, hG.outline]
  rw [hs, Option.map_some] at heq
  obtain ⟨s', hs', h'⟩ := Option.map_eq_some_iff.mp heq.symm
  exact ⟨s', hs', h'.symm⟩

theorem Grown.statement?_later (hG : Grown g h) {r : StatementRef} {s : Statement}
    (hs : g.statement? r = some s) : ∃ s', h.statement? r = some s' ∧ s'.unmarked = s.unmarked := by
  have heq : (h.statement? r).map (·.unmarked) = (g.statement? r).map (·.unmarked) := by
    rw [statement?_outline, statement?_outline, hG.outline]
  rw [hs, Option.map_some] at heq
  exact Option.map_eq_some_iff.mp heq

theorem Explored.grows (t : Explored R n g h) : Grown g h where
  later := t.grown.later
  sound _ := t.fits.sound
  complete := t.complete []
  outline := by
    have hunasked : ∀ l : Graph, l.outline = (l.modules.map LinkedModule.unasked).map (·.unmarked) := by
      intro l
      rw [Graph.outline, List.map_map]
      rfl
    rw [hunasked, hunasked, t.grown.modules]
  kept id d hd := ⟨d, t.grown.declaration hd, .refl d⟩
  bare id e he hnone := by
    rcases t.grown.old_or_passive he with hold | hp
    · rw [hnone] at hold
      cases hold
    · exact ⟨hp.statement, hp.aliases, hp.kind⟩
  included r hr := by
    rw [isIncluded, t.grown.statement?]
    exact hr
  globals _ hname := t.grown.globals ▸ hname

theorem grown_modifyDeclaration {id : Nat} {f : Declaration → Declaration}
    (hf : ∀ d, g.declarations[id]? = some d → Kept d (f d)) : Grown g (g.modifyDeclaration id f) := by
  have hfacts := fun d hd => And.intro ((hf d hd).entity id) (hf d hd).statement
  have hget : ∀ (k : Nat) (e : Declaration), (g.modifyDeclaration id f).declarations[k]? = some e →
      ∃ d, g.declarations[k]? = some d ∧ Kept d e := by
    intro k e he
    rw [modifyDeclaration, getElem?_modify_eq] at he
    by_cases hk : id = k
    · subst hk
      rw [if_pos rfl] at he
      obtain ⟨d, hd, rfl⟩ := Option.map_eq_some_iff.mp he
      exact ⟨d, hd, hf d hd⟩
    · rw [if_neg hk] at he
      exact ⟨e, he, .refl e⟩
  refine ⟨later_modifyDeclaration hfacts, (sound_modifyDeclaration · hfacts),
    fun hc => hc.later (later_modifyDeclaration hfacts) fun k e he => ?_, rfl, fun k d hd => ?_,
    fun k e he hnone => ?_, fun _ hr => hr, fun _ h => h⟩
  · obtain ⟨d, hd, hde⟩ := hget k e he
    refine ⟨d, hd, fun i members v hkind => ?_⟩
    rcases hde.kind with h | ⟨j, ms, h, h'⟩
    · exact ⟨v, h ▸ hkind⟩
    · rw [h'] at hkind
      cases hkind
      exact ⟨false, h⟩
  · rw [modifyDeclaration, getElem?_modify_eq, hd]
    by_cases hk : id = k
    · subst hk
      rw [if_pos rfl]
      exact ⟨f d, rfl, hf d hd⟩
    · rw [if_neg hk]
      exact ⟨d, rfl, .refl d⟩
  · obtain ⟨d, hd, -⟩ := hget k e he
    rw [hnone] at hd
    cases hd

theorem grown_flagUsed (g : Graph) (id : Nat) : Grown g (g.flagUsed id) :=
  grown_modifyDeclaration fun _ _ => ⟨.inl rfl, rfl, rfl, fun _ => rfl⟩

theorem Grown.of_marks (hG : Grown g k)
    (hm : h.modules.map LinkedModule.unmarked = k.modules.map LinkedModule.unmarked)
    (hx : h.externals = k.externals) (hd : h.declarations = k.declarations) (hglobals : k.globals ⊆ h.globals)
    (hincluded : ∀ r, g.isIncluded r = true → h.isIncluded r = true) : Grown g h := by
  have hmap : ∀ {α : Type} (f : LinkedModule → α), (∀ m, f m.unmarked = f m) →
      h.modules.map f = k.modules.map f := by
    intro α f hf
    have hunmarked := congrArg (List.map f) hm
    simpa only [List.map_map, Function.comp_def, hf] using hunmarked
  have hr : h.routes = k.routes := hmap _ fun _ => rfl
  have ho : ∀ i, h.objectOf i = k.objectOf i := by
    intro i
    have hobjects := congrArg (·[i]?) (hmap (·.object) fun _ => rfl)
    simp only [List.getElem?_map] at hobjects
    unfold objectOf
    cases hi : h.modules[i]? <;> cases hj : k.modules[i]? <;> simp_all
  have ho' : h.outline = k.outline := by
    have houtline : ∀ l : Graph, l.outline = (l.modules.map LinkedModule.unmarked).map (·.unasked) := by
      intro l
      rw [Graph.outline, List.map_map]
      rfl
    rw [houtline, houtline, hm]
  have hf : ∀ id, h.facts? id = k.facts? id := fun id => by rw [facts?, hd, facts?]
  have he : ∀ e name, h.externalId? e name = k.externalId? e name :=
    fun e name => by rw [externalId?, hx, externalId?]
  have hlater : Later k h := .of_facts hr (by rw [hx]) hf ho he fun e hn => by rwa [namesExports, hx]
  refine ⟨hG.later.trans hlater, fun hs => (hG.sound hs).congr hr hf ho he,
    fun hc => (hG.complete hc).later hlater fun id e he => ?_, ho'.trans hG.outline, fun id d hid => ?_,
    fun id e he hnone => ?_, hincluded, List.Subset.trans hG.globals hglobals⟩
  · exact ⟨e, hd ▸ he, fun i ms v hk => ⟨v, hk⟩⟩
  · rw [hd]
    exact hG.kept id d hid
  · rw [hd] at he
    exact hG.bare id e he hnone

theorem grown_same (hm : h.modules = g.modules) (hx : h.externals = g.externals)
    (hd : h.declarations = g.declarations) (hglobals : g.globals ⊆ h.globals) : Grown g h :=
  (Grown.refl g).of_marks (by rw [hm]) hx hd hglobals fun r hr => by rwa [isIncluded, Graph.statement?, hm]

def withIncluded (g : Graph) (S : StatementRef → Bool) : Graph :=
  { g with modules := g.modules.mapIdx fun i m =>
      { m with statements := m.statements.mapIdx fun j s => { s with included := S ⟨i, j⟩ } } }

theorem statement?_withIncluded (g : Graph) (S : StatementRef → Bool) (r : StatementRef) :
    (g.withIncluded S).statement? r = (g.statement? r).map fun s => { s with included := S r } := by
  rw [Graph.statement?, Graph.statement?, withIncluded, List.getElem?_mapIdx]
  cases g.modules[r.module]? <;> simp [List.getElem?_mapIdx]

theorem isIncluded_withIncluded (g : Graph) (S : StatementRef → Bool) (r : StatementRef) :
    (g.withIncluded S).isIncluded r = ((g.statement? r).isSome && S r) := by
  rw [isIncluded, statement?_withIncluded]
  cases g.statement? r <;> simp

theorem Grown.withIncluded (hG : Grown g h) {S : StatementRef → Bool}
    (hS : ∀ r, g.isIncluded r = true → S r = true) : Grown g (h.withIncluded S) := by
  refine hG.of_marks ?_ rfl rfl (fun _ h => h) fun r hr => ?_
  · have hstatements : ∀ i (l : List Statement),
        (l.mapIdx fun j s => { s with included := S ⟨i, j⟩ }).map Statement.unmarked =
          l.map Statement.unmarked := by
      intro i l
      refine List.ext_getElem? fun j => ?_
      rw [List.getElem?_map, List.getElem?_mapIdx, List.getElem?_map]
      cases l[j]? <;> rfl
    refine List.ext_getElem? fun i => ?_
    rw [List.getElem?_map, Graph.withIncluded, List.getElem?_mapIdx, List.getElem?_map]
    cases h.modules[i]? with
    | none => rfl
    | some m => simp [LinkedModule.unmarked, hstatements]
  · have hr' := hG.included r hr
    rw [isIncluded_withIncluded, hS r hr, Bool.and_true]
    rw [isIncluded] at hr'
    cases hs : h.statement? r with
    | none => simp [hs] at hr'
    | some s => rfl

theorem grown_include (g : Graph) (r : StatementRef) :
    Grown g (g.modifyStatement r fun s => { s with included := true }) := by
  refine (Grown.refl g).of_marks ?_ rfl rfl (fun _ h => h) fun k hk => ?_
  · refine map_modify_of_eq (fun m => ?_) g.modules r.module
    rw [LinkedModule.unmarked, LinkedModule.unmarked]
    have hstatements := map_modify_of_eq (p := Statement.unmarked)
      (f := fun s => { s with included := true }) (fun _ => rfl) m.statements r.index
    simp only [hstatements]
  · rw [isIncluded, statement?_modifyStatement]
    rw [isIncluded] at hk
    split
    · cases hs : g.statement? k with
      | none => simp [hs] at hk
      | some s => rfl
    · exact hk

def isUsed (g : Graph) (id : Nat) : Bool := (g.declarations[id]?).any (·.used)

def isInternal (g : Graph) (id : Nat) : Bool :=
  (g.declarations[id]?).any fun d => match d.kind with
    | .external .. => false
    | _ => true

theorem isInternal_eq (g : Graph) (id : Nat) :
    g.isInternal id = (g.declarations[id]?).any (!·.isExternal) := by
  rw [isInternal]
  congr 1
  funext d
  rw [Declaration.isExternal]
  cases d.kind <;> rfl

theorem isUsed_iff {id : Nat} :
    g.isUsed id = true ↔ ∃ d, g.declarations[id]? = some d ∧ d.used = true := by
  rw [isUsed, Option.any_eq_true]

theorem isInternal_iff {id : Nat} :
    g.isInternal id = true ↔ ∃ e, g.entity? id = some e ∧ ∀ m name, e ≠ .outside m name := by
  rw [isInternal_eq, Option.any_eq_true]
  constructor
  · rintro ⟨d, hd, hx⟩
    refine ⟨d.entity id, by rw [entity?, hd, Option.map_some], fun m name he => ?_⟩
    rw [(isExternal_iff d id).mpr ⟨m, name, he⟩] at hx
    cases hx
  · rintro ⟨e, he, hx⟩
    obtain ⟨d, hd, rfl⟩ := Option.map_eq_some_iff.mp he
    refine ⟨d, hd, ?_⟩
    cases hd : d.isExternal with
    | false => rfl
    | true =>
      obtain ⟨m, name, h⟩ := (isExternal_iff d id).mp hd
      exact absurd h (hx m name)

theorem isIncluded_iff {r : StatementRef} :
    g.isIncluded r = true ↔ ∃ s, g.statement? r = some s ∧ s.included = true := by
  rw [isIncluded, Option.any_eq_true]

theorem Grown.isUsed (hG : Grown g h) {id : Nat} (hid : g.isUsed id = true) : h.isUsed id = true := by
  obtain ⟨d, hd, hu⟩ := isUsed_iff.mp hid
  obtain ⟨e, he, hde⟩ := hG.kept id d hd
  exact isUsed_iff.mpr ⟨e, he, hde.used hu⟩

theorem Grown.isInternal (hG : Grown g h) {id : Nat} (hid : g.isInternal id = true) :
    h.isInternal id = true := by
  obtain ⟨e, he, hx⟩ := isInternal_iff.mp hid
  exact isInternal_iff.mpr ⟨e, hG.later.entity id e he, hx⟩

theorem Later.isInternal_of_known (hl : Later g h) {id : Nat} {e : Entity} (he : g.entity? id = some e)
    (hid : h.isInternal id = true) : g.isInternal id = true := by
  obtain ⟨e', he', hx⟩ := isInternal_iff.mp hid
  obtain rfl := Option.some.inj ((hl.entity id e he).symm.trans he')
  exact isInternal_iff.mpr ⟨e, he, hx⟩

theorem Explored.isUsed (t : Explored R n g h) {id : Nat}
    (hid : h.isUsed id = true) : g.isUsed id = true := by
  obtain ⟨d, hd, hu⟩ := isUsed_iff.mp hid
  rcases t.grown.old_or_passive hd with hold | hp
  · exact isUsed_iff.mpr ⟨d, hold, hu⟩
  · rw [hp.used] at hu
    cases hu

theorem Explored.isIncluded (t : Explored R n g h) (r : StatementRef) :
    h.isIncluded r = g.isIncluded r := by
  rw [Graph.isIncluded, t.grown.statement?, Graph.isIncluded]

theorem keepOf_cases (g : Graph) (o : Option StatementRef) :
    (g.keepOf o = (g, []) ∧ ∀ r s, o = some r → g.statement? r = some s → s.included = true) ∨
      ∃ r s, o = some r ∧ g.statement? r = some s ∧ s.included = false ∧ g.keepOf o =
        (g.modifyStatement r fun s => { s with included := true },
          s.references.filterMap (·.declaration?)) := by
  cases o with
  | none => exact .inl ⟨rfl, fun _ _ h => by cases h⟩
  | some r =>
    rw [keepOf, keep]
    cases hs : g.statement? r with
    | none => exact .inl ⟨rfl, fun r' s hr hs' => by cases hr; rw [hs] at hs'; cases hs'⟩
    | some s =>
      cases hi : s.included with
      | true => exact .inl ⟨by simp [hi], fun r' s' hr hs' => by cases hr; rw [hs] at hs'; cases hs'; exact hi⟩
      | false => exact .inr ⟨r, s, rfl, hs, hi, by simp [hi]; rfl⟩

theorem grown_keepOf (g : Graph) (o : Option StatementRef) : Grown g (g.keepOf o).1 := by
  rcases keepOf_cases g o with ⟨h, -⟩ | ⟨r, s, -, -, -, h⟩
  · rw [h]
    exact .refl g
  · rw [h]
    exact grown_include g r

theorem declarations_keepOf (g : Graph) (o : Option StatementRef) :
    (g.keepOf o).1.declarations = g.declarations := by
  rcases keepOf_cases g o with ⟨h, -⟩ | ⟨r, s, -, -, -, h⟩ <;> rw [h]
  rfl

theorem isIncluded_keepOf {r : StatementRef} {s : Statement} (hs : g.statement? r = some s) :
    (g.keepOf (some r)).1.isIncluded r = true := by
  rcases keepOf_cases g (some r) with ⟨h, hincluded⟩ | ⟨r', s', hr, hs', -, h⟩
  · rw [h]
    exact isIncluded_iff.mpr ⟨s, hs, hincluded r s rfl hs⟩
  · obtain rfl := Option.some.inj hr
    rw [h, isIncluded, statement?_modifyStatement, if_pos rfl, hs']
    rfl

theorem included_keepOf {o : Option StatementRef} {r : StatementRef} {s : Statement}
    (hs : (g.keepOf o).1.statement? r = some s) (hincluded : s.included = true) :
    g.isIncluded r = true ∨ o = some r ∧
      ∀ x ∈ s.references, ∀ k, x.declaration? = some k → k ∈ (g.keepOf o).2 := by
  rcases keepOf_cases g o with ⟨h, -⟩ | ⟨r', s', hr, hs', -, h⟩
  · rw [h] at hs
    exact .inl (isIncluded_iff.mpr ⟨s, hs, hincluded⟩)
  · rw [h] at hs ⊢
    dsimp only at hs
    rw [statement?_modifyStatement] at hs
    by_cases hrr : r' = r
    · subst hrr
      rw [if_pos rfl, hs'] at hs
      obtain rfl := Option.some.inj hs
      exact .inr ⟨hr, fun x hx k hk => List.mem_filterMap.mpr ⟨x, hx, hk⟩⟩
    · rw [if_neg hrr] at hs
      exact .inl (isIncluded_iff.mpr ⟨s, hs, hincluded⟩)

theorem mem_keepOf {o : Option StatementRef} {k : Nat} (hk : k ∈ (g.keepOf o).2) :
    ∃ r s x, (g.keepOf o).1.statement? r = some s ∧ s.included = true ∧ x ∈ s.references ∧
      x.declaration? = some k := by
  rcases keepOf_cases g o with ⟨h, -⟩ | ⟨r, s, hr, hs, -, h⟩
  · rw [h] at hk
    cases hk
  · rw [h] at hk ⊢
    obtain ⟨x, hx, hxk⟩ := List.mem_filterMap.mp hk
    refine ⟨r, { s with included := true }, x, ?_, rfl, hx, hxk⟩
    rw [statement?_modifyStatement, if_pos rfl, hs]
    rfl

theorem mem_needs {d : Declaration} {k : Nat} : k ∈ needs d ↔
    (k ∈ d.aliases ∨ d.standsFor = some k) ∨
      ∃ i members v, d.kind = .object i members v ∧ k ∈ members.values := by
  unfold needs Declaration.standsFor
  rw [List.mem_append, or_comm, or_assoc]
  refine or_congr_right ?_
  cases d.kind with
  | object i members v =>
    refine ⟨fun hk => ?_, fun hk => ?_⟩
    · exact .inr ⟨i, members, v, rfl, hk⟩
    · obtain hk | ⟨j, members', v', heq, hk⟩ := hk
      · cases hk
      · cases heq
        exact hk
  | _ => simp

theorem standsFor_eq_some {d : Declaration} {k : Nat} :
    d.standsFor = some k ↔ d.kind = .defaultValue (some k) := by
  rw [Declaration.standsFor]
  cases d.kind <;> simp

theorem mem_needs_of_alias {d : Declaration} {k : Nat} (hk : k ∈ d.aliases) : k ∈ needs d :=
  mem_needs.mpr (.inl (.inl hk))

theorem mem_needs_of_underlying {d : Declaration} {k : Nat} (hkind : d.kind = .defaultValue (some k)) :
    k ∈ needs d :=
  mem_needs.mpr (.inl (.inr (standsFor_eq_some.mpr hkind)))

theorem mem_needs_of_member {d : Declaration} {i k : Nat} {members : Table Nat} {asValue : Bool} {name : String}
    (hkind : d.kind = .object i members asValue) (hk : (name, k) ∈ members) : k ∈ needs d :=
  mem_needs.mpr (.inr ⟨i, members, asValue, hkind, List.mem_map_of_mem hk⟩)

theorem Complete.known (hR : Ranged R n) (hg : Fits R n g) (hc : Complete [] g) {id i k : Nat}
    {members : Table Nat} {v : Bool} {d : Declaration} (hd : g.declarations[id]? = some d)
    (hkind : d.kind = .object i members v) (hk : k ∈ members.values) : ∃ e, g.entity? k = some e := by
  obtain ⟨-, hmembers⟩ := hc id d i members v hd hkind List.not_mem_nil
  obtain ⟨⟨name, k⟩, hmem, rfl⟩ := List.mem_map.mp hk
  obtain ⟨e, he, -⟩ := (hmembers name k hmem).visible hR hg
  exact ⟨e, he⟩

section
variable {g₀ : Graph} (hR : Ranged R n) (hw : Wired R n g₀) (hG : Grown g₀ g)
include hR hw hG

theorem known_needs {id k : Nat} {d : Declaration} (hd : g.declarations[id]? = some d)
    (hk : k ∈ needs d) : ∃ e, g.entity? k = some e := by
  rcases mem_needs.mp hk with hnamed | ⟨i, members, v, hkind, hmember⟩
  · cases hd₀ : g₀.declarations[id]? with
    | some d₀ =>
      obtain ⟨d', hd', hkept⟩ := hG.kept id d₀ hd₀
      obtain rfl := Option.some.inj (hd.symm.trans hd')
      rw [hkept.aliases, hkept.standsFor] at hnamed
      exact (hw.named id k d₀ hd₀ hnamed).imp fun e he => hG.later.entity k e he
    | none =>
      obtain ⟨-, haliases, hown⟩ := hG.bare id d hd hd₀
      rw [haliases, standsFor_eq_none (hown id)] at hnamed
      simp at hnamed
  · exact (hG.complete hw.complete).known hR (hG.fits hw.fits) hd hkind hmember

omit hR in
theorem known_references {r : StatementRef} {s : Statement} {x : Reference} {k : Nat}
    (hs : g.statement? r = some s) (hx : x ∈ s.references) (hk : x.declaration? = some k) :
    ∃ e, g.entity? k = some e := by
  obtain ⟨s₀, hs₀, heq⟩ := hG.statement? hs
  have hreferences : s.references = s₀.references := congrArg (·.references) heq
  obtain ⟨e, he, -⟩ := hw.bound r s₀ hs₀ x (hreferences ▸ hx) k hk
  exact ⟨e, hG.later.entity k e he⟩

omit hR in
theorem known_statement {id : Nat} {d : Declaration} {r : StatementRef}
    (hd : g.declarations[id]? = some d) (hr : d.statement = some r) : ∃ s, g.statement? r = some s := by
  cases hd₀ : g₀.declarations[id]? with
  | some d₀ =>
    obtain ⟨d', hd', hkept⟩ := hG.kept id d₀ hd₀
    obtain rfl := Option.some.inj (hd.symm.trans hd')
    obtain ⟨s₀, hs₀⟩ := hw.placed id d₀ r hd₀ (hkept.statement ▸ hr)
    obtain ⟨s, hs, -⟩ := hG.statement?_later hs₀
    exact ⟨s, hs⟩
  | none =>
    obtain ⟨hnone, -, -⟩ := hG.bare id d hd hd₀
    rw [hnone] at hr
    cases hr

end

end Graph

end Treeshake
