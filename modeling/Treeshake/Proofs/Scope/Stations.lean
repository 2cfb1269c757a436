import Treeshake.Proofs.Scope.Displace
import Treeshake.Proofs.Syntax.Nested
import Treeshake.Proofs.Table
import Treeshake.Scope.Analysis
/-!
The walk that builds the scopes of a statement, node by node. Main statements: the scopes that it builds under a node
are those of a stretch of numbers, each with a parent in the stretch or with that of the node itself; a node that is not
under another one is in no scope of its stretch; and every node that opens a scope is known as its owner.
-/
set_option autoImplicit false

namespace Treeshake

namespace ScopeForest

variable {f : ScopeForest} {scope other : Nat} {name : String}

def parents (f : ScopeForest) : List (Option Nat) := f.scopes.map (·.parent)

@[simp] theorem length_parents (f : ScopeForest) : f.parents.length = f.size := List.length_map _

theorem parent?_eq_some : f.parent? scope = some other ↔ f.parents[scope]? = some (some other) := by
  rw [parent?, parents, List.getElem?_map]
  cases f.scopes[scope]? with
  | none => simp
  | some s => simp

theorem parents_add (f : ScopeForest) (parent : Option Nat) (kind : ScopeKind) :
    (f.add parent kind).parents = f.parents ++ [parent] := by
  simp [parents, add]

theorem size_add (f : ScopeForest) (parent : Option Nat) (kind : ScopeKind) :
    (f.add parent kind).size = f.size + 1 := by
  simp [size, add]

theorem scopes_add (f : ScopeForest) (parent : Option Nat) (kind : ScopeKind) (scope : Nat) :
    (f.add parent kind).scopes[scope]? =
      if scope = f.size then some ⟨parent, kind, []⟩ else f.scopes[scope]? := by
  rw [add, List.getElem?_append, size]
  split
  · next h => rw [if_neg (Nat.ne_of_lt h)]
  · next h =>
    split
    · next heq => simp [heq]
    · next hne =>
      rw [List.getElem?_eq_none (Nat.not_lt.mp h), List.getElem?_eq_none]
      rw [List.length_singleton]
      omega

theorem scope_declare (f : ScopeForest) (other : Nat) (new : String) (blockScoped : Bool) (scope : Nat) :
    (f.declare other new blockScoped).scopes[scope]? = f.scopes[scope]?.map fun s =>
      if (if blockScoped then other else f.hoist f.size other) = scope then { s with names := addNew new s.names }
      else s := by
  rw [declare, List.getElem?_modify]
  rfl

theorem parents_declare (f : ScopeForest) (scope : Nat) (name : String) (blockScoped : Bool) :
    (f.declare scope name blockScoped).parents = f.parents := by
  refine List.ext_getElem? fun i => ?_
  rw [parents, List.getElem?_map, scope_declare, parents, List.getElem?_map, Option.map_map]
  refine congrArg (Option.map · _) (funext fun s => ?_)
  rw [Function.comp_apply]
  split_ifs <;> rfl

theorem size_declare (f : ScopeForest) (scope : Nat) (name : String) (blockScoped : Bool) :
    (f.declare scope name blockScoped).size = f.size := by
  rw [← length_parents, parents_declare, length_parents]

theorem declares_declare (h : f.declares scope name = true) (other : Nat) (new : String) (blockScoped : Bool) :
    (f.declare other new blockScoped).declares scope name = true := by
  rw [declares_iff, names] at h ⊢
  rw [scope_declare]
  cases hs : f.scopes[scope]? with
  | none =>
    rw [hs] at h
    cases h
  | some s =>
    rw [hs] at h
    rw [Option.map_some, Option.map_some, Option.getD_some]
    generalize (if blockScoped then other else f.hoist f.size other) = target
    split
    · exact mem_addNew.mpr (.inr h)
    · exact h

theorem declares_declare_self (h : scope < f.size) (name : String) :
    (f.declare scope name true).declares scope name = true := by
  obtain ⟨s, hs⟩ : ∃ s, f.scopes[scope]? = some s := ⟨_, List.getElem?_eq_getElem h⟩
  rw [declares_iff, names, scope_declare, hs, Option.map_some, Option.map_some, Option.getD_some, if_pos (if_pos rfl)]
  exact mem_addNew.mpr (.inl rfl)

theorem declares_add (f : ScopeForest) (parent : Option Nat) (kind : ScopeKind) (scope : Nat) (name : String) :
    (f.add parent kind).declares scope name = f.declares scope name := by
  rw [declares, names, scopes_add, declares, names]
  split
  · next h => rw [h, size, List.getElem?_eq_none (Nat.le_refl _)]; rfl
  · rfl

end ScopeForest

namespace Scoping

variable {s t u : Scoping} {scope outer : Nat} {names : List String} {name : String} {blockScoped : Bool}

structure Grown (s t : Scoping) : Prop where
  parents : s.forest.parents <+: t.forest.parents
  declares : ∀ scope name, s.forest.declares scope name = true → t.forest.declares scope name = true

theorem Grown.refl (s : Scoping) : s.Grown s := ⟨List.prefix_refl _, fun _ _ h => h⟩

theorem Grown.trans (hst : s.Grown t) (htu : t.Grown u) : s.Grown u where
  parents := hst.parents.trans htu.parents
  declares scope name h := htu.declares scope name (hst.declares scope name h)

theorem Grown.size_le (h : s.Grown t) : s.forest.size ≤ t.forest.size := by
  rw [← s.forest.length_parents, ← t.forest.length_parents]
  exact h.parents.length_le

theorem Grown.parent (h : s.Grown t) {above : Option Nat} (hs : s.forest.parents[scope]? = some above) :
    t.forest.parents[scope]? = some above := by
  obtain ⟨rest, hrest⟩ := h.parents
  rw [← hrest, List.getElem?_append_left (List.getElem?_eq_some_iff.mp hs).1, hs]

theorem owners_declareAll : (s.declareAll scope names blockScoped).owners = s.owners := rfl

theorem parents_declareAll : (s.declareAll scope names blockScoped).forest.parents = s.forest.parents :=
  List.foldlRecOn (motive := fun f : ScopeForest => f.parents = s.forest.parents) names _ rfl
    fun f hf name _ => (f.parents_declare scope name blockScoped).trans hf

theorem size_declareAll : (s.declareAll scope names blockScoped).forest.size = s.forest.size := by
  rw [← ScopeForest.length_parents, parents_declareAll, ScopeForest.length_parents]

theorem grown_declareAll : s.Grown (s.declareAll scope names blockScoped) where
  parents := parents_declareAll (s := s) ▸ List.prefix_refl _
  declares scope name h := List.foldlRecOn (motive := fun f : ScopeForest => f.declares scope name = true) names _ h
    fun _ hf new _ => ScopeForest.declares_declare hf _ new _

theorem declares_declareAll (hscope : scope < s.forest.size) (hname : name ∈ names) :
    (s.declareAll scope names true).forest.declares scope name = true := by
  induction names generalizing s with
  | nil => cases hname
  | cons new names ih =>
    have hrest : s.declareAll scope (new :: names) true =
        declareAll { s with forest := s.forest.declare scope new true } scope names true := rfl
    rw [hrest]
    rcases List.mem_cons.mp hname with rfl | hname
    · exact grown_declareAll.declares _ _ (ScopeForest.declares_declare_self hscope name)
    · refine ih ?_ hname
      rw [ScopeForest.size_declare]
      exact hscope

theorem parents_enter {n : Node} {kind : ScopeKind} :
    (s.enter n outer kind names blockScoped).forest.parents = s.forest.parents ++ [some outer] := by
  rw [enter, parents_declareAll, ScopeForest.parents_add]

theorem grown_enter {n : Node} {kind : ScopeKind} : s.Grown (s.enter n outer kind names blockScoped) := by
  have hadd : s.Grown ⟨s.forest.add (some outer) kind, (n.identity, s.forest.size) :: s.owners⟩ := by
    refine ⟨?_, fun scope name h => (ScopeForest.declares_add _ _ _ _ _).trans h⟩
    rw [ScopeForest.parents_add]
    exact List.prefix_append _ _
  exact hadd.trans grown_declareAll

end Scoping

namespace Node

variable {code : List Char} {ancestors : List Node} {scope : Nat} {s t : Scoping} {n : Node}

/-- What introducing the names of a node makes of a scoping, and the scope of its children: that of the node, or one
that the node opens. -/
inductive Introduced (n : Node) (scope : Nat) (s : Scoping) : Scoping × Nat → Prop where
  | within {t : Scoping} (hparents : t.forest.parents = s.forest.parents) (howners : t.owners = s.owners)
      (hgrown : s.Grown t) : Introduced n scope s (t, scope)
  | opens {t : Scoping} (hparents : t.forest.parents = s.forest.parents ++ [some scope])
      (howners : t.owners = (n.identity, s.forest.size) :: s.owners) (hgrown : s.Grown t) :
      Introduced n scope s (t, s.forest.size)

namespace Introduced

theorem self (n : Node) (scope : Nat) (s : Scoping) : Introduced n scope s (s, scope) := .within rfl rfl (.refl s)

theorem names (n : Node) (scope : Nat) (s : Scoping) (names : List String) (blockScoped : Bool) :
    Introduced n scope s (s.declareAll scope names blockScoped, scope) :=
  .within Scoping.parents_declareAll Scoping.owners_declareAll Scoping.grown_declareAll

theorem enter (n : Node) (scope : Nat) (s : Scoping) (kind : ScopeKind) (names : List String) (blockScoped : Bool) :
    Introduced n scope s (s.enter n scope kind names blockScoped, s.forest.size) :=
  .opens Scoping.parents_enter rfl Scoping.grown_enter

theorem enter_names (n : Node) (scope : Nat) (s : Scoping) (outer : List String) (kind : ScopeKind)
    (names : List String) (blockScoped blockScoped' : Bool) :
    Introduced n scope s ((s.declareAll scope outer blockScoped).enter n scope kind names blockScoped',
      (s.declareAll scope outer blockScoped).forest.size) := by
  have hsize : (s.declareAll scope outer blockScoped).forest.size = s.forest.size := Scoping.size_declareAll
  have hopens := enter n scope (s.declareAll scope outer blockScoped) kind names blockScoped'
  rw [hsize] at hopens ⊢
  refine .opens ?_ ?_ (Scoping.grown_declareAll.trans Scoping.grown_enter)
  · rw [Scoping.parents_enter, Scoping.parents_declareAll]
  · have howners : ((s.declareAll scope outer blockScoped).enter n scope kind names blockScoped').owners =
        (n.identity, (s.declareAll scope outer blockScoped).forest.size) :: s.owners := rfl
    rw [howners, hsize]

theorem then_names {t : Scoping} (h : Introduced n scope s (t, s.forest.size)) (other : Nat) (names : List String)
    (blockScoped : Bool) : Introduced n scope s (t.declareAll other names blockScoped, s.forest.size) := by
  cases h with
  | within hparents howners hgrown =>
    exact .within (Scoping.parents_declareAll.trans hparents) howners (hgrown.trans Scoping.grown_declareAll)
  | opens hparents howners hgrown =>
    exact .opens (Scoping.parents_declareAll.trans hparents) howners (hgrown.trans Scoping.grown_declareAll)

theorem grown {r : Scoping × Nat} (h : Introduced n scope s r) : s.Grown r.1 := by
  cases h with
  | within _ _ hgrown => exact hgrown
  | opens _ _ hgrown => exact hgrown

theorem lookup_ne {r : Scoping × Nat} {i : Nat} (h : Introduced n scope s r) (hi : i ≠ n.identity) :
    r.1.owners.lookup i = s.owners.lookup i := by
  cases h with
  | within _ howners _ => exact congrArg (List.lookup i) howners
  | opens _ howners _ =>
    have hne : (i == n.identity) = false := beq_eq_false_iff_ne.mpr hi
    rw [howners, List.lookup_cons, hne]

theorem lookup_self {r : Scoping × Nat} (h : Introduced n scope s r) (hnone : s.owners.lookup n.identity = none) :
    (r.1.owners.lookup n.identity).getD scope = r.2 := by
  cases h with
  | within _ howners _ => rw [howners, hnone, Option.getD_none]
  | opens _ howners _ => rw [howners, List.lookup_cons_self, Option.getD_some]

end Introduced

theorem introduced (code : List Char) (ancestors : List Node) (scope : Nat) (s : Scoping) (n : Node) :
    Introduced n scope s (introduce code ancestors scope s n) := by
  unfold introduce
  extract_lets inner
  split
  · exact .enter_names ..
  · exact .enter_names ..
  · split
    · exact .enter_names ..
    · exact (Introduced.enter ..).then_names ..
  · split
    · exact .enter_names ..
    · exact (Introduced.enter ..).then_names ..
  · split
    · exact .enter_names ..
    · exact (Introduced.enter ..).then_names ..
  · exact .enter ..
  · exact .enter ..
  · exact .names ..
  · split
    · exact .self ..
    · split
      · exact .names ..
      · exact .enter ..
  · split
    · exact .self ..
    · exact .enter ..
  · exact .enter ..
  · exact .enter ..
  · exact .enter ..
  · exact .names ..
  · exact .self ..

/-- The kinds of nodes that keep what is declared in them to themselves: functions with their bodies, other blocks,
loops and catch clauses. -/
def isBlock (n : Node) (ancestors : List Node) : Bool :=
  n.isFunction || ["for_statement", "for_in_statement", "catch_clause"].contains n.kind ||
    (n.kind == "statement_block" && !ancestors.head?.any isFunction)

/-- The names that a node declares if it is a class, or a part of a declaration with let or const. -/
def lexicalNames (code : List Char) (n : Node) (ancestors : List Node) : List String :=
  if n.kind == "class_declaration" then n.ownName code
  else if n.kind == "variable_declarator" && ancestors.head?.any (·.kind == "lexical_declaration") then
    boundNames code (n.childAt? "name")
  else []

theorem introduce_isBlock (h : n.isBlock ancestors = true) :
    (introduce code ancestors scope s n).2 = s.forest.size := by
  have hsize : ∀ names, (s.declareAll scope names false).forest.size = s.forest.size := fun _ => Scoping.size_declareAll
  rw [isBlock, isFunction] at h
  unfold introduce
  extract_lets inner
  split
  · exact hsize _
  · exact hsize _
  · split
    · exact hsize _
    · rfl
  · split
    · exact hsize _
    · rfl
  · split
    · exact hsize _
    · rfl
  · rfl
  · rfl
  · next hkind => simp [hkind] at h
  · next hkind => simp [hkind] at h
  · next hkind =>
    split
    · next hbody => simp [hkind, hbody] at h
    · rfl
  · rfl
  · rfl
  · rfl
  · next hkind => simp [hkind] at h
  · simp_all

theorem declares_introduce {name : String} (hscope : scope < s.forest.size) (h : name ∈ n.lexicalNames code ancestors) :
    (introduce code ancestors scope s n).1.forest.declares scope name = true := by
  rw [lexicalNames] at h
  split at h
  · next hkind =>
    rw [introduce, eq_of_beq hkind]
    exact Scoping.declares_declareAll hscope h
  · split at h
    · next hkind =>
      obtain ⟨hkind, hlexical⟩ := Bool.and_eq_true_iff.mp hkind
      rw [introduce, eq_of_beq hkind]
      dsimp only
      rw [hlexical]
      exact Scoping.declares_declareAll hscope h
    · cases h

end Node

/-- Where the walk is: above, the enclosing scope, what was built before, and the node. -/
structure Station where
  ancestors : List Node
  scope : Nat
  scoping : Scoping
  node : Node

namespace Node

mutual

def stations (code : List Char) (ancestors : List Node) (scope : Nat) (s : Scoping) : Node → List Station
  | .mk h cs =>
    let r := introduce code ancestors scope s (.mk h cs)
    ⟨ancestors, scope, s, .mk h cs⟩ :: stationsOf code (.mk h cs :: ancestors) r.2 r.1 cs

def stationsOf (code : List Char) (ancestors : List Node) (scope : Nat) (s : Scoping) : List Node → List Station
  | [] => []
  | n :: ns =>
    (if n.named then stations code ancestors scope s n else []) ++
      stationsOf code ancestors scope (if n.named then declare code ancestors scope s n else s) ns

end

end Node

namespace Station

def opened (code : List Char) (q : Station) : Scoping := (q.node.introduce code q.ancestors q.scope q.scoping).1

def inner (code : List Char) (q : Station) : Nat := (q.node.introduce code q.ancestors q.scope q.scoping).2

def done (code : List Char) (q : Station) : Scoping := q.node.declare code q.ancestors q.scope q.scoping

def below (code : List Char) (q : Station) : List Station :=
  Node.stationsOf code (q.node :: q.ancestors) (q.inner code) (q.opened code) q.node.children

def all (code : List Char) (q : Station) : List Station := q :: q.below code

def Avoids (code : List Char) (q : Station) (scope : Nat) : Prop :=
  scope < q.scoping.forest.size ∨ (q.done code).forest.size ≤ scope

/-- A station of a walk that starts in a scope and with a scoping, and ends with another. -/
structure Between (code : List Char) (scope : Nat) (s t : Scoping) (q : Station) : Prop where
  before : s.Grown q.scoping
  after : (q.done code).Grown t
  home : q.scope = scope ∨ s.forest.size ≤ q.scope
  lt : q.scope < q.scoping.forest.size

variable {code : List Char} {ancestors : List Node} {scope : Nat} {s t : Scoping} {n : Node} {ns : List Node}

theorem all_eq (q : Station) : q.all code = q.node.stations code q.ancestors q.scope q.scoping := by
  obtain ⟨ancestors, scope, s, h, cs⟩ := q
  rfl

theorem done_eq (q : Station) :
    q.done code = Node.declareAll code (q.node :: q.ancestors) (q.inner code) (q.opened code) q.node.children := by
  obtain ⟨ancestors, scope, s, h, cs⟩ := q
  rfl

theorem introduced (q : Station) : q.node.Introduced q.scope q.scoping (q.opened code, q.inner code) :=
  Node.introduced code q.ancestors q.scope q.scoping q.node

theorem grown_opened (code : List Char) (q : Station) : q.scoping.Grown (q.opened code) := q.introduced.grown

theorem inner_eq (code : List Char) (q : Station) :
    q.inner code = q.scope ∧ (q.opened code).forest.size = q.scoping.forest.size ∨
      q.inner code = q.scoping.forest.size ∧ (q.opened code).forest.size = q.scoping.forest.size + 1 ∧
        (q.opened code).forest.parents[q.scoping.forest.size]? = some (some q.scope) := by
  have h : q.node.Introduced q.scope q.scoping (q.opened code, q.inner code) := q.introduced
  generalize q.opened code = t at h ⊢
  generalize q.inner code = inner at h ⊢
  cases h with
  | within hparents _ _ =>
    rw [← ScopeForest.length_parents, hparents, ScopeForest.length_parents]
    exact .inl ⟨rfl, rfl⟩
  | opens hparents _ _ =>
    rw [← t.forest.length_parents, hparents, List.length_append, ← q.scoping.forest.length_parents]
    exact .inr ⟨rfl, rfl, List.getElem?_concat_length⟩

theorem inner_lt (code : List Char) (q : Station) (h : q.scope < q.scoping.forest.size) :
    q.inner code < (q.opened code).forest.size := by
  have hle : q.scoping.forest.size ≤ (q.opened code).forest.size := (q.grown_opened code).size_le
  rcases q.inner_eq code with ⟨hinner, -⟩ | ⟨hinner, hsize, -⟩ <;> omega

end Station

namespace Node

variable {code : List Char} {ancestors : List Node} {scope : Nat} {s : Scoping}

mutual

theorem grown_declare : ∀ (ancestors : List Node) (scope : Nat) (s : Scoping) (n : Node),
    s.Grown (declare code ancestors scope s n)
  | ancestors, scope, s, .mk h cs => by
    rw [declare]
    exact (Station.grown_opened code ⟨ancestors, scope, s, .mk h cs⟩).trans (grown_declareAll _ _ _ cs)

theorem grown_declareAll : ∀ (ancestors : List Node) (scope : Nat) (s : Scoping) (ns : List Node),
    s.Grown (declareAll code ancestors scope s ns)
  | _, _, s, [] => .refl s
  | ancestors, scope, s, n :: ns => by
    rw [declareAll]
    refine Scoping.Grown.trans ?_ (grown_declareAll ancestors scope _ ns)
    split
    · exact grown_declare ancestors scope s n
    · exact .refl s

end

theorem grown_named (code : List Char) (ancestors : List Node) (scope : Nat) (s : Scoping) (n : Node) :
    s.Grown (if n.named then declare code ancestors scope s n else s) := by
  split
  · exact grown_declare ancestors scope s n
  · exact .refl s

theorem mem_stationsOf_cons {n : Node} {ns : List Node} {q : Station} :
    q ∈ stationsOf code ancestors scope s (n :: ns) ↔ (n.named = true ∧ q ∈ stations code ancestors scope s n) ∨
      q ∈ stationsOf code ancestors scope (if n.named then declare code ancestors scope s n else s) ns := by
  rw [stationsOf, List.mem_append]
  refine or_congr_left ?_
  split
  · next h => exact (and_iff_right h).symm
  · next h => simp [h]

mutual

theorem between_stations : ∀ (ancestors : List Node) (scope : Nat) (s : Scoping) (n : Node), scope < s.forest.size →
    ∀ q ∈ stations code ancestors scope s n, q.Between code scope s (declare code ancestors scope s n)
  | ancestors, scope, s, .mk h cs, hscope, q, hq => by
    let p : Station := ⟨ancestors, scope, s, .mk h cs⟩
    rcases List.mem_cons.mp hq with rfl | hq
    · exact ⟨.refl s, .refl _, .inl rfl, hscope⟩
    · have hgrown : s.Grown (p.opened code) := p.grown_opened code
      have hbelow := between_stationsOf (.mk h cs :: ancestors) (p.inner code) (p.opened code) cs (p.inner_lt code hscope) q hq
      refine ⟨hgrown.trans hbelow.before, hbelow.after, ?_, hbelow.lt⟩
      have hinner : p.inner code = scope ∨ p.inner code = s.forest.size :=
        (p.inner_eq code).imp And.left And.left
      have hle := hgrown.size_le
      have hhome := hbelow.home
      omega

theorem between_stationsOf : ∀ (ancestors : List Node) (scope : Nat) (s : Scoping) (ns : List Node),
    scope < s.forest.size → ∀ q ∈ stationsOf code ancestors scope s ns,
      q.Between code scope s (declareAll code ancestors scope s ns)
  | _, _, _, [], _, _, hq => by cases hq
  | ancestors, scope, s, n :: ns, hscope, q, hq => by
    rw [declareAll]
    have hgrown := grown_named code ancestors scope s n
    rcases mem_stationsOf_cons.mp hq with ⟨hnamed, hq⟩ | hq
    · have hfirst := between_stations ancestors scope s n hscope q hq
      rw [if_pos hnamed]
      exact ⟨hfirst.before, hfirst.after.trans (grown_declareAll _ _ _ ns), hfirst.home, hfirst.lt⟩
    · have hle := hgrown.size_le
      have hrest := between_stationsOf ancestors scope _ ns (Nat.lt_of_lt_of_le hscope hle) q hq
      exact ⟨hgrown.trans hrest.before, hrest.after, hrest.home.imp_right (Nat.le_trans hle), hrest.lt⟩

end

end Node

namespace Station

variable {code : List Char} {scope : Nat} {s t u : Scoping} {b q : Station}

theorem grown_done (code : List Char) (q : Station) : (q.opened code).Grown (q.done code) := by
  rw [done_eq]
  exact Node.grown_declareAll _ _ _ _

namespace Between

theorem inner_lt (h : q.Between code scope s t) : q.inner code < (q.done code).forest.size :=
  Nat.lt_of_lt_of_le (q.inner_lt code h.lt) (q.grown_done code).size_le

theorem inner_home (h : q.Between code scope s t) : q.inner code = scope ∨ s.forest.size ≤ q.inner code := by
  have hle := h.before.size_le
  have hhome := h.home
  rcases q.inner_eq code with ⟨hinner, -⟩ | ⟨hinner, -, -⟩ <;> omega

theorem lt_done (h : q.Between code scope s t) : q.scope < (q.done code).forest.size :=
  Nat.lt_of_lt_of_le h.lt ((q.grown_opened code).trans (q.grown_done code)).size_le

theorem avoids_later (hq : q.Between code scope s t) (hb : b.Between code scope t u) :
    b.Avoids code q.scope ∧ b.Avoids code (q.inner code) := by
  have hle := Nat.le_trans hq.after.size_le hb.before.size_le
  exact ⟨.inl (Nat.lt_of_lt_of_le hq.lt_done hle), .inl (Nat.lt_of_lt_of_le hq.inner_lt hle)⟩

theorem avoids_earlier (hscope : scope < s.forest.size) (hb : b.Between code scope s t)
    (hq : q.Between code scope t u) : b.Avoids code q.scope ∧ b.Avoids code (q.inner code) := by
  have hfirst := Nat.lt_of_lt_of_le hscope hb.before.size_le
  have havoids : ∀ x, x = scope ∨ t.forest.size ≤ x → b.Avoids code x := fun x hx =>
    hx.imp (fun heq => lt_of_eq_of_lt heq hfirst) (Nat.le_trans hb.after.size_le)
  exact ⟨havoids _ hq.home, havoids _ hq.inner_home⟩

end Between

end Station

namespace Node

variable {code : List Char} {b q : Station}

mutual

/-- Of two stations of a walk, one is under the other, or it is in no scope that is built under the other. -/
theorem apart_stations : ∀ (ancestors : List Node) (scope : Nat) (s : Scoping) (n : Node), scope < s.forest.size →
    b ∈ stations code ancestors scope s n → q ∈ stations code ancestors scope s n →
    q ∈ b.all code ∨ b.Avoids code q.scope ∧ b.Avoids code (q.inner code)
  | ancestors, scope, s, .mk h cs, hscope, hb, hq => by
    let p : Station := ⟨ancestors, scope, s, .mk h cs⟩
    rcases List.mem_cons.mp hb with rfl | hb
    · exact .inl hq
    · have hinner := p.inner_lt code hscope
      rcases List.mem_cons.mp hq with rfl | hq
      · have hbelow := between_stationsOf (.mk h cs :: ancestors) (p.inner code) (p.opened code) cs hinner b hb
        have hle := hbelow.before.size_le
        have hgrown : s.forest.size ≤ (p.opened code).forest.size := (p.grown_opened code).size_le
        exact .inr ⟨.inl (Nat.lt_of_lt_of_le hscope (Nat.le_trans hgrown hle)), .inl (Nat.lt_of_lt_of_le hinner hle)⟩
      · exact apart_stationsOf (.mk h cs :: ancestors) (p.inner code) (p.opened code) cs hinner hb hq

theorem apart_stationsOf : ∀ (ancestors : List Node) (scope : Nat) (s : Scoping) (ns : List Node),
    scope < s.forest.size → b ∈ stationsOf code ancestors scope s ns → q ∈ stationsOf code ancestors scope s ns →
    q ∈ b.all code ∨ b.Avoids code q.scope ∧ b.Avoids code (q.inner code)
  | _, _, _, [], _, hb, _ => by cases hb
  | ancestors, scope, s, n :: ns, hscope, hb, hq => by
    have hscope' := Nat.lt_of_lt_of_le hscope (grown_named code ancestors scope s n).size_le
    rcases mem_stationsOf_cons.mp hb with ⟨hnamed, hb⟩ | hb
    · have hfirst := between_stations ancestors scope s n hscope b hb
      rcases mem_stationsOf_cons.mp hq with ⟨-, hq⟩ | hq
      · exact apart_stations ancestors scope s n hscope hb hq
      · rw [if_pos hnamed] at hq hscope'
        exact .inr (hfirst.avoids_earlier hscope (between_stationsOf ancestors scope _ ns hscope' q hq))
    · rcases mem_stationsOf_cons.mp hq with ⟨hnamed, hq⟩ | hq
      · rw [if_pos hnamed] at hb hscope'
        have hfirst := between_stations ancestors scope s n hscope q hq
        exact .inr (hfirst.avoids_later (between_stationsOf ancestors scope _ ns hscope' b hb))
      · exact apart_stationsOf ancestors scope _ ns hscope' hb hq

end

mutual

theorem built_declare : ∀ (ancestors : List Node) (scope : Nat) (s : Scoping) (n : Node) (x : Nat),
    s.forest.size ≤ x → x < (declare code ancestors scope s n).forest.size →
    ∃ q ∈ stations code ancestors scope s n, q.scoping.forest.size = x ∧ q.inner code = x ∧
      (declare code ancestors scope s n).forest.parents[x]? = some (some q.scope)
  | ancestors, scope, s, .mk h cs, x, hlow, hhigh => by
    let p : Station := ⟨ancestors, scope, s, .mk h cs⟩
    rcases Nat.lt_or_ge x (p.opened code).forest.size with hopened | hbehind
    · rcases p.inner_eq code with ⟨-, hsize⟩ | ⟨hinner, hsize, hparent⟩
      · exact absurd (Nat.lt_of_lt_of_le hopened (Nat.le_of_eq hsize)) (Nat.not_lt.mpr hlow)
      · rw [hsize] at hopened
        obtain rfl : s.forest.size = x := Nat.le_antisymm hlow (Nat.le_of_lt_succ hopened)
        exact ⟨p, List.mem_cons_self, rfl, hinner, (p.grown_done code).parent hparent⟩
    · obtain ⟨q, hq, hfound⟩ := built_declareAll (.mk h cs :: ancestors) (p.inner code) (p.opened code) cs x hbehind hhigh
      exact ⟨q, List.mem_cons_of_mem p hq, hfound⟩

theorem built_declareAll : ∀ (ancestors : List Node) (scope : Nat) (s : Scoping) (ns : List Node) (x : Nat),
    s.forest.size ≤ x → x < (declareAll code ancestors scope s ns).forest.size →
    ∃ q ∈ stationsOf code ancestors scope s ns, q.scoping.forest.size = x ∧ q.inner code = x ∧
      (declareAll code ancestors scope s ns).forest.parents[x]? = some (some q.scope)
  | _, _, _, [], _, hlow, hhigh => absurd hhigh (Nat.not_lt.mpr hlow)
  | ancestors, scope, s, n :: ns, x, hlow, hhigh => by
    rw [declareAll] at hhigh ⊢
    rcases Nat.lt_or_ge x (if n.named then declare code ancestors scope s n else s).forest.size with hfirst | hbehind
    · have hnamed : n.named = true := by
        by_contra hnamed
        rw [if_neg hnamed] at hfirst
        exact absurd hfirst (Nat.not_lt.mpr hlow)
      rw [if_pos hnamed] at hfirst ⊢
      obtain ⟨q, hq, hsize, hinner, hparent⟩ := built_declare ancestors scope s n x hlow hfirst
      exact ⟨q, mem_stationsOf_cons.mpr (.inl ⟨hnamed, hq⟩), hsize, hinner,
        (grown_declareAll ancestors scope _ ns).parent hparent⟩
    · obtain ⟨q, hq, hfound⟩ := built_declareAll ancestors scope _ ns x hbehind hhigh
      exact ⟨q, mem_stationsOf_cons.mpr (.inr hq), hfound⟩

end

mutual

theorem mem_nodes_of_stations : ∀ {ancestors : List Node} {scope : Nat} {s : Scoping} {n : Node},
    q ∈ stations code ancestors scope s n → q.node ∈ n.nodes
  | _, _, _, .mk h cs, hq => by
    rcases List.mem_cons.mp hq with rfl | hq
    · exact self_mem_nodes (.mk h cs)
    · exact List.mem_cons_of_mem _ (mem_nodesOf_of_stationsOf hq)

theorem mem_nodesOf_of_stationsOf : ∀ {ancestors : List Node} {scope : Nat} {s : Scoping} {ns : List Node},
    q ∈ stationsOf code ancestors scope s ns → q.node ∈ nodesOf ns
  | _, _, _, [], hq => by cases hq
  | _, _, _, n :: ns, hq => by
    rcases mem_stationsOf_cons.mp hq with ⟨-, hq⟩ | hq
    · exact List.mem_append_left _ (mem_nodes_of_stations hq)
    · exact List.mem_append_right _ (mem_nodesOf_of_stationsOf hq)

end

mutual

def walked : Node → List Node
  | .mk h cs => .mk h cs :: walkedOf cs

def walkedOf : List Node → List Node
  | [] => []
  | n :: ns => (if n.named then walked n else []) ++ walkedOf ns

end

mutual

theorem map_node_stations : ∀ (ancestors : List Node) (scope : Nat) (s : Scoping) (n : Node),
    (stations code ancestors scope s n).map (·.node) = n.walked
  | ancestors, scope, s, .mk h cs => by
    rw [stations, List.map_cons, map_node_stationsOf _ _ _ cs, walked]

theorem map_node_stationsOf : ∀ (ancestors : List Node) (scope : Nat) (s : Scoping) (ns : List Node),
    (stationsOf code ancestors scope s ns).map (·.node) = walkedOf ns
  | _, _, _, [] => rfl
  | ancestors, scope, s, n :: ns => by
    rw [stationsOf, List.map_append, map_node_stationsOf _ _ _ ns, walkedOf]
    refine congrArg (· ++ walkedOf ns) ?_
    split
    · exact map_node_stations ancestors scope s n
    · rfl

end

def identities (n : Node) : List Nat := n.nodes.map (·.identity)

def identitiesOf (ns : List Node) : List Nat := (nodesOf ns).map (·.identity)

theorem identities_mk (h : NodeHead) (cs : List Node) :
    identities (.mk h cs) = h.identity :: identitiesOf cs := rfl

theorem identitiesOf_cons (n : Node) (ns : List Node) :
    identitiesOf (n :: ns) = n.identities ++ identitiesOf ns := by
  rw [identitiesOf, nodesOf, List.map_append]
  rfl

mutual

/-- A tree whose nodes were numbered has distinct identities, those between the first number and the last. -/
theorem identities_number : ∀ (next : Nat) (n : Node), next ≤ (n.number next).2 ∧
    (n.number next).1.identities = List.range' next ((n.number next).2 - next)
  | next, .mk h cs => by
    obtain ⟨hle, hids⟩ := identitiesOf_numberAll (next + 1) cs
    have hsucc : (numberAll (next + 1) cs).2 - next = (numberAll (next + 1) cs).2 - (next + 1) + 1 := by omega
    refine ⟨Nat.le_of_succ_le hle, ?_⟩
    rw [number, identities_mk, hids, hsucc]
    rfl

theorem identitiesOf_numberAll : ∀ (next : Nat) (ns : List Node), next ≤ (numberAll next ns).2 ∧
    identitiesOf (numberAll next ns).1 = List.range' next ((numberAll next ns).2 - next)
  | next, [] => ⟨Nat.le_refl next, by rw [numberAll, Nat.sub_self]; rfl⟩
  | next, n :: ns => by
    obtain ⟨hle, hids⟩ := identities_number next n
    obtain ⟨hle', hids'⟩ := identitiesOf_numberAll (n.number next).2 ns
    refine ⟨Nat.le_trans hle hle', ?_⟩
    rw [numberAll, identitiesOf_cons, hids, hids']
    have hnext : (n.number next).2 = next + 1 * ((n.number next).2 - next) := by omega
    have hsum : (numberAll (n.number next).2 ns).2 - next =
        (n.number next).2 - next + ((numberAll (n.number next).2 ns).2 - (n.number next).2) := by omega
    rw [hsum, ← List.range'_append, ← hnext]

end

theorem nodup_identities_of (text : String) (root : Node) : (SyntaxTree.of text root).root.identities.Nodup := by
  have hids : (SyntaxTree.of text root).root.identities = _ := (identities_number 0 root).2
  rw [hids]
  exact List.nodup_range'

mutual

theorem owners_declare {i : Nat} : ∀ (ancestors : List Node) (scope : Nat) (s : Scoping) (n : Node),
    i ∉ n.identities → (declare code ancestors scope s n).owners.lookup i = s.owners.lookup i
  | ancestors, scope, s, .mk h cs, hi => by
    rw [identities_mk, List.mem_cons, not_or] at hi
    rw [declare, owners_declareAll _ _ _ cs hi.2]
    exact (Station.introduced ⟨ancestors, scope, s, .mk h cs⟩).lookup_ne hi.1

theorem owners_declareAll {i : Nat} : ∀ (ancestors : List Node) (scope : Nat) (s : Scoping) (ns : List Node),
    i ∉ identitiesOf ns → (declareAll code ancestors scope s ns).owners.lookup i = s.owners.lookup i
  | _, _, _, [], _ => rfl
  | ancestors, scope, s, n :: ns, hi => by
    rw [identitiesOf_cons, List.mem_append, not_or] at hi
    rw [declareAll, owners_declareAll _ _ _ ns hi.2]
    split
    · exact owners_declare ancestors scope s n hi.1
    · rfl

end

mutual

theorem owner_stations {S : Scoping} : ∀ (ancestors : List Node) (scope : Nat) (s : Scoping) (n : Node),
    n.identities.Nodup → (∀ i ∈ n.identities, s.owners.lookup i = none) →
    (∀ i ∈ n.identities, S.owners.lookup i = (declare code ancestors scope s n).owners.lookup i) →
    ∀ q ∈ stations code ancestors scope s n, (S.owners.lookup q.node.identity).getD q.scope = q.inner code
  | ancestors, scope, s, .mk h cs, hids, hnone, hS, q, hq => by
    let p : Station := ⟨ancestors, scope, s, .mk h cs⟩
    rw [identities_mk] at hids hnone hS
    obtain ⟨hnew, hids⟩ := List.nodup_cons.mp hids
    obtain ⟨hfirst, hnone⟩ := List.forall_mem_cons.mp hnone
    obtain ⟨hown, hS⟩ := List.forall_mem_cons.mp hS
    have hopened : p.node.Introduced p.scope p.scoping (p.opened code, p.inner code) := p.introduced
    rcases List.mem_cons.mp hq with rfl | hq
    · have hdone : (p.done code).owners.lookup h.identity = (p.opened code).owners.lookup h.identity :=
        owners_declareAll _ _ _ cs hnew
      have howner : S.owners.lookup h.identity = (p.opened code).owners.lookup h.identity := hown.trans hdone
      exact (congrArg (Option.getD · scope) howner).trans (hopened.lookup_self hfirst)
    · refine owner_stationsOf (.mk h cs :: ancestors) (p.inner code) (p.opened code) cs hids (fun i hi => ?_) hS q hq
      rw [← hnone i hi]
      refine hopened.lookup_ne fun heq => hnew ?_
      rw [← show i = h.identity from heq]
      exact hi

theorem owner_stationsOf {S : Scoping} : ∀ (ancestors : List Node) (scope : Nat) (s : Scoping) (ns : List Node),
    (identitiesOf ns).Nodup → (∀ i ∈ identitiesOf ns, s.owners.lookup i = none) →
    (∀ i ∈ identitiesOf ns, S.owners.lookup i = (declareAll code ancestors scope s ns).owners.lookup i) →
    ∀ q ∈ stationsOf code ancestors scope s ns, (S.owners.lookup q.node.identity).getD q.scope = q.inner code
  | _, _, _, [], _, _, _, _, hq => by cases hq
  | ancestors, scope, s, n :: ns, hids, hnone, hS, q, hq => by
    rw [identitiesOf_cons] at hids hnone hS
    obtain ⟨hfirst, hrest, hapart⟩ := List.nodup_append.mp hids
    obtain ⟨hnone, hnones⟩ := List.forall_mem_append.mp hnone
    obtain ⟨hS, hSs⟩ := List.forall_mem_append.mp hS
    rcases mem_stationsOf_cons.mp hq with ⟨hnamed, hq⟩ | hq
    · refine owner_stations ancestors scope s n hfirst hnone (fun i hi => ?_) q hq
      rw [hS i hi, declareAll, if_pos hnamed]
      exact owners_declareAll _ _ _ ns fun hi' => hapart i hi i hi' rfl
    · refine owner_stationsOf ancestors scope _ ns hrest (fun i hi => ?_) hSs q hq
      split
      · rw [owners_declare _ _ _ n fun hi' => hapart i hi' i hi rfl, hnones i hi]
      · exact hnones i hi

end

end Node

end Treeshake
