import Mathlib.Data.List.Induction
import Treeshake.Proofs.Scope.Stations
/-!
Look-up through the scopes around. Main statement: in a forest that grew scope by scope, a name is found at the nearest
scope around for which it was declared; one that is not bound to its block was declared for the nearest scope around
that is no block.
-/
set_option autoImplicit false

namespace Treeshake.ScopeForest

inductive Change where
  | add (parent : Option Nat) (kind : ScopeKind)
  | declare (scope : Nat) (name : String) (blockScoped : Bool)
  deriving DecidableEq, Repr

def change (f : ScopeForest) : Change → ScopeForest
  | .add parent kind => f.add parent kind
  | .declare scope name blockScoped => f.declare scope name blockScoped

def ofChanges (changes : List Change) : ScopeForest := changes.foldl change {}

def Orderly (changes : List Change) : Prop :=
  ∀ before parent kind after, changes = before ++ .add (some parent) kind :: after →
    parent < (ofChanges before).size

/-- The way from a scope up to one that stands under no other. -/
inductive Chain (f : ScopeForest) : Nat → List Nat → Prop where
  | root {scope : Nat} (h : f.parent? scope = none) : Chain f scope [scope]
  | under {scope parent : Nat} {chain : List Nat} (h : f.parent? scope = some parent)
      (hup : Chain f parent chain) : Chain f scope (scope :: chain)

def IsFirst (P : Nat → Prop) (i : Nat) (l : List Nat) : Prop :=
  ∃ before after, l = before ++ i :: after ∧ P i ∧ ∀ j ∈ before, ¬P j

/-- Of a way up, the first scope that is no block, or the last if all are. -/
def IsHost (f : ScopeForest) (chain : List Nat) (host : Nat) : Prop :=
  IsFirst (fun i => f.kind? i ≠ some .block) host chain ∨
    ((∀ i ∈ chain, f.kind? i = some .block) ∧ chain.getLast? = some host)

def Hosts (f : ScopeForest) (host scope : Nat) : Prop := ∃ chain, f.Chain scope chain ∧ f.IsHost chain host

/-- Where a name comes to that is declared in a scope: to the scope itself if it is bound to its block. -/
def Lands (f : ScopeForest) (source : Nat) (blockScoped : Bool) (scope : Nat) : Prop :=
  if blockScoped then scope = source else f.Hosts scope source

/-- A name was declared for a scope, by a declaration in a scope that was there. -/
def DeclaredFor (changes : List Change) (name : String) (scope : Nat) : Prop :=
  ∃ before source blockScoped after, changes = before ++ .declare source name blockScoped :: after ∧
    source < (ofChanges before).size ∧ (ofChanges changes).Lands source blockScoped scope

def Upright (f : ScopeForest) : Prop := ∀ scope parent, f.parent? scope = some parent → parent < scope

variable {f g : ScopeForest} {scope other host : Nat} {name : String} {chain : List Nat} {changes : List Change}

namespace Chain

theorem unique {chain' : List Nat} (h : f.Chain scope chain) (h' : f.Chain scope chain') : chain = chain' := by
  induction h generalizing chain' with
  | root h =>
    cases h' with
    | root => rfl
    | under h' => cases h.symm.trans h'
  | under h _ ih =>
    cases h' with
    | root h' => cases h.symm.trans h'
    | under h' hup' =>
      obtain rfl := Option.some.inj (h.symm.trans h')
      rw [ih hup']

theorem le (hf : f.Upright) (h : f.Chain scope chain) : ∀ i ∈ chain, i ≤ scope := by
  induction h with
  | root => exact fun i hi => Nat.le_of_eq (List.mem_singleton.mp hi)
  | under h _ ih =>
    intro i hi
    rcases List.mem_cons.mp hi with rfl | hi
    · exact Nat.le_refl i
    · exact Nat.le_trans (ih i hi) (Nat.le_of_lt (hf _ _ h))

theorem length_le (hf : f.Upright) (h : f.Chain scope chain) : chain.length ≤ f.size + 1 := by
  have hbelow : chain.length ≤ scope + 1 := by
    induction h with
    | root => simp
    | under h _ ih =>
      have := hf _ _ h
      rw [List.length_cons]
      omega
  cases h with
  | root => simp
  | under h =>
    rw [parent?_eq_some] at h
    have hlt := (List.getElem?_eq_some_iff.mp h).1
    rw [length_parents] at hlt
    omega

theorem findWithin (h : f.Chain scope chain) {fuel : Nat} (hfuel : chain.length ≤ fuel) :
    f.findWithin name fuel scope = chain.find? (f.declares · name) := by
  induction h generalizing fuel with
  | root h =>
    obtain ⟨fuel, rfl⟩ := Nat.exists_eq_add_of_le' hfuel
    rw [List.length_singleton, ScopeForest.findWithin, h, List.find?_cons, Option.bind_none]
    split <;> simp_all
  | under h _ ih =>
    obtain ⟨fuel, rfl⟩ := Nat.exists_eq_add_of_le' hfuel
    rw [List.length_cons, ← Nat.add_assoc, ScopeForest.findWithin, h, List.find?_cons, Option.bind_some,
      ih (Nat.le_add_left _ _)]
    split <;> simp_all

theorem ne_nil (h : f.Chain scope chain) : chain ≠ [] := by
  cases h <;> exact List.cons_ne_nil _ _

end Chain

theorem hoist_of_not_block (hkind : f.kind? scope ≠ some .block) (fuel : Nat) : f.hoist fuel scope = scope := by
  cases fuel with
  | zero => rfl
  | succ fuel => rw [hoist, if_neg hkind]

theorem hoist_of_root (hparent : f.parent? scope = none) (fuel : Nat) : f.hoist fuel scope = scope := by
  cases fuel with
  | zero => rfl
  | succ fuel => rw [hoist, hparent, ite_self]

theorem Chain.isHost_hoist (h : f.Chain scope chain) {fuel : Nat} (hfuel : chain.length ≤ fuel + 1) :
    f.IsHost chain (f.hoist fuel scope) := by
  induction h generalizing fuel with
  | @root scope h =>
    rw [hoist_of_root h]
    by_cases hkind : f.kind? scope = some .block
    · exact .inr ⟨List.forall_mem_singleton.mpr hkind, rfl⟩
    · exact .inl ⟨[], [], rfl, hkind, nofun⟩
  | @under scope parent chain h hup ih =>
    by_cases hkind : f.kind? scope = some .block
    · obtain ⟨fuel, rfl⟩ : ∃ k, fuel = k + 1 := by
        refine Nat.exists_eq_add_one_of_ne_zero fun hzero => hup.ne_nil (List.eq_nil_of_length_eq_zero ?_)
        rw [List.length_cons] at hfuel
        omega
      rw [hoist, if_pos hkind, h]
      rcases ih (Nat.le_of_succ_le_succ hfuel) with ⟨before, after, rfl, hhost, hbefore⟩ | ⟨hall, hlast⟩
      · exact .inl ⟨scope :: before, after, rfl, hhost,
          List.forall_mem_cons.mpr ⟨not_not_intro hkind, hbefore⟩⟩
      · refine .inr ⟨List.forall_mem_cons.mpr ⟨hkind, hall⟩, ?_⟩
        rw [List.getLast?_cons, hlast, Option.getD_some]
    · rw [hoist_of_not_block hkind]
      exact .inl ⟨[], chain, rfl, hkind, nofun⟩

theorem IsFirst.mem {P : Nat → Prop} {i : Nat} {l : List Nat} (h : IsFirst P i l) : i ∈ l := by
  obtain ⟨before, after, rfl, -, -⟩ := h
  exact List.mem_append_right _ List.mem_cons_self

theorem IsHost.mem (h : f.IsHost chain host) : host ∈ chain :=
  h.elim IsFirst.mem fun h => List.mem_of_getLast? h.2

theorem isFirst_iff_find? {P : Nat → Prop} {p : Nat → Bool} (hp : ∀ i, p i = true ↔ P i) {i : Nat} {l : List Nat} :
    IsFirst P i l ↔ l.find? p = some i := by
  simp only [IsFirst, List.find?_eq_some_iff_append, ← hp, Bool.not_eq_true]
  constructor
  · rintro ⟨before, after, rfl, hi, hbefore⟩
    exact ⟨hi, before, after, rfl, by simpa using hbefore⟩
  · rintro ⟨hi, before, after, rfl, hbefore⟩
    exact ⟨before, after, rfl, hi, by simpa using hbefore⟩

theorem IsHost.unique {host' : Nat} (h : f.IsHost chain host) (h' : f.IsHost chain host') : host = host' := by
  have hchosen : ∀ i, f.IsHost chain i →
      (chain.find? fun j => f.kind? j != some .block).or chain.getLast? = some i := by
    rintro i (hfirst | ⟨hall, hlast⟩)
    · rw [(isFirst_iff_find? fun _ => bne_iff_ne).mp hfirst, Option.some_or]
    · rw [List.find?_eq_none.mpr fun j hj => by simp [hall j hj], Option.none_or, hlast]
  exact Option.some.inj ((hchosen host h).symm.trans (hchosen host' h'))

section
variable (hf : f.Upright)
include hf

theorem Upright.exists_chain (scope : Nat) : ∃ chain, f.Chain scope chain := by
  induction scope using Nat.strongRecOn with
  | ind scope ih =>
    cases h : f.parent? scope with
    | none => exact ⟨[scope], .root h⟩
    | some parent =>
      obtain ⟨chain, hchain⟩ := ih parent (hf scope parent h)
      exact ⟨scope :: chain, .under h hchain⟩

theorem hosts_iff {scope host : Nat} : f.Hosts host scope ↔ host = f.hoist f.size scope := by
  obtain ⟨chain, hchain⟩ := hf.exists_chain scope
  have hhoist := hchain.isHost_hoist (hchain.length_le hf)
  constructor
  · rintro ⟨chain', hchain', hhost⟩
    obtain rfl := hchain.unique hchain'
    exact hhost.unique hhoist
  · rintro rfl
    exact ⟨chain, hchain, hhoist⟩

theorem lands_iff {blockScoped : Bool} : f.Lands scope blockScoped host ↔
    host = if blockScoped then scope else f.hoist f.size scope := by
  cases blockScoped
  · exact hosts_iff hf
  · exact Iff.rfl

theorem Lands.lt_iff {blockScoped : Bool} (h : f.Lands scope blockScoped host) :
    host < f.size ↔ scope < f.size := by
  constructor
  · intro hhost
    by_contra hscope
    have hkind : f.kind? scope ≠ some .block := by
      simp [kind?, List.getElem?_eq_none (Nat.not_lt.mp hscope)]
    have hself : host = scope := by rw [(lands_iff hf).mp h, hoist_of_not_block hkind, ite_self]
    exact hscope (hself ▸ hhost)
  · intro hscope
    cases blockScoped with
    | true => exact Nat.lt_of_le_of_lt (Nat.le_of_eq h) hscope
    | false =>
      obtain ⟨chain, hchain, hhost⟩ := h
      exact Nat.lt_of_le_of_lt (hchain.le hf _ hhost.mem) hscope

end

structure Extends (f g : ScopeForest) : Prop where
  size_le : f.size ≤ g.size
  parent : ∀ scope < f.size, g.parent? scope = f.parent? scope
  kind : ∀ scope < f.size, g.kind? scope = f.kind? scope

theorem Extends.refl (f : ScopeForest) : f.Extends f := ⟨Nat.le_refl _, fun _ _ => rfl, fun _ _ => rfl⟩

theorem Extends.trans {h : ScopeForest} (hfg : f.Extends g) (hgh : g.Extends h) : f.Extends h where
  size_le := Nat.le_trans hfg.size_le hgh.size_le
  parent scope hscope := (hgh.parent scope (Nat.lt_of_lt_of_le hscope hfg.size_le)).trans (hfg.parent scope hscope)
  kind scope hscope := (hgh.kind scope (Nat.lt_of_lt_of_le hscope hfg.size_le)).trans (hfg.kind scope hscope)

theorem parent?_declare (f : ScopeForest) (scope : Nat) (name : String) (blockScoped : Bool) (other : Nat) :
    (f.declare scope name blockScoped).parent? other = f.parent? other := by
  refine Option.ext fun parent => ?_
  rw [parent?_eq_some, parents_declare, ← parent?_eq_some]

theorem kind?_declare (f : ScopeForest) (scope : Nat) (name : String) (blockScoped : Bool) (other : Nat) :
    (f.declare scope name blockScoped).kind? other = f.kind? other := by
  rw [kind?, scope_declare, kind?, Option.map_map]
  refine congrArg (Option.map · _) (funext fun s => ?_)
  rw [Function.comp_apply]
  split_ifs <;> rfl

theorem extends_change (f : ScopeForest) (c : Change) : f.Extends (f.change c) := by
  cases c with
  | add parent kind =>
    have hold : ∀ scope < f.size, (f.add parent kind).scopes[scope]? = f.scopes[scope]? := fun scope hscope => by
      rw [scopes_add, if_neg (Nat.ne_of_lt hscope)]
    refine ⟨?_, fun scope hscope => ?_, fun scope hscope => ?_⟩
    · rw [change, size_add]
      exact Nat.le_succ _
    · rw [change, parent?, hold scope hscope, parent?]
    · rw [change, kind?, hold scope hscope, kind?]
  | declare source name blockScoped =>
    exact ⟨Nat.le_of_eq (size_declare f source name blockScoped).symm,
      fun scope _ => parent?_declare f source name blockScoped scope,
      fun scope _ => kind?_declare f source name blockScoped scope⟩

theorem ofChanges_concat (changes : List Change) (c : Change) :
    ofChanges (changes ++ [c]) = (ofChanges changes).change c := by
  rw [ofChanges, List.foldl_append, ofChanges, List.foldl_cons, List.foldl_nil]

theorem orderly_concat_iff {c : Change} : Orderly (changes ++ [c]) ↔
    Orderly changes ∧ ∀ parent kind, c = .add (some parent) kind → parent < (ofChanges changes).size := by
  constructor
  · refine fun h => ⟨?_, fun parent kind hc => h changes parent kind [] (hc ▸ rfl)⟩
    rintro before parent kind after rfl
    exact h before parent kind (after ++ [c]) (by simp)
  · rintro ⟨h, hc⟩ before parent kind after heq
    rcases concat_split heq with ⟨rfl, hlast, -⟩ | ⟨after, -, rfl⟩
    · exact hc parent kind hlast
    · exact h before parent kind after rfl

theorem Orderly.upright (h : Orderly changes) : (ofChanges changes).Upright := by
  induction changes using List.reverseRecOn with
  | nil => exact fun scope parent hparent => by simp [ofChanges, parent?] at hparent
  | append_singleton changes c ih =>
    intro scope parent hparent
    obtain ⟨hchanges, hc⟩ := orderly_concat_iff.mp h
    rw [ofChanges_concat] at hparent
    cases c with
    | add above kind =>
      rw [change, parent?, scopes_add] at hparent
      split at hparent
      · next hscope =>
        obtain rfl : above = some parent := hparent
        exact hscope ▸ hc parent kind rfl
      · exact ih hchanges scope parent hparent
    | declare source name blockScoped =>
      rw [change, parent?_declare] at hparent
      exact ih hchanges scope parent hparent

section
variable (hfg : f.Extends g) (hf : f.Upright)
include hfg hf

theorem Chain.extend (h : f.Chain scope chain) (hscope : scope < f.size) : g.Chain scope chain := by
  induction h with
  | root h => exact .root ((hfg.parent _ hscope).trans h)
  | under h _ ih => exact .under ((hfg.parent _ hscope).trans h) (ih (Nat.lt_trans (hf _ _ h) hscope))

theorem Hosts.extend (h : f.Hosts host scope) (hscope : scope < f.size) : g.Hosts host scope := by
  obtain ⟨chain, hchain, hhost⟩ := h
  have hkind : ∀ i ∈ chain, g.kind? i = f.kind? i := fun i hi =>
    hfg.kind i (Nat.lt_of_le_of_lt (hchain.le hf i hi) hscope)
  refine ⟨chain, hchain.extend hfg hf hscope, ?_⟩
  rcases hhost with ⟨before, after, rfl, hblock, hbefore⟩ | ⟨hall, hlast⟩
  · refine .inl ⟨before, after, rfl, fun h => hblock ?_, fun i hi h => hbefore i hi fun h' => h ?_⟩
    · rw [← hkind host (List.mem_append_right _ List.mem_cons_self), h]
    · rw [hkind i (List.mem_append_left _ hi), h']
  · exact .inr ⟨fun i hi => (hkind i hi).trans (hall i hi), hlast⟩

/-- What is added to a forest later does not change where a name comes to. -/
theorem lands_extend_iff {blockScoped : Bool} (hg : g.Upright) (hscope : scope < f.size) :
    g.Lands scope blockScoped host ↔ f.Lands scope blockScoped host := by
  cases blockScoped with
  | true => exact Iff.rfl
  | false =>
    have hhoist : g.Hosts (f.hoist f.size scope) scope := ((hosts_iff hf).mpr rfl).extend hfg hf hscope
    rw [Lands, if_neg Bool.false_ne_true, hosts_iff hg, ← (hosts_iff hg).mp hhoist]
    exact (hosts_iff hf).symm

end

theorem declares_change_iff (hf : f.Upright) (c : Change) : (f.change c).declares scope name = true ↔
    f.declares scope name = true ∨
      ∃ source blockScoped, c = .declare source name blockScoped ∧ source < f.size ∧ f.Lands source blockScoped scope := by
  cases c with
  | add parent kind => simp [change, declares_add]
  | declare source new blockScoped =>
    rw [change, declares_iff, declares_iff, names, scope_declare, names]
    cases hs : f.scopes[scope]? with
    | none =>
      refine ⟨fun h => (by cases h), ?_⟩
      rintro (h | ⟨source', blockScoped', -, hsource, hlands⟩)
      · cases h
      · exact absurd ((Lands.lt_iff hf hlands).mpr hsource) (Nat.not_lt.mpr (List.getElem?_eq_none_iff.mp hs))
    | some s =>
      have hscope : scope < f.size := (List.getElem?_eq_some_iff.mp hs).1
      rw [Option.map_some, Option.map_some, Option.getD_some, Option.map_some, Option.getD_some]
      by_cases htarget : (if blockScoped then source else f.hoist f.size source) = scope
      · have hlands := (lands_iff hf).mpr htarget.symm
        rw [if_pos htarget, mem_addNew]
        constructor
        · rintro (rfl | h)
          · exact .inr ⟨source, blockScoped, rfl, (Lands.lt_iff hf hlands).mp hscope, hlands⟩
          · exact .inl h
        · rintro (h | ⟨source', blockScoped', heq, -, -⟩)
          · exact .inr h
          · exact .inl (Change.declare.inj heq).2.1.symm
      · rw [if_neg htarget]
        refine ⟨.inl, ?_⟩
        rintro (h | ⟨source', blockScoped', heq, -, hlands⟩)
        · exact h
        · obtain ⟨rfl, -, rfl⟩ := Change.declare.inj heq
          exact absurd ((lands_iff hf).mp hlands).symm htarget

theorem extends_append (before after : List Change) : (ofChanges before).Extends (ofChanges (before ++ after)) := by
  induction after using List.reverseRecOn with
  | nil =>
    rw [List.append_nil]
    exact .refl _
  | append_singleton after c ih =>
    rw [← List.append_assoc, ofChanges_concat]
    exact ih.trans (extends_change _ c)

theorem declares_ofChanges_iff (h : Orderly changes) :
    (ofChanges changes).declares scope name = true ↔ DeclaredFor changes name scope := by
  induction changes using List.reverseRecOn with
  | nil => simp [ofChanges, declares, names, DeclaredFor]
  | append_singleton changes c ih =>
    have hchanges := (orderly_concat_iff.mp h).1
    have hlater : ∀ source blockScoped, source < (ofChanges changes).size →
        ((ofChanges (changes ++ [c])).Lands source blockScoped scope ↔
          (ofChanges changes).Lands source blockScoped scope) := fun source blockScoped hsource =>
      lands_extend_iff (extends_append changes [c]) hchanges.upright h.upright hsource
    rw [ofChanges_concat, declares_change_iff hchanges.upright, ih hchanges]
    constructor
    · rintro (⟨before, source, blockScoped, after, rfl, hsource, hlands⟩ | ⟨source, blockScoped, rfl, hsource, hlands⟩)
      · have hsource' := Nat.lt_of_lt_of_le hsource (extends_append before (.declare source name blockScoped :: after)).size_le
        exact ⟨before, source, blockScoped, after ++ [c], by simp, hsource,
          (hlater source blockScoped hsource').mpr hlands⟩
      · exact ⟨changes, source, blockScoped, [], rfl, hsource, (hlater source blockScoped hsource).mpr hlands⟩
    · rintro ⟨before, source, blockScoped, after, heq, hsource, hlands⟩
      rcases concat_split heq with ⟨rfl, hc, -⟩ | ⟨after, -, rfl⟩
      · exact .inr ⟨source, blockScoped, hc, hsource, (hlater source blockScoped hsource).mp hlands⟩
      · have hsource' := Nat.lt_of_lt_of_le hsource (extends_append before (.declare source name blockScoped :: after)).size_le
        exact .inl ⟨before, source, blockScoped, after, rfl, hsource, (hlater source blockScoped hsource').mp hlands⟩

/-- Looking for a name follows the way up, which ends, and finds the nearest scope for which the name was declared,
or nothing if there is none; and the name is local if that scope is not the root of a statement. -/
theorem find_nearest_declared (h : Orderly changes) (scope : Nat) (name : String) :
    ∃ chain, (ofChanges changes).Chain scope chain ∧
      (∀ fuel, chain.length ≤ fuel →
        (ofChanges changes).findWithin name fuel scope = (ofChanges changes).find? scope name) ∧
      (∀ found, (ofChanges changes).find? scope name = some found ↔ IsFirst (DeclaredFor changes name) found chain) ∧
      ((ofChanges changes).find? scope name = none ↔ ∀ i ∈ chain, ¬DeclaredFor changes name i) ∧
      ((ofChanges changes).containsLocal scope name = true ↔
        ∃ found, IsFirst (DeclaredFor changes name) found chain ∧
          (ofChanges changes).kind? found ≠ some .statement) := by
  have hupright := h.upright
  have hdeclared : ∀ i, (ofChanges changes).declares i name = true ↔ DeclaredFor changes name i :=
    fun i => declares_ofChanges_iff h
  obtain ⟨chain, hchain⟩ := hupright.exists_chain scope
  have hfind : (ofChanges changes).find? scope name = chain.find? ((ofChanges changes).declares · name) :=
    hchain.findWithin (hchain.length_le hupright)
  have hfirst : ∀ found, (ofChanges changes).find? scope name = some found ↔
      IsFirst (DeclaredFor changes name) found chain := fun found => by
    rw [hfind, isFirst_iff_find? hdeclared]
  refine ⟨chain, hchain, fun fuel hfuel => (hchain.findWithin hfuel).trans hfind.symm, hfirst, ?_, ?_⟩
  · simp only [hfind, List.find?_eq_none, hdeclared]
  · simp only [containsLocal_iff, hfirst]

def hoisting : List Change :=
  [.add none .statement, .add (some 0) .function, .add (some 1) .block, .add (some 2) .block,
    .declare 0 "hoisted" false, .declare 3 "hoisted" false, .declare 3 "scoped" true]

theorem orderly_hoisting : Orderly hoisting := by
  have hconcat : ∀ changes c, (∀ parent kind, c = .add (some parent) kind → parent < (ofChanges changes).size) →
      Orderly changes → Orderly (changes ++ [c]) := fun _ _ hc h => orderly_concat_iff.mpr ⟨h, hc⟩
  have hempty : Orderly [] := fun before parent kind after heq => by simp at heq
  refine hconcat (hoisting.take 6) _ nofun (hconcat (hoisting.take 5) _ nofun (hconcat (hoisting.take 4) _ nofun ?_))
  refine hconcat (hoisting.take 3) _ ?_ (hconcat (hoisting.take 2) _ ?_ (hconcat (hoisting.take 1) _ ?_
    (hconcat [] _ ?_ hempty)))
  all_goals
    intro parent kind h
    cases h <;> decide

theorem find_nearest_declared_hoisted : Orderly hoisting ∧
    (ofChanges hoisting).find? 3 "hoisted" = some 1 ∧ IsFirst (DeclaredFor hoisting "hoisted") 1 [3, 2, 1, 0] ∧
    (ofChanges hoisting).find? 3 "scoped" = some 3 ∧ IsFirst (DeclaredFor hoisting "scoped") 3 [3, 2, 1, 0] := by
  have hway : (ofChanges hoisting).Chain 3 [3, 2, 1, 0] :=
    .under (by decide) (.under (by decide) (.under (by decide) (.root (by decide))))
  have hfirst : ∀ name found, (ofChanges hoisting).find? 3 name = some found →
      IsFirst (DeclaredFor hoisting name) found [3, 2, 1, 0] := by
    intro name found hfound
    obtain ⟨chain, hchain, -, hfirst, -, -⟩ := find_nearest_declared orderly_hoisting 3 name
    obtain rfl := hchain.unique hway
    exact (hfirst found).mp hfound
  have hhoisted : (ofChanges hoisting).find? 3 "hoisted" = some 1 := by decide
  have hscoped : (ofChanges hoisting).find? 3 "scoped" = some 3 := by decide
  exact ⟨orderly_hoisting, hhoisted, hfirst _ _ hhoisted, hscoped, hfirst _ _ hscoped⟩

end Treeshake.ScopeForest
