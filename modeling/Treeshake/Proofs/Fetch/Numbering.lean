import Treeshake.Proofs.Fetch.Arrival
/-!
What numbers tell of fetched modules. Main statement: modules are numbered in the order of a recursive walk from the
entry, sources are given the number of what they were resolved to, external modules are numbered as they are imported
first, and declarations are kept with the module that declares them.
-/
set_option autoImplicit false

namespace Treeshake

theorem eraseDups_concat {α : Type} [BEq α] [LawfulBEq α] (l : List α) (a : α) :
    (l ++ [a]).eraseDups = if a ∈ l then l.eraseDups else l.eraseDups ++ [a] := by
  rw [List.eraseDups_append]
  split
  · next h => simp [List.removeAll, h]
  · next h => simp [List.removeAll, h, List.eraseDups_cons]

theorem nodup_eraseDups {α : Type} [BEq α] [LawfulBEq α] (l : List α) : l.eraseDups.Nodup := by
  induction l using List.reverseRecOn with
  | nil => exact List.nodup_nil
  | append_singleton l a ih =>
    rw [eraseDups_concat]
    split
    · exact ih
    · next h =>
      rw [← List.concat_eq_append]
      exact ih.concat (mt List.mem_eraseDups.mp h)

theorem exists_getElem?_flatMap {α β : Type} (F : α → List β) {l : List α} {n : Nat} {b : β}
    (h : (l.flatMap F)[n]? = some b) : ∃ k a j, l[k]? = some a ∧ (F a)[j]? = some b ∧
      n = ((l.take k).map fun a => (F a).length).sum + j := by
  induction l generalizing n with
  | nil => cases h
  | cons a l ih =>
    rw [List.flatMap_cons] at h
    by_cases hn : n < (F a).length
    · rw [List.getElem?_append_left hn] at h
      exact ⟨0, a, n, rfl, h, (Nat.zero_add n).symm⟩
    · rw [List.getElem?_append_right (Nat.le_of_not_lt hn)] at h
      obtain ⟨k, a', j, hk, hj, hsum⟩ := ih h
      refine ⟨k + 1, a', j, hk, hj, ?_⟩
      rw [List.take_succ_cons, List.map_cons, List.sum_cons]
      omega

namespace Fetching

variable {f : Fetching}

/-- The recursive walk: from the modules seen so far, through modules to come, to all that have been seen then. A module
that is new is followed by all that its sources lead to, in their order, before the next. -/
inductive Preorder (f : Fetching) : List Nat → List Nat → List Nat → Prop
  | done (seen : List Nat) : Preorder f seen [] seen
  | skip {seen pending after : List Nat} {i : Nat} (hi : i ∈ seen) (hrest : Preorder f seen pending after) :
      Preorder f seen (i :: pending) after
  | enter {seen pending within after : List Nat} {i : Nat} (hi : i ∉ seen)
      (hbelow : Preorder f (seen ++ [i]) (f.next i) within) (hrest : Preorder f within pending after) :
      Preorder f seen (i :: pending) after

namespace Preorder

variable {seen pending pending' after after' : List Nat}

theorem unique (h : f.Preorder seen pending after) (h' : f.Preorder seen pending after') : after = after' := by
  induction h generalizing after' with
  | done seen =>
    cases h'
    rfl
  | skip hi _ ih =>
    cases h' with
    | skip _ hrest => exact ih hrest
    | enter hnot _ _ => exact absurd hi hnot
  | enter hnot _ _ ihbelow ih =>
    cases h' with
    | skip hi _ => exact absurd hi hnot
    | enter _ hbelow hrest =>
      obtain rfl := ihbelow hbelow
      exact ih hrest

theorem subset (h : f.Preorder seen pending after) : seen ⊆ after := by
  induction h with
  | done seen => exact List.Subset.refl seen
  | skip _ _ ih => exact ih
  | enter _ _ _ ihbelow ih =>
    exact List.Subset.trans (List.subset_append_left _ _) (List.Subset.trans ihbelow ih)

theorem split (h : f.Preorder seen (pending ++ pending') after) :
    ∃ within, f.Preorder seen pending within ∧ f.Preorder within pending' after := by
  induction pending generalizing seen with
  | nil => exact ⟨seen, .done seen, h⟩
  | cons i pending ih =>
    cases h with
    | skip hi hrest =>
      obtain ⟨within, hfirst, hlast⟩ := ih hrest
      exact ⟨within, .skip hi hfirst, hlast⟩
    | enter hi hbelow hrest =>
      obtain ⟨within, hfirst, hlast⟩ := ih hrest
      exact ⟨within, .enter hi hbelow hfirst, hlast⟩

theorem of_filter {known : List Nat} (hknown : known ⊆ seen)
    (h : f.Preorder seen (pending.filter (!known.contains ·)) after) : f.Preorder seen pending after := by
  induction pending generalizing seen with
  | nil => exact h
  | cons i pending ih =>
    rw [List.filter_cons] at h
    split at h
    · cases h with
      | skip hi hrest => exact .skip hi (ih hknown hrest)
      | enter hi hbelow hrest =>
        refine .enter hi hbelow (ih ?_ hrest)
        exact List.Subset.trans hknown (List.Subset.trans (List.subset_append_left _ _) hbelow.subset)
    · next hi =>
      rw [Bool.not_eq_true', Bool.not_eq_false, List.contains_iff_mem] at hi
      exact .skip (hknown hi) (ih hknown h)

end Preorder

/-- A walk with a list of modules to come that is long enough goes as the recursive walk. -/
theorem preorder_walk {fuel : Nat} {pending visited : List Nat} (hfuel : f.pace pending visited ≤ fuel) :
    f.Preorder visited pending (f.walk fuel pending visited) := by
  induction fuel generalizing pending visited with
  | zero =>
    obtain rfl : pending = [] := List.length_eq_zero_iff.mp (by unfold pace at hfuel; omega)
    exact .done visited
  | succ fuel ih =>
    cases pending with
    | nil => exact .done visited
    | cons i pending =>
      rw [walk]
      split
      · next hi =>
        refine .skip (List.contains_iff_mem.mp hi) (ih ?_)
        simp only [pace, List.length_cons] at hfuel ⊢
        omega
      · next hi =>
        have hi : i ∉ visited := fun h => hi (List.contains_iff_mem.mpr h)
        obtain ⟨within, hbelow, hrest⟩ := (ih (Nat.le_of_succ_le_succ ((f.pace_visit hi).trans hfuel))).split
        exact .enter hi (hbelow.of_filter (List.Subset.refl _)) hrest

theorem preorder_iff_order {after : List Nat} : f.Preorder [] [0] after ↔ after = f.order := by
  have horder : f.Preorder [] [0] f.order := preorder_walk f.pace_start
  exact ⟨fun h => h.unique horder, fun h => h ▸ horder⟩

def outsides (resolutions : Table Resolution) (sources : List String) : List String :=
  sources.filterMap fun source =>
    match resolutions.get? source with
    | some (.external id) => some id
    | _ => none

def imported (f : Fetching) (i : Nat) : List String :=
  match f.modules[i]? with
  | none => []
  | some (m, resolutions) => outsides resolutions m.sources

def externalsOf (ids : List String) : List External := ids.eraseDups.map External.ofId

theorem externalsOf_concat (ids : List String) (id : String) : externalsOf (ids ++ [id]) =
    if id ∈ ids then externalsOf ids else externalsOf ids ++ [External.ofId id] := by
  rw [externalsOf, eraseDups_concat]
  split
  · rfl
  · rw [List.map_append]
    rfl

theorem prefix_externalsOf (ids ids' : List String) : externalsOf ids <+: externalsOf (ids ++ ids') := by
  rw [externalsOf, externalsOf, List.eraseDups_append, List.map_append]
  exact List.prefix_append _ _

theorem findIdx?_externalsOf {ids : List String} {id : String} {i : Nat}
    (h : (externalsOf ids).findIdx? (·.id == id) = some i) :
    id ∈ ids ∧ ∃ e, (externalsOf ids)[i]? = some e ∧ e.id = id := by
  obtain ⟨hi, heq, -⟩ := List.findIdx?_eq_some_iff_getElem.mp h
  have hid : (externalsOf ids)[i].id = id := eq_of_beq heq
  refine ⟨?_, _, List.getElem?_eq_getElem hi, hid⟩
  obtain ⟨id', hid', he⟩ := List.mem_map.mp (List.getElem_mem hi)
  rw [← he] at hid
  exact List.mem_eraseDups.mp (hid ▸ hid' : id ∈ ids.eraseDups)

theorem notMem_of_findIdx?_externalsOf {ids : List String} {id : String}
    (h : (externalsOf ids).findIdx? (·.id == id) = none) : id ∉ ids := by
  intro hid
  have he : External.ofId id ∈ externalsOf ids := List.mem_map_of_mem (List.mem_eraseDups.mpr hid)
  have hne : (External.ofId id).id ≠ id := by simpa using List.findIdx?_eq_none_iff.mp h _ he
  exact hne rfl

theorem outsides_cons (resolutions : Table Resolution) (source : String) (sources : List String) :
    outsides resolutions (source :: sources) =
      match resolutions.get? source with
      | some (.external id) => id :: outsides resolutions sources
      | _ => outsides resolutions sources := by
  rw [outsides, List.filterMap_cons]
  cases resolutions.get? source with
  | none => rfl
  | some r => cases r <;> rfl

/-- A target, among modules in an order and external modules, for what a source was resolved to. -/
def Stands (f : Fetching) (order : List Nat) (externals : List External) : Target → Resolution → Prop
  | .inside j, .module id => ∃ i, order[j]? = some i ∧ f.ids[i]? = some id
  | .outside j, .external id => ∃ e, externals[j]? = some e ∧ e.id = id
  | _, _ => False

theorem Stands.mono {order : List Nat} {externals externals' : List External} {t : Target} {r : Resolution}
    (hgrown : externals <+: externals') (h : f.Stands order externals t r) : f.Stands order externals' t r := by
  match t, r, h with
  | .inside _, .module _, h => exact h
  | .outside j, .external _, ⟨e, he, hid⟩ =>
    obtain ⟨rest, rfl⟩ := hgrown
    exact ⟨e, by rw [List.getElem?_append_left (List.getElem?_eq_some_iff.mp he).1, he], hid⟩

def Targeted (f : Fetching) (order : List Nat) (externals : List External) (resolutions : Table Resolution)
    (ts : Table Target) (sources : List String) : Prop :=
  ∀ s ∈ sources, ∃ r t, resolutions.get? s = some r ∧ ts.get? s = some t ∧ f.Stands order externals t r

theorem Targeted.cons {order : List Nat} {externals : List External} {resolutions : Table Resolution}
    {ts : Table Target} {source : String} {sources : List String} {t : Target} {r : Resolution}
    (h : f.Targeted order externals resolutions ts sources) (hr : resolutions.get? source = some r)
    (ht : f.Stands order externals t r) :
    f.Targeted order externals resolutions ((source, t) :: ts) (source :: sources) := by
  intro s hs
  by_cases heq : s = source
  · subst heq
    exact ⟨r, t, hr, List.lookup_cons_self, ht⟩
  · obtain ⟨r', t', hr', ht', hstands⟩ := h s ((List.mem_cons.mp hs).resolve_left heq)
    refine ⟨r', t', hr', ?_, hstands⟩
    rw [Table.get?, List.lookup_cons, beq_eq_false_iff_ne.mpr heq]
    exact ht'

theorem targeted_targets {order : List Nat} {resolutions : Table Resolution} (ids : List String) {sources : List String}
    (hnodup : f.ids.Nodup) (hplaced : ∀ id ∈ f.ids, ∃ i ∈ order, f.ids[i]? = some id)
    (hsettled : ∀ s ∈ sources, ∃ r ∈ resolutions.get? s, Known f.ids r) :
    (f.targets order resolutions (externalsOf ids) sources).2 = externalsOf (ids ++ outsides resolutions sources) ∧
      f.Targeted order (externalsOf (ids ++ outsides resolutions sources)) resolutions
        (f.targets order resolutions (externalsOf ids) sources).1 sources := by
  induction sources generalizing ids with
  | nil => exact ⟨by rw [targets, outsides, List.filterMap_nil, List.append_nil], List.forall_mem_nil _⟩
  | cons source sources ih =>
    obtain ⟨⟨r, hr, hknown⟩, hsettled⟩ := List.forall_mem_cons.mp hsettled
    rw [Option.mem_def] at hr
    rw [targets_cons, outsides_cons, hr]
    cases r with
    | module id =>
      obtain ⟨hexternals, htargeted⟩ := ih ids hsettled
      obtain ⟨i, hi, hid⟩ := hplaced id hknown
      obtain ⟨j, hj⟩ := Option.isSome_iff_exists.mp (List.isSome_idxOf?.mpr hi)
      obtain ⟨hlt, hji, -⟩ := List.idxOf?_eq_some_iff.mp hj
      dsimp only
      rw [(findIdx?_ids hnodup).mpr hid, Option.bind_some, hj]
      exact ⟨hexternals, htargeted.cons hr ⟨i, hji ▸ List.getElem?_eq_getElem hlt, hid⟩⟩
    | external id =>
      dsimp only
      have happend : ids ++ id :: outsides resolutions sources = (ids ++ [id]) ++ outsides resolutions sources := by
        rw [List.append_assoc, List.singleton_append]
      obtain ⟨hexternals, htargeted⟩ := ih (ids ++ [id]) hsettled
      rw [← happend] at hexternals htargeted
      rw [externalsOf_concat] at hexternals htargeted
      split
      · next i hi =>
        obtain ⟨hmem, e, he, hid⟩ := findIdx?_externalsOf hi
        rw [if_pos hmem] at hexternals htargeted
        have hstands : f.Stands order (externalsOf ids) (.outside i) (.external id) := ⟨e, he, hid⟩
        exact ⟨hexternals, htargeted.cons hr (hstands.mono (prefix_externalsOf ids _))⟩
      · next hnone =>
        have hmem := notMem_of_findIdx?_externalsOf hnone
        rw [if_neg hmem] at hexternals htargeted
        have hstands : f.Stands order (externalsOf ids ++ [External.ofId id]) (.outside (externalsOf ids).length)
            (.external id) := ⟨External.ofId id, List.getElem?_concat_length, rfl⟩
        have hgrown := prefix_externalsOf (ids ++ [id]) (outsides resolutions sources)
        rw [← happend, externalsOf_concat, if_neg hmem] at hgrown
        exact ⟨hexternals, htargeted.cons hr (hstands.mono hgrown)⟩

theorem Targeted.mono {order : List Nat} {externals externals' : List External} {resolutions : Table Resolution}
    {ts : Table Target} {sources : List String} (hgrown : externals <+: externals')
    (h : f.Targeted order externals resolutions ts sources) :
    f.Targeted order externals' resolutions ts sources := by
  intro s hs
  obtain ⟨r, t, hr, ht, hstands⟩ := h s hs
  exact ⟨r, t, hr, ht, hstands.mono hgrown⟩

theorem imported_eq {i : Nat} {m : Module} {resolutions : Table Resolution}
    (h : f.modules[i]? = some (m, resolutions)) : f.imported i = outsides resolutions m.sources := by
  rw [imported, h]

theorem targeted_canonical (hc : f.Complete) {is : List Nat} (ids : List String)
    (his : ∀ i ∈ is, i < f.modules.length) :
    (f.canonical f.order (externalsOf ids) is).2 = externalsOf (ids ++ is.flatMap f.imported) ∧
      ∀ k i : Nat, is[k]? = some i → ∃ (m : Module) (resolutions : Table Resolution) (ts : Table Target),
        f.modules[i]? = some (m, resolutions) ∧
        (f.canonical f.order (externalsOf ids) is).1[k]? = some (m, ts) ∧
        f.Targeted f.order (externalsOf (ids ++ is.flatMap f.imported)) resolutions ts m.sources := by
  induction is generalizing ids with
  | nil => exact ⟨by rw [canonical, List.flatMap_nil, List.append_nil], fun k i hk => (by cases hk)⟩
  | cons i is ih =>
    obtain ⟨hi, his⟩ := List.forall_mem_cons.mp his
    obtain ⟨⟨m, resolutions⟩, he⟩ : ∃ e, f.modules[i]? = some e := ⟨_, List.getElem?_eq_getElem hi⟩
    have hplaced : ∀ id ∈ f.ids, ∃ i ∈ f.order, f.ids[i]? = some id := by
      intro id hid
      obtain ⟨j, hj⟩ := List.mem_iff_getElem?.mp hid
      have hlt := (List.getElem?_eq_some_iff.mp hj).1
      rw [Fetching.ids, List.length_map] at hlt
      exact ⟨j, hc.mem_order_iff.mpr hlt, hj⟩
    obtain ⟨hexternals, htargeted⟩ :=
      targeted_targets ids hc.nodup hplaced (hc.settled _ (List.mem_of_getElem? he))
    obtain ⟨hrest, hmodules⟩ := ih (ids ++ outsides resolutions m.sources) his
    rw [canonical_cons, he]
    dsimp only
    rw [hexternals, List.flatMap_cons, imported_eq he, ← List.append_assoc]
    refine ⟨hrest, fun k j hk => ?_⟩
    cases k with
    | zero =>
      cases hk
      exact ⟨m, resolutions, _, he, rfl, htargeted.mono (prefix_externalsOf _ _)⟩
    | succ k => exact hmodules k j hk

/-- What a target of a graph is: the module, or the external module, that a source was resolved to. -/
def Denotes (g : Graph) : Target → Resolution → Prop
  | .inside j, .module id => ∃ m, g.modules[j]? = some m ∧ m.id = id
  | .outside j, .external id => ∃ e, g.externals[j]? = some e ∧ e.id = id
  | _, _ => False

/-- A graph that has fetched modules at the places of a recursive walk, sources with the targets that they were resolved
to, external modules as they were imported first, and declarations that know the modules that have them. -/
structure Numbers (f : Fetching) (g : Graph) : Prop where
  length : g.modules.length = f.modules.length
  modules : ∀ k i : Nat, f.order[k]? = some i → ∃ (m : Module) (resolutions : Table Resolution) (n : LinkedModule),
    f.modules[i]? = some (m, resolutions) ∧ g.modules[k]? = some n ∧ n.toModule = m ∧
    ∀ s ∈ m.sources, ∃ r t, resolutions.get? s = some r ∧ n.targets.get? s = some t ∧ Denotes g t r
  externals : g.externals = (f.order.flatMap f.imported).eraseDups.map External.ofId
  distinct : (g.externals.map (·.id)).Nodup
  declarations : ∀ (id : Nat) (d : Declaration) (q : StatementRef), g.declarations[id]? = some d →
    d.statement = some q → ∀ k, (∃ n, g.modules[k]? = some n ∧ id ∈ n.declarations.values) ↔ k = q.module

def numberIn (f : Fetching) (l : List Nat) (i : Nat) : Nat :=
  ((l.take (l.idxOf i)).map fun i => (f.labelled i).length).sum

theorem numberIn_eq {l : List Nat} (hl : l.Nodup) {k i : Nat} (hk : l[k]? = some i) :
    f.numberIn l i = ((l.take k).map fun i => (f.labelled i).length).sum := by
  obtain ⟨hlt, rfl⟩ := List.getElem?_eq_some_iff.mp hk
  rw [numberIn, hl.idxOf_getElem k hlt]

theorem mem_values_declareBindings {first id : Nat} {m : Module} :
    id ∈ (Graph.declareBindings first 0 m).1.values ↔ ∃ j < m.bindings.length, id = first + j := by
  rw [Graph.declareBindings, Table.values, List.mem_map]
  constructor
  · rintro ⟨e, he, rfl⟩
    obtain ⟨j, hj, rfl⟩ := List.mem_mapIdx.mp he
    exact ⟨j, hj, rfl⟩
  · rintro ⟨j, hj, rfl⟩
    exact ⟨_, List.mem_mapIdx.mpr ⟨j, hj, rfl⟩, rfl⟩

theorem length_declared {i : Nat} {m : Module} {resolutions : Table Resolution}
    (h : f.modules[i]? = some (m, resolutions)) : (f.declared i).length = m.bindings.length := by
  rw [declared, h]
  exact List.length_map _

theorem eq_of_numberIn {l : List Nat} {i i' j j' : Nat} (hi : i ∈ l) (hi' : i' ∈ l) (hj : j < (f.declared i).length)
    (hj' : j' < (f.declared i').length) (h : f.numberIn l i + j = f.numberIn l i' + j') : i = i' := by
  have hlabel : ∀ {i j : Nat}, i ∈ l → j < (f.declared i).length →
      ∃ x, (l.flatMap f.labelled)[f.numberIn l i + j]? = some x ∧ x.1 = i := by
    intro i j hi hj
    rw [← length_labelled] at hj
    refine ⟨_, (getElem?_flatMap_take f.labelled (List.getElem?_idxOf hi) hj).trans (List.getElem?_eq_getElem hj), ?_⟩
    simp [labelled]
  obtain ⟨x, hx, rfl⟩ := hlabel hi hj
  obtain ⟨x', hx', rfl⟩ := hlabel hi' hj'
  rw [h] at hx
  exact congrArg Prod.fst (Option.some.inj (hx.symm.trans hx'))

/-- A graph that has fetched modules in their order, and their declarations one module after the other in an order of
its own. -/
structure Arranges (f : Fetching) (l : List Nat) (g : Graph) : Prop where
  perm : l.Perm (List.range f.modules.length)
  length : g.modules.length = f.order.length
  externals : g.externals = (f.canonical f.order [] f.order).2
  declarations : g.declarations = l.flatMap f.declared
  modules : ∀ (k i : Nat) (m : Module) (ts : Table Target), f.order[k]? = some i →
    (f.canonical f.order [] f.order).1[k]? = some (m, ts) →
    g.modules[k]? = some { m with targets := ts, declarations := (Graph.declareBindings (f.numberIn l i) 0 m).1 }

namespace Arranges

variable {l : List Nat} {g : Graph} (h : f.Arranges l g)
include h

theorem mem_iff {i : Nat} : i ∈ l ↔ i < f.modules.length := h.perm.mem_iff.trans List.mem_range

theorem statement {id : Nat} {d : Declaration} {q : StatementRef} (hd : g.declarations[id]? = some d)
    (hq : d.statement = some q) : ∃ i j, i ∈ l ∧ j < (f.declared i).length ∧ id = f.numberIn l i + j ∧
      q.module = f.order.idxOf i := by
  rw [h.declarations] at hd
  obtain ⟨place, i, j, hi, hj, rfl⟩ := exists_getElem?_flatMap f.declared hd
  have hnumber : ((l.take place).map fun i => (f.declared i).length).sum = f.numberIn l i := by
    rw [numberIn_eq (h.perm.nodup_iff.mpr List.nodup_range) hi]
    exact congrArg (fun F => ((l.take place).map F).sum) (funext fun i => (f.length_labelled i).symm)
  have hmem : i ∈ l := List.mem_of_getElem? hi
  refine ⟨i, j, hmem, (List.getElem?_eq_some_iff.mp hj).1, congrArg (· + j) hnumber, ?_⟩
  obtain ⟨⟨m, resolutions⟩, hm⟩ : ∃ e, f.modules[i]? = some e := ⟨_, List.getElem?_eq_getElem (h.mem_iff.mp hmem)⟩
  rw [declared, hm] at hj
  obtain ⟨b, -, rfl⟩ := List.mem_map.mp (List.mem_of_getElem? hj)
  obtain ⟨index, -, rfl⟩ := Option.map_eq_some_iff.mp hq
  rfl

variable (hc : f.Complete)
include hc

theorem externals_eq : g.externals = externalsOf (f.order.flatMap f.imported) :=
  h.externals.trans (targeted_canonical hc [] fun _ => hc.mem_order_iff.mp).1

theorem place {k i : Nat} (hk : f.order[k]? = some i) :
    ∃ (m : Module) (resolutions : Table Resolution) (ts : Table Target), f.modules[i]? = some (m, resolutions) ∧
      g.modules[k]? = some { m with targets := ts, declarations := (Graph.declareBindings (f.numberIn l i) 0 m).1 } ∧
      f.Targeted f.order g.externals resolutions ts m.sources := by
  obtain ⟨m, resolutions, ts, hm, hcanonical, hts⟩ := (targeted_canonical hc [] fun _ => hc.mem_order_iff.mp).2 k i hk
  exact ⟨m, resolutions, ts, hm, h.modules k i m ts hk hcanonical, h.externals_eq hc ▸ hts⟩

theorem denotes {t : Target} {r : Resolution} (hstands : f.Stands f.order g.externals t r) : Denotes g t r := by
  match t, r, hstands with
  | .outside _, .external _, hstands => exact hstands
  | .inside j, .module id, ⟨i, hi, hid⟩ =>
    obtain ⟨m, resolutions, ts, hm, hn, -⟩ := h.place hc hi
    rw [getElem?_ids, hm] at hid
    exact ⟨_, hn, Option.some.inj hid⟩

theorem has_iff {k id : Nat} : (∃ n, g.modules[k]? = some n ∧ id ∈ n.declarations.values) ↔
    ∃ i j, f.order[k]? = some i ∧ j < (f.declared i).length ∧ id = f.numberIn l i + j := by
  constructor
  · rintro ⟨n, hn, hvalue⟩
    have hk : k < f.order.length := h.length ▸ (List.getElem?_eq_some_iff.mp hn).1
    have hi := List.getElem?_eq_getElem hk
    obtain ⟨m, resolutions, ts, hm, hn', -⟩ := h.place hc hi
    obtain rfl := Option.some.inj (hn.symm.trans hn')
    obtain ⟨j, hj, hsum⟩ := mem_values_declareBindings.mp hvalue
    exact ⟨_, j, hi, (length_declared hm).symm ▸ hj, hsum⟩
  · rintro ⟨i, j, hi, hj, rfl⟩
    obtain ⟨m, resolutions, ts, hm, hn, -⟩ := h.place hc hi
    exact ⟨_, hn, mem_values_declareBindings.mpr ⟨j, length_declared hm ▸ hj, rfl⟩⟩

theorem numbers : f.Numbers g := by
  have hnodup : f.order.Nodup := hc.perm_order.nodup_iff.mpr List.nodup_range
  have hmem : ∀ i, i ∈ f.order ↔ i ∈ l := fun _ => hc.mem_order_iff.trans h.mem_iff.symm
  refine ⟨?_, fun k i hk => ?_, h.externals_eq hc, ?_, fun id d q hd hq k => ?_⟩
  · rw [h.length, hc.perm_order.length_eq, List.length_range]
  · obtain ⟨m, resolutions, ts, hm, hn, hts⟩ := h.place hc hk
    refine ⟨m, resolutions, _, hm, hn, rfl, fun s hs => ?_⟩
    obtain ⟨r, t, hr, ht, hstands⟩ := hts s hs
    exact ⟨r, t, hr, ht, h.denotes hc hstands⟩
  · rw [h.externals_eq hc, externalsOf, List.map_map]
    exact (List.map_id _).symm ▸ nodup_eraseDups _
  · obtain ⟨i, j, hi, hj, rfl, hmodule⟩ := h.statement hd hq
    rw [h.has_iff hc, hmodule]
    constructor
    · rintro ⟨i', j', hi', hj', hsum⟩
      obtain ⟨hk, rfl⟩ := List.getElem?_eq_some_iff.mp hi'
      rw [eq_of_numberIn hi ((hmem _).mp (List.getElem_mem hk)) hj hj' hsum, hnodup.idxOf_getElem k hk]
    · rintro rfl
      exact ⟨i, j, List.getElem?_idxOf ((hmem i).mpr hi), hj, rfl⟩

end Arranges

theorem Complete.arranges_graph (hc : f.Complete) : f.Arranges f.order f.graph where
  perm := hc.perm_order
  length := (Graph.length_linkAll ..).trans hc.length_canonical_order
  externals := rfl
  declarations := hc.declarations_graph
  modules k i m ts hk hcanonical := by
    have hgraph : f.graph.modules = (Graph.linkAll 0 0 (f.canonical f.order [] f.order).1).1 := rfl
    rw [hgraph, Graph.linkAll_modules, hcanonical, hc.sum_bindings, Nat.zero_add,
      numberIn_eq (hc.perm_order.nodup_iff.mpr List.nodup_range) hk]
    rfl

theorem Complete.arranges_arrived (hc : f.Complete) : f.Arranges (List.range f.modules.length) f.arrived where
  perm := .refl _
  length := by
    have harrived : f.arrived.modules.length = (f.order.zip (f.canonical f.order [] f.order).1).length :=
      List.length_map _
    rw [harrived, List.length_zip, hc.length_canonical_order, Nat.min_self]
  externals := rfl
  declarations := rfl
  modules k i m ts hk hcanonical := by
    have harrived : f.arrived.modules = (f.order.zip (f.canonical f.order [] f.order).1).map fun e =>
        { e.2.1 with
          targets := e.2.2
          declarations := (Graph.declareBindings (f.firstNumber e.1) 0 e.2.1).1 } := rfl
    have hi : i < f.modules.length := hc.mem_order_iff.mp (List.mem_of_getElem? hk)
    rw [harrived, List.getElem?_map, (List.getElem?_zip_eq_some (z := (i, m, ts))).mpr ⟨hk, hcanonical⟩,
      numberIn_eq List.nodup_range (List.getElem?_range hi), sum_labelled_range hi]
    rfl

/-- Modules that were fetched completely are numbered in the order of the recursive walk from the entry, each of them
once, and so that all else agrees with their numbers, whether declarations are numbered in the end or on arrival. -/
theorem canonical_numbering (hc : f.Complete) :
    (∀ after, f.Preorder [] [0] after ↔ after = f.order) ∧ f.order.Perm (List.range f.modules.length) ∧
      f.Numbers f.graph ∧ f.Numbers f.arrived :=
  ⟨fun _ => preorder_iff_order, hc.perm_order, hc.arranges_graph.numbers hc, hc.arranges_arrived.numbers hc⟩

/-- Four modules in the order in which they arrived. The second and the last import the third, and the second also the
first, which imports both of them. -/
def timely : Fetching where
  tasks := []
  requested := ["/main", "/fast", "/slow", "/shared"]
  modules := [
    ({ Graph.wholeModule "/main" .importing [] [] [] [] with sources := ["./slow", "./fast", "ext"] },
      [("./fast", .module "/fast"), ("ext", .external "ext"), ("./slow", .module "/slow")]),
    ({ Graph.wholeModule "/fast" .importing [] [] [] [] with sources := ["./shared", "ext", "./main"] },
      [("./shared", .module "/shared"), ("ext", .external "ext"), ("./main", .module "/main")]),
    (Graph.wholeModule "/shared" .variable [] [] [] [⟨"x", "x", some 0⟩], []),
    ({ Graph.wholeModule "/slow" .importing [] [] [] [] with sources := ["./shared", "other"] },
      [("./shared", .module "/shared"), ("other", .external "other")])]

theorem complete_timely : timely.Complete where
  pos := by decide
  nodup := by decide
  settled := by decide
  reached i hi := by
    have hslow : timely.Leads 0 3 := ⟨_, rfl, "./slow", by decide, "/slow", rfl, rfl⟩
    have hfast : timely.Leads 0 1 := ⟨_, rfl, "./fast", by decide, "/fast", rfl, rfl⟩
    have hshared : timely.Leads 1 2 := ⟨_, rfl, "./shared", by decide, "/shared", rfl, rfl⟩
    match i, hi with
    | 0, _ => exact .refl
    | 1, _ => exact .single hfast
    | 2, _ => exact .tail (.single hfast) hshared
    | 3, _ => exact .single hslow

theorem canonical_numbering_timely : timely.Complete ∧ timely.Preorder [] [0] [0, 3, 2, 1] ∧
    timely.graph.modules.map (·.id) = ["/main", "/slow", "/shared", "/fast"] ∧
    timely.graph.externals.map (·.id) = ["ext", "other"] ∧
    timely.Numbers timely.graph ∧ timely.Numbers timely.arrived := by
  obtain ⟨hpreorder, -, hgraph, harrived⟩ := canonical_numbering complete_timely
  exact ⟨complete_timely, (hpreorder _).mpr (by decide +kernel), by decide +kernel, by decide +kernel, hgraph, harrived⟩

end Fetching

end Treeshake
