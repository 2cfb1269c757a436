import Treeshake.Proofs.Fetch.Tasks
/-!
The numbering of fetched modules. Main statements: fetches that are complete lead to the same graph, in
whatever order their tasks were completed, and every module that arrived is numbered once.
-/
set_option autoImplicit false

namespace Treeshake

def shift (π : Equiv.Perm Nat) : Equiv.Perm Nat where
  toFun
    | 0 => 0
    | i + 1 => π i + 1
  invFun
    | 0 => 0
    | i + 1 => π.symm i + 1
  left_inv i := by cases i <;> simp
  right_inv i := by cases i <;> simp

theorem exists_perm {α : Type} {l l' : List α} (h : l.Perm l') :
    ∃ π : Equiv.Perm Nat, (∀ i, l'[π i]? = l[i]?) ∧ ∀ i, l.length ≤ i → π i = i := by
  induction h with
  | nil => exact ⟨.refl _, fun i => rfl, fun i _ => rfl⟩
  | cons a _ ih =>
    obtain ⟨π, hπ, hfix⟩ := ih
    refine ⟨shift π, fun i => ?_, fun i hi => ?_⟩
    · cases i with
      | zero => rfl
      | succ i => exact hπ i
    · cases i with
      | zero => rfl
      | succ i => exact congrArg (· + 1) (hfix i (Nat.le_of_succ_le_succ hi))
  | swap a b l =>
    refine ⟨Equiv.swap 0 1, fun i => ?_, fun i hi => ?_⟩
    · match i with
      | 0 | 1 => rfl
      | i + 2 => rw [Equiv.swap_apply_of_ne_of_ne (by omega) (by omega)]; rfl
    · simp only [List.length_cons] at hi
      exact Equiv.swap_apply_of_ne_of_ne (by omega) (by omega)
  | trans h _ ih ih' =>
    obtain ⟨π, hπ, hfix⟩ := ih
    obtain ⟨π', hπ', hfix'⟩ := ih'
    refine ⟨π.trans π', fun i => (hπ' (π i)).trans (hπ i), fun i hi => ?_⟩
    rw [Equiv.trans_apply, hfix i hi, hfix' i (h.length_eq ▸ hi)]

namespace Fetching

/-- Two fetches of the same modules, whose places of arrival a permutation relates. -/
structure Alike (π : Equiv.Perm Nat) (f f' : Fetching) : Prop where
  first : π 0 = 0
  nodup : f.ids.Nodup
  nodup' : f'.ids.Nodup
  same : (f'.modules.map (·.1)).Perm (f.modules.map (·.1))
  modules : ∀ i, (f'.modules[π i]?).map (·.1) = (f.modules[i]?).map (·.1)
  resolutions : ∀ i e e', f.modules[i]? = some e → f'.modules[π i]? = some e' →
    ∀ s ∈ e.1.sources, e'.2.get? s = e.2.get? s

variable {grammar : Grammar} {p : Pipeline} {root : String} {f f' : Fetching} {π : Equiv.Perm Nat}

theorem getElem?_ids (f : Fetching) (i : Nat) : f.ids[i]? = (f.modules[i]?).map (·.1.id) :=
  List.getElem?_map

theorem findIdx?_ids (h : f.ids.Nodup) {id : String} {i : Nat} :
    f.modules.findIdx? (·.1.id == id) = some i ↔ f.ids[i]? = some id := by
  have hidx : f.modules.findIdx? (·.1.id == id) = f.ids.idxOf? id := by
    rw [ids, List.idxOf?, List.findIdx?_map]
    rfl
  rw [hidx, List.idxOf?_eq_some_iff, List.getElem?_eq_some_iff]
  refine exists_congr fun hi => and_iff_left_of_imp fun heq j hj hj' => ?_
  exact absurd ((List.Nodup.getElem_inj_iff h).mp (hj'.trans heq.symm)) (Nat.ne_of_lt hj)

namespace Underway

variable (h : Underway grammar p root f) (hdone : f.tasks = [])
include h hdone

theorem nodup_ids : f.ids.Nodup := by
  have hasked := h.asked.nodup_iff.mpr h.nodup
  rwa [hdone, List.filterMap_nil, List.append_nil] at hasked

theorem nodup_modules : (f.modules.map (·.1)).Nodup := by
  refine List.Nodup.of_map Module.id ?_
  rw [List.map_map]
  exact h.nodup_ids hdone

theorem mem_modules {m : Module} : m ∈ f.modules.map (·.1) ↔
    Reached grammar p root m.id ∧ readModule grammar p m.id = .ok m := by
  rw [← h.mem_ids hdone, List.mem_map]
  constructor
  · rintro ⟨e, he, rfl⟩
    exact ⟨List.mem_map.mpr ⟨e, he, rfl⟩, h.read e he⟩
  · rintro ⟨hid, hm⟩
    obtain ⟨e, he, heq⟩ := List.mem_map.mp hid
    have hread := h.read e he
    rw [heq] at hread
    exact ⟨e, he, Except.ok.inj (hread.symm.trans hm)⟩

theorem ids_zero : f.ids[0]? = some root := by
  rw [← List.head?_eq_getElem?]
  exact h.first.resolve_right fun ⟨_, ht⟩ => by simp [hdone] at ht

theorem resolved {i : Nat} {e : Module × Table Resolution} (he : f.modules[i]? = some e) {s : String}
    (hs : s ∈ e.1.sources) : ∃ r, p.resolve s (some e.1.id) = .ok r ∧ e.2.get? s = some r := by
  obtain ⟨r, hr, hget, -⟩ := (h.settled i e he s hs).resolve_left fun ht => by simp [hdone] at ht
  exact ⟨r, hr, hget⟩

end Underway

theorem exists_alike (h : Underway grammar p root f) (h' : Underway grammar p root f')
    (hdone : f.tasks = []) (hdone' : f'.tasks = []) : ∃ π, Alike π f f' := by
  have hnodup := h.nodup_ids hdone
  have hnodup' := h'.nodup_ids hdone'
  have hperm : f.ids.Perm f'.ids := (List.perm_ext_iff_of_nodup hnodup hnodup').mpr fun id =>
    (h.mem_ids hdone).trans (h'.mem_ids hdone').symm
  have hsame : (f'.modules.map (·.1)).Perm (f.modules.map (·.1)) := by
    refine (List.perm_ext_iff_of_nodup (h'.nodup_modules hdone') (h.nodup_modules hdone)).mpr fun m => ?_
    rw [h.mem_modules hdone, h'.mem_modules hdone']
  obtain ⟨π, hπ, -⟩ := exists_perm hperm
  have hread : ∀ i e e', f.modules[i]? = some e → f'.modules[π i]? = some e' → e'.1 = e.1 := by
    intro i e e' he he'
    have hid : some e'.1.id = some e.1.id := by simpa [getElem?_ids, he, he'] using hπ i
    have hm := h.read e (List.mem_of_getElem? he)
    have hm' := h'.read e' (List.mem_of_getElem? he')
    rw [Option.some.inj hid] at hm'
    exact Except.ok.inj (hm'.symm.trans hm)
  refine ⟨π, ?_, hnodup, hnodup', hsame, fun i => ?_, fun i e e' he he' s hs => ?_⟩
  · have hzero : f'.ids[π 0]? = f'.ids[0]? := by
      rw [hπ 0, h.ids_zero hdone, h'.ids_zero hdone']
    have hlt : π 0 < f'.ids.length :=
      (List.getElem?_eq_some_iff.mp (hzero.trans (h'.ids_zero hdone'))).1
    exact (List.getElem?_inj hlt hnodup').mp hzero
  · have hid := hπ i
    rw [getElem?_ids, getElem?_ids] at hid
    cases he : f.modules[i]? with
    | none =>
      rw [he] at hid
      rw [Option.map_eq_none_iff.mp hid]
    | some e =>
      rw [he] at hid
      obtain ⟨e', he', -⟩ := Option.map_eq_some_iff.mp hid
      rw [he', Option.map_some, Option.map_some, hread i e e' he he']
  · obtain ⟨r, hr, hget⟩ := h.resolved hdone he hs
    have hmod := hread i e e' he he'
    obtain ⟨r', hr', hget'⟩ := h'.resolved hdone' he' (hmod ▸ hs)
    rw [hmod] at hr'
    rw [hget, hget', Except.ok.inj (hr'.symm.trans hr)]

namespace Alike

theorem ids (h : Alike π f f') (i : Nat) : f'.ids[π i]? = f.ids[i]? := by
  have hmap := congrArg (Option.map Module.id) (h.modules i)
  rw [Option.map_map, Option.map_map] at hmap
  rw [getElem?_ids, getElem?_ids]
  exact hmap

theorem findIdx? (h : Alike π f f') (id : String) :
    f'.modules.findIdx? (·.1.id == id) = (f.modules.findIdx? (·.1.id == id)).map π := by
  refine Option.ext fun j => ?_
  rw [findIdx?_ids h.nodup', Option.map_eq_some_iff]
  constructor
  · intro hj
    rw [← π.apply_symm_apply j, h.ids] at hj
    exact ⟨π.symm j, (findIdx?_ids h.nodup).mpr hj, π.apply_symm_apply j⟩
  · rintro ⟨i, hi, rfl⟩
    rw [h.ids]
    exact (findIdx?_ids h.nodup).mp hi

theorem module? (h : Alike π f f') (i : Nat) :
    f.modules[i]? = none ∧ f'.modules[π i]? = none ∨
      ∃ m rs rs', f.modules[i]? = some (m, rs) ∧ f'.modules[π i]? = some (m, rs') ∧
        ∀ s ∈ m.sources, rs'.get? s = rs.get? s := by
  have hm := h.modules i
  cases he : f.modules[i]? with
  | none =>
    rw [he] at hm
    exact .inl ⟨rfl, Option.map_eq_none_iff.mp hm⟩
  | some e =>
    rw [he] at hm
    obtain ⟨e', he', hmod⟩ := Option.map_eq_some_iff.mp hm
    refine .inr ⟨e.1, e.2, e'.2, rfl, ?_, h.resolutions i e e' he he'⟩
    rw [he']
    exact congrArg (fun m => some (m, e'.2)) hmod

theorem target? (h : Alike π f f') {rs rs' : Table Resolution} {s : String}
    (hs : rs'.get? s = rs.get? s) : f'.target? rs' s = (f.target? rs s).map π := by
  unfold Fetching.target?
  rw [hs]
  split
  · exact h.findIdx? _
  · rfl

theorem next (h : Alike π f f') (i : Nat) : f'.next (π i) = (f.next i).map π := by
  unfold Fetching.next
  obtain ⟨he, he'⟩ | ⟨m, rs, rs', he, he', hs⟩ := h.module? i
  · rw [he, he']
    rfl
  · rw [he, he']
    dsimp only
    rw [List.map_filterMap]
    exact List.filterMap_congr fun s hmem => h.target? (hs s hmem)

theorem walk (h : Alike π f f') (fuel : Nat) (pending visited : List Nat) :
    f'.walk fuel (pending.map π) (visited.map π) = (f.walk fuel pending visited).map π := by
  have hcontains : ∀ (is : List Nat) (i : Nat), (is.map π).contains (π i) = is.contains i := by
    simp
  induction fuel generalizing pending visited with
  | zero => rfl
  | succ fuel ih =>
    cases pending with
    | nil => rfl
    | cons i pending =>
      rw [List.map_cons, Fetching.walk, Fetching.walk, hcontains, h.next]
      split
      · exact ih pending visited
      · dsimp only
        have hfilter : ((f.next i).map π).filter (!(visited.map π ++ [π i]).contains ·) =
            ((f.next i).filter (!(visited ++ [i]).contains ·)).map π := by
          rw [List.filter_map]
          refine congrArg _ (List.filter_congr fun j _ => ?_)
          rw [Function.comp_apply, ← List.map_singleton, ← List.map_append, hcontains]
        rw [← ih, List.map_append, List.map_append, List.map_singleton, ← hfilter]

theorem order (h : Alike π f f') : f'.order = f.order.map π := by
  have hsources : (f'.modules.flatMap (·.1.sources)).length = (f.modules.flatMap (·.1.sources)).length := by
    have hperm := h.same.flatMap_right Module.sources
    rw [List.flatMap_map, List.flatMap_map] at hperm
    exact hperm.length_eq
  have hlength : f'.modules.length = f.modules.length := by simpa using h.same.length_eq
  have hwalk := h.walk ((f.modules.flatMap (·.1.sources)).length + f.modules.length + 2) [0] []
  rw [Fetching.order, hsources, hlength, Fetching.order, ← hwalk, List.map_singleton, h.first, List.map_nil]

theorem targets (h : Alike π f f') (order : List Nat) {rs rs' : Table Resolution}
    (externals : List External) (sources : List String) (hs : ∀ s ∈ sources, rs'.get? s = rs.get? s) :
    f'.targets (order.map π) rs' externals sources = f.targets order rs externals sources := by
  have hidx : ∀ i, (order.map π).idxOf? (π i) = order.idxOf? i := fun i => by
    rw [List.idxOf?, List.findIdx?_map, List.idxOf?]
    exact congrArg (List.findIdx? · order) (funext fun j => by simp)
  induction sources generalizing externals with
  | nil => rfl
  | cons s sources ih =>
    have ih := fun externals => ih externals fun s h => hs s (List.mem_cons_of_mem _ h)
    rw [targets_cons, targets_cons, hs s List.mem_cons_self]
    simp only [ih, h.findIdx?, Option.bind_map, Function.comp_def, hidx]

theorem canonical (h : Alike π f f') (order : List Nat) (externals : List External) (is : List Nat) :
    f'.canonical (order.map π) externals (is.map π) = f.canonical order externals is := by
  induction is generalizing externals with
  | nil => rfl
  | cons i is ih =>
    rw [List.map_cons, canonical_cons, canonical_cons]
    obtain ⟨he, he'⟩ | ⟨m, rs, rs', he, he', hs⟩ := h.module? i
    · rw [he, he']
      exact ih externals
    · rw [he, he']
      dsimp only
      rw [h.targets order externals m.sources hs, ih]

theorem graph (h : Alike π f f') : f'.graph = f.graph := by
  rw [Fetching.graph, Fetching.graph, h.order, h.canonical]

end Alike

def pace (f : Fetching) (pending visited : List Nat) : Nat :=
  pending.length + ((List.range f.modules.length).map (owed (fun i => (f.next i).length) visited)).sum

theorem pace_visit (f : Fetching) {i : Nat} {pending visited : List Nat} (hi : i ∉ visited) :
    f.pace ((f.next i).filter (!(visited ++ [i]).contains ·) ++ pending) (visited ++ [i]) + 1 ≤
      f.pace (i :: pending) visited := by
  have hsum : ((List.range f.modules.length).map
        (owed (fun i => (f.next i).length) (visited ++ [i]))).sum + (f.next i).length ≤
      ((List.range f.modules.length).map (owed (fun i => (f.next i).length) visited)).sum := by
    by_cases hlt : i < f.modules.length
    · exact sum_owed (fun i => (f.next i).length) (List.mem_range.mpr hlt) hi
    · have hnone : f.next i = [] := by
        rw [next, List.getElem?_eq_none (Nat.le_of_not_lt hlt)]
      rw [hnone]
      exact List.sum_le_sum fun j _ => owed_append_le _ visited i j
  have hfilter := List.length_filter_le (!(visited ++ [i]).contains ·) (f.next i)
  simp only [pace, List.length_append, List.length_cons]
  omega

/-- A walk that is long enough enters everything that it comes to. -/
theorem walk_closed (f : Fetching) {fuel : Nat} {pending visited : List Nat}
    (hfuel : f.pace pending visited ≤ fuel)
    (hclosed : ∀ i ∈ visited, ∀ j ∈ f.next i, j ∈ visited ∨ j ∈ pending) :
    (∀ i, i ∈ visited ∨ i ∈ pending → i ∈ f.walk fuel pending visited) ∧
      ∀ i ∈ f.walk fuel pending visited, ∀ j ∈ f.next i, j ∈ f.walk fuel pending visited := by
  induction fuel generalizing pending visited with
  | zero =>
    obtain rfl : pending = [] := List.length_eq_zero_iff.mp (by unfold pace at hfuel; omega)
    simpa [walk] using hclosed
  | succ fuel ih =>
    cases pending with
    | nil => simpa [walk] using hclosed
    | cons i pending =>
      rw [walk]
      split
      · next hi =>
        have hi : i ∈ visited := List.contains_iff_mem.mp hi
        have hdrop : ∀ j, j ∈ visited ∨ j ∈ i :: pending → j ∈ visited ∨ j ∈ pending := by
          rintro j (hj | hj)
          · exact .inl hj
          · rcases List.mem_cons.mp hj with rfl | hj
            · exact .inl hi
            · exact .inr hj
        have hpace : f.pace pending visited ≤ fuel := by
          simp only [pace, List.length_cons] at hfuel ⊢
          omega
        obtain ⟨hkeep, hnext⟩ := ih hpace fun a ha j hj => hdrop j (hclosed a ha j hj)
        exact ⟨fun j hj => hkeep j (hdrop j hj), hnext⟩
      · next hi =>
        have hi : i ∉ visited := fun h => hi (List.contains_iff_mem.mpr h)
        have hmove : ∀ j, j ∈ visited ∨ j ∈ i :: pending → j ∈ visited ++ [i] ∨
            j ∈ (f.next i).filter (!(visited ++ [i]).contains ·) ++ pending := by
          rintro j (hj | hj)
          · exact .inl (List.mem_append_left _ hj)
          · rcases List.mem_cons.mp hj with rfl | hj
            · exact .inl (List.mem_append_right _ List.mem_cons_self)
            · exact .inr (List.mem_append_right _ hj)
        obtain ⟨hkeep, hnext⟩ := ih (Nat.le_of_succ_le_succ ((f.pace_visit hi).trans hfuel)) (by
          intro a ha j hj
          rcases List.mem_append.mp ha with ha | ha
          · exact hmove j (hclosed a ha j hj)
          · obtain rfl := List.mem_singleton.mp ha
            by_cases hin : j ∈ visited ++ [a]
            · exact .inl hin
            · exact .inr (List.mem_append_left _ (List.mem_filter.mpr ⟨hj, by simpa using hin⟩)))
        exact ⟨fun j hj => hkeep j (hmove j hj), hnext⟩

theorem nodup_walk (f : Fetching) {fuel : Nat} {pending visited : List Nat} (hv : visited.Nodup) :
    (f.walk fuel pending visited).Nodup := by
  induction fuel generalizing pending visited with
  | zero => exact hv
  | succ fuel ih =>
    cases pending with
    | nil => exact hv
    | cons i pending =>
      rw [walk]
      split
      · exact ih hv
      · next hi =>
        refine ih (List.nodup_append.mpr ⟨hv, List.pairwise_singleton _ i, fun a ha b hb heq => ?_⟩)
        obtain rfl := List.mem_singleton.mp hb
        exact hi (List.contains_iff_mem.mpr (heq ▸ ha))

theorem pace_start (f : Fetching) :
    f.pace [0] [] ≤ (f.modules.flatMap (·.1.sources)).length + f.modules.length + 2 := by
  have howed : owed (fun i => (f.next i).length) [] = fun i => (f.next i).length :=
    funext fun i => if_neg List.not_mem_nil
  have hmap : f.modules.map (·.1.sources.length) =
      (List.range f.modules.length).map fun i => ((f.modules[i]?).map (·.1.sources.length)).getD 0 := by
    refine List.ext_getElem (by simp) fun i hi hi' => ?_
    simp at hi ⊢
    simp [hi]
  have hsum : ((List.range f.modules.length).map fun i => (f.next i).length).sum ≤
      (f.modules.flatMap (·.1.sources)).length := by
    rw [List.length_flatMap, hmap]
    refine List.sum_le_sum fun i _ => ?_
    rw [next]
    cases f.modules[i]? with
    | none => exact Nat.le_refl _
    | some e => exact List.length_filterMap_le _ _
  rw [pace, howed, List.length_singleton]
  omega

/-- One module leads to another, by their places of arrival: one of its sources was resolved to the other. -/
def Leads (f : Fetching) (i j : Nat) : Prop :=
  ∃ e, f.modules[i]? = some e ∧ ∃ s ∈ e.1.sources, ∃ id, e.2.get? s = some (.module id) ∧ f.ids[j]? = some id

theorem mem_next (h : f.ids.Nodup) {i j : Nat} : j ∈ f.next i ↔ f.Leads i j := by
  constructor
  · intro hj
    rw [next] at hj
    split at hj
    · cases hj
    · next m rs he =>
      obtain ⟨s, hs, htarget⟩ := List.mem_filterMap.mp hj
      rw [Fetching.target?] at htarget
      split at htarget
      · next id hres => exact ⟨(m, rs), he, s, hs, id, hres, (findIdx?_ids h).mp htarget⟩
      · cases htarget
  · rintro ⟨e, he, s, hs, id, hres, hj⟩
    rw [next, he]
    refine List.mem_filterMap.mpr ⟨s, hs, ?_⟩
    rw [Fetching.target?, hres]
    exact (findIdx?_ids h).mpr hj

def Known (ids : List String) : Resolution → Prop
  | .module id => id ∈ ids
  | .external _ => True

instance (ids : List String) : DecidablePred (Known ids)
  | .module id => inferInstanceAs (Decidable (id ∈ ids))
  | .external _ => inferInstanceAs (Decidable True)

/-- Fetched modules with different ids, whose sources were all resolved, and that the first leads to. -/
structure Complete (f : Fetching) : Prop where
  pos : 0 < f.modules.length
  nodup : f.ids.Nodup
  settled : ∀ e ∈ f.modules, ∀ s ∈ e.1.sources, ∃ r ∈ e.2.get? s, Known f.ids r
  reached : ∀ i < f.modules.length, Relation.ReflTransGen f.Leads 0 i

theorem Complete.perm_order (hc : f.Complete) : f.order.Perm (List.range f.modules.length) := by
  obtain ⟨hkeep, hnext⟩ := f.walk_closed f.pace_start fun i hi => by cases hi
  refine (List.perm_ext_iff_of_nodup (f.nodup_walk List.nodup_nil) List.nodup_range).mpr fun i => ?_
  rw [List.mem_range]
  refine ⟨mem_order f hc.pos i, fun hi => ?_⟩
  induction hc.reached i hi with
  | refl => exact hkeep 0 (.inr List.mem_cons_self)
  | @tail i j _ hleads ih =>
    have hlt : i < f.modules.length := by
      obtain ⟨e, he, -⟩ := hleads
      exact (List.getElem?_eq_some_iff.mp he).1
    exact hnext i (ih hlt) j ((mem_next hc.nodup).mpr hleads)

theorem Complete.mem_order_iff (hc : f.Complete) {i : Nat} : i ∈ f.order ↔ i < f.modules.length :=
  hc.perm_order.mem_iff.trans List.mem_range

theorem Underway.complete (h : Underway grammar p root f) (hdone : f.tasks = []) : f.Complete where
  pos := by
    have hlen : f.ids.length = f.modules.length := List.length_map _
    exact hlen ▸ (List.getElem?_eq_some_iff.mp (h.ids_zero hdone)).1
  nodup := h.nodup_ids hdone
  settled e he s hs := by
    obtain ⟨i, he⟩ := List.mem_iff_getElem?.mp he
    obtain ⟨r, -, hget, -, hrequested⟩ := (h.settled i e he s hs).resolve_left fun ht => by simp [hdone] at ht
    refine ⟨r, hget, ?_⟩
    cases r with
    | module id => exact (h.mem_ids hdone).mpr (h.reached id (hrequested id rfl))
    | external id => trivial
  reached i hi := by
    have hnodup := h.nodup_ids hdone
    have hreached : ∀ id, Reached grammar p root id →
        ∃ i, Relation.ReflTransGen f.Leads 0 i ∧ f.ids[i]? = some id := by
      intro id hid
      induction hid with
      | root => exact ⟨0, .refl, h.ids_zero hdone⟩
      | @source id id' s m hid hm hs hr ih =>
        obtain ⟨i, hi, hget⟩ := ih
        rw [getElem?_ids] at hget
        obtain ⟨e, he, rfl⟩ := Option.map_eq_some_iff.mp hget
        obtain rfl := Except.ok.inj ((h.read e (List.mem_of_getElem? he)).symm.trans hm)
        obtain ⟨r, hr', hres⟩ := h.resolved hdone he hs
        obtain rfl := Except.ok.inj (hr'.symm.trans hr)
        obtain ⟨j, hj⟩ := List.mem_iff_getElem?.mp ((h.mem_ids hdone).mpr (hid.source hm hs hr))
        exact ⟨j, hi.tail ⟨e, he, s, hs, id', hres, hj⟩, hj⟩
    have hlen : i < f.ids.length := (List.length_map _).symm ▸ hi
    have hget : f.ids[i]? = some f.ids[i] := List.getElem?_eq_getElem hlen
    obtain ⟨j, hj, hij⟩ := hreached _ ((h.mem_ids hdone).mp (List.mem_of_getElem? hget))
    rwa [(List.getElem?_inj hlen hnodup).mp (hget.trans hij.symm)]

end Fetching

end Treeshake
