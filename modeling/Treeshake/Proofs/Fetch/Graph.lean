import Treeshake.Fetch.Graph
import Treeshake.Proofs.Graph.Linked
/-!
Fetched graphs. Main statement: the graph that an entry leads to is linked once its references are bound.
-/
set_option autoImplicit false

namespace Treeshake

namespace Fetching

variable {grammar : Grammar} {p : Pipeline} {f f' : Fetching}

def Fresh (f : Fetching) : Prop := ∀ e ∈ f.modules, e.1.Fresh

theorem modules_request (f : Fetching) (id importer : String) :
    (f.request id importer).modules = f.modules := by
  unfold request
  split <;> rfl

section

-- what holds of every module that is read from what the pipeline gives
variable {P : Module → Prop}
  (hP : ∀ id source m, p.fetch id = .ok source → Module.parse grammar id source = .ok m → P m)
include hP

theorem arrived_load {id : String} {importer : Option String} (hf : ∀ e ∈ f.modules, P e.1)
    (h : f.load grammar p id importer = .ok f') : ∀ e ∈ f'.modules, P e.1 := by
  obtain ⟨source, hsource, h⟩ := bind_eq_ok.mp h
  obtain ⟨m, hm, h⟩ := bind_eq_ok.mp h
  obtain rfl := Except.ok.inj h
  exact List.forall_mem_append.mpr
    ⟨hf, List.forall_mem_singleton.mpr (hP id source m (mapError_eq_ok.mp hsource) hm)⟩

omit hP in
theorem arrived_resolve {importer : Nat} {source : String} (hf : ∀ e ∈ f.modules, P e.1)
    (h : f.resolve p importer source = .ok f') : ∀ e ∈ f'.modules, P e.1 := by
  unfold resolve at h
  split at h
  · obtain rfl := Except.ok.inj h
    exact hf
  · next m resolutions _ =>
    obtain ⟨r, -, h⟩ := bind_eq_ok.mp h
    have hinsert : ∀ g : Fetching, g.modules = f.modules →
        (.ok { g with modules := g.modules.modify importer fun e => (e.1, e.2.insert source r) } :
          Except Error Fetching) = .ok f' → ∀ e ∈ f'.modules, P e.1 := by
      intro g hg h
      obtain rfl := Except.ok.inj h
      intro e he
      obtain ⟨i, hi⟩ := List.mem_iff_getElem?.mp he
      rw [List.getElem?_modify, hg] at hi
      obtain ⟨e', he', rfl⟩ := Option.map_eq_some_iff.mp hi
      have harrived := hf e' (List.mem_of_getElem? he')
      split <;> exact harrived
    split at h
    · split at h
      · cases h
      · exact hinsert _ (modules_request f _ m.id) h
    · exact hinsert f rfl h

theorem arrived_step {i : Nat} (hf : ∀ e ∈ f.modules, P e.1) (h : f.step grammar p i = .ok f') :
    ∀ e ∈ f'.modules, P e.1 := by
  unfold step at h
  split at h
  · obtain rfl := Except.ok.inj h
    exact hf
  · next task _ =>
    cases task with
    | load id importer => exact arrived_load hP (f := { f with tasks := f.tasks.eraseIdx i }) hf h
    | resolve importer source => exact arrived_resolve (f := { f with tasks := f.tasks.eraseIdx i }) hf h

theorem arrived_run {entry : String} {fuel : Nat} (hf : ∀ e ∈ f.modules, P e.1)
    (h : run grammar p entry fuel f = .ok f') : ∀ e ∈ f'.modules, P e.1 := by
  induction fuel generalizing f with
  | zero =>
    rw [run] at h
    split at h
    · obtain rfl := Except.ok.inj h
      exact hf
    · cases h
  | succ fuel ih =>
    rw [run] at h
    split at h
    · obtain rfl := Except.ok.inj h
      exact hf
    · obtain ⟨f₁, hf₁, h⟩ := bind_eq_ok.mp h
      exact ih (arrived_step hP hf hf₁) h

end

theorem forall_arrived {P : Module → Prop} {entry id : String} {fuel : Nat}
    (hP : ∀ id source m, p.fetch id = .ok source → Module.parse grammar id source = .ok m → P m)
    (h : run grammar p entry fuel (start id) = .ok f) : ∀ e ∈ f.modules, P e.1 :=
  arrived_run hP (List.forall_mem_nil _) h

theorem fresh_run {entry id : String} {fuel : Nat} (h : run grammar p entry fuel (start id) = .ok f) : f.Fresh :=
  forall_arrived (fun _ _ _ _ hm => Module.fresh_parse hm) h

/-- Where sources lead: the sources are among those given, and their targets among so many. -/
def Leading (sources : List String) (modules externals : Nat) (ts : Table Target) : Prop :=
  ∀ s t, (s, t) ∈ ts → s ∈ sources ∧ (∀ i, t = .inside i → i < modules) ∧
    ∀ i, t = .outside i → i < externals

theorem Leading.mono {sources : List String} {modules externals externals' : Nat} {ts : Table Target}
    (h : Leading sources modules externals ts) (hle : externals ≤ externals') :
    Leading sources modules externals' ts := by
  intro s t hmem
  obtain ⟨hs, hi, ho⟩ := h s t hmem
  exact ⟨hs, hi, fun i hi => Nat.lt_of_lt_of_le (ho i hi) hle⟩

theorem Leading.cons {source : String} {sources : List String} {modules externals : Nat}
    {ts : Table Target} {t : Target} (h : Leading sources modules externals ts)
    (hi : ∀ i, t = .inside i → i < modules) (ho : ∀ i, t = .outside i → i < externals) :
    Leading (source :: sources) modules externals ((source, t) :: ts) := by
  intro s t' hmem
  rcases List.mem_cons.mp hmem with heq | hmem
  · obtain ⟨rfl, rfl⟩ := Prod.mk.inj heq
    exact ⟨List.mem_cons_self, hi, ho⟩
  · obtain ⟨hs, h⟩ := h s t' hmem
    exact ⟨List.mem_cons_of_mem _ hs, h⟩

theorem Leading.skip {source : String} {sources : List String} {modules externals : Nat}
    {ts : Table Target} (h : Leading sources modules externals ts) :
    Leading (source :: sources) modules externals ts := fun s t hmem =>
  ⟨List.mem_cons_of_mem _ (h s t hmem).1, (h s t hmem).2⟩

def Unused (least : Nat) (externals : List External) : Prop :=
  least ≤ externals.length ∧ ∀ e ∈ externals, e.declarations = []

theorem targets_cons (f : Fetching) (order : List Nat) (resolutions : Table Resolution)
    (externals : List External) (source : String) (sources : List String) :
    f.targets order resolutions externals (source :: sources) =
      let rest := f.targets order resolutions externals sources
      match resolutions.get? source with
      | some (.module id) =>
        match (f.modules.findIdx? (·.1.id == id)).bind order.idxOf? with
        | some i => ((source, .inside i) :: rest.1, rest.2)
        | none => rest
      | some (.external id) =>
        match externals.findIdx? (·.id == id) with
        | some i => ((source, .outside i) :: rest.1, rest.2)
        | none =>
          let all := f.targets order resolutions (externals ++ [External.ofId id]) sources
          ((source, .outside externals.length) :: all.1, all.2)
      | none => rest := by
  cases h : resolutions.get? source with
  | none => simp only [targets, h]
  | some r =>
    cases r with
    | module id =>
      cases hi : (f.modules.findIdx? (·.1.id == id)).bind order.idxOf? <;> simp only [targets, h, hi]
    | external id => cases hi : externals.findIdx? (·.id == id) <;> simp only [targets, h, hi]

theorem targets_spec (f : Fetching) (order : List Nat) (resolutions : Table Resolution)
    (externals : List External) (sources : List String) (he : ∀ e ∈ externals, e.declarations = []) :
    Unused externals.length (f.targets order resolutions externals sources).2 ∧
      Leading sources order.length (f.targets order resolutions externals sources).2.length
        (f.targets order resolutions externals sources).1 := by
  induction sources generalizing externals with
  | nil => exact ⟨⟨Nat.le_refl _, he⟩, fun s t hmem => by cases hmem⟩
  | cons source sources ih =>
    obtain ⟨hu, hl⟩ := ih externals he
    rw [targets_cons]
    dsimp only
    split
    · split
      · next i hi =>
        refine ⟨hu, hl.cons (fun j hj => ?_) fun j hj => (by cases hj)⟩
        cases hj
        obtain ⟨k, -, hk⟩ := Option.bind_eq_some_iff.mp hi
        exact (List.idxOf?_eq_some_iff.mp hk).1
      · exact ⟨hu, hl.skip⟩
    · next id _ =>
      split
      · next i hi =>
        refine ⟨hu, hl.cons (fun j hj => (by cases hj)) fun j hj => ?_⟩
        cases hj
        exact Nat.lt_of_lt_of_le (List.findIdx?_eq_some_iff_getElem.mp hi).1 hu.1
      · have he' : ∀ e ∈ externals ++ [External.ofId id], e.declarations = [] := by
          intro e hmem
          rcases List.mem_append.mp hmem with hmem | hmem
          · exact he e hmem
          · obtain rfl := List.mem_singleton.mp hmem
            rfl
        obtain ⟨⟨hle, hu'⟩, hl'⟩ := ih _ he'
        rw [List.length_append, List.length_singleton] at hle
        refine ⟨⟨Nat.le_of_succ_le hle, hu'⟩, hl'.cons (fun j hj => (by cases hj)) fun j hj => ?_⟩
        cases hj
        exact hle
    · exact ⟨hu, hl.skip⟩

theorem canonical_cons (f : Fetching) (order : List Nat) (externals : List External) (i : Nat)
    (is : List Nat) : f.canonical order externals (i :: is) =
      match f.modules[i]? with
      | none => f.canonical order externals is
      | some (m, resolutions) =>
        let ts := f.targets order resolutions externals m.sources
        let rest := f.canonical order ts.2 is
        ((m, ts.1) :: rest.1, rest.2) := by
  cases h : f.modules[i]? <;> simp only [canonical, h]

theorem canonical_spec (f : Fetching) (order : List Nat) (externals : List External) (is : List Nat)
    (he : ∀ e ∈ externals, e.declarations = []) :
    Unused externals.length (f.canonical order externals is).2 ∧
      ∀ e ∈ (f.canonical order externals is).1, (∃ e' ∈ f.modules, e'.1 = e.1) ∧
        Leading e.1.sources order.length (f.canonical order externals is).2.length e.2 := by
  induction is generalizing externals with
  | nil => exact ⟨⟨Nat.le_refl _, he⟩, fun e hmem => by cases hmem⟩
  | cons i is ih =>
    rw [canonical_cons]
    split
    · exact ih externals he
    · next m resolutions hm =>
      obtain ⟨⟨hle, hu⟩, hl⟩ := targets_spec f order resolutions externals m.sources he
      obtain ⟨⟨hle', hu'⟩, hrest⟩ := ih _ hu
      refine ⟨⟨Nat.le_trans hle hle', hu'⟩, fun e hmem => ?_⟩
      rcases List.mem_cons.mp hmem with rfl | hmem
      · exact ⟨⟨_, List.mem_of_getElem? hm, rfl⟩, hl.mono hle'⟩
      · exact hrest e hmem

theorem length_canonical (f : Fetching) (order : List Nat) (externals : List External) (is : List Nat)
    (hi : ∀ i ∈ is, i < f.modules.length) : (f.canonical order externals is).1.length = is.length := by
  induction is generalizing externals with
  | nil => rfl
  | cons i is ih =>
    have hm := List.getElem?_eq_getElem (hi i List.mem_cons_self)
    have hrest := fun externals => ih externals fun i h => hi i (List.mem_cons_of_mem _ h)
    rw [canonical_cons, hm]
    simp [hrest]

theorem mem_walk (f : Fetching) (fuel : Nat) (pending visited : List Nat)
    (hp : ∀ i ∈ pending, i < f.modules.length) (hv : ∀ i ∈ visited, i < f.modules.length) :
    ∀ i ∈ f.walk fuel pending visited, i < f.modules.length := by
  induction fuel generalizing pending visited with
  | zero => exact hv
  | succ fuel ih =>
    cases pending with
    | nil => exact hv
    | cons i pending =>
      have hp' := fun j hj => hp j (List.mem_cons_of_mem _ hj)
      rw [walk]
      split
      · exact ih pending visited hp' hv
      · refine ih _ _ (fun j hj => ?_) fun j hj => ?_
        · rcases List.mem_append.mp hj with hj | hj
          · have hnext := (List.mem_filter.mp hj).1
            unfold next at hnext
            split at hnext
            · cases hnext
            · obtain ⟨source, -, htarget⟩ := List.mem_filterMap.mp hnext
              unfold target? at htarget
              split at htarget
              · exact (List.findIdx?_eq_some_iff_getElem.mp htarget).1
              · cases htarget
          · exact hp' j hj
        · rcases List.mem_append.mp hj with hj | hj
          · exact hv j hj
          · rw [List.mem_singleton.mp hj]
            exact hp i List.mem_cons_self

theorem mem_order (f : Fetching) (hpos : 0 < f.modules.length) : ∀ i ∈ f.order, i < f.modules.length := by
  refine mem_walk f _ _ _ (fun i hi => ?_) fun i hi => by cases hi
  rwa [List.mem_singleton.mp hi]

open Treeshake.Graph in
theorem fetched_canonical (hf : f.Fresh) :
    Fetched (f.canonical f.order [] f.order).1 (f.canonical f.order [] f.order).2 := by
  obtain ⟨⟨-, hu⟩, hm⟩ := canonical_spec f f.order [] f.order fun e he => by cases he
  have hlength : ∀ e ∈ (f.canonical f.order [] f.order).1,
      (f.canonical f.order [] f.order).1.length = f.order.length := by
    intro e he
    obtain ⟨⟨e', he', -⟩, -⟩ := hm e he
    exact length_canonical f f.order [] f.order (mem_order f (List.length_pos_of_mem he'))
  refine ⟨fun e he => ?_, fun e he s t ht => ?_, fun e he s i hs => ?_, fun e he s i hs => ?_, hu⟩
  · obtain ⟨⟨e', he', heq⟩, -⟩ := hm e he
    exact heq ▸ hf e' he'
  · exact ((hm e he).2 s t (lookup_mem ht)).1
  · rw [hlength e he]
    exact ((hm e he).2 s _ (lookup_mem hs)).2.1 i rfl
  · exact ((hm e he).2 s _ (lookup_mem hs)).2.2 i rfl

end Fetching

/-- The graph of an entry is that of a run that began with what the entry is resolved to. -/
theorem fetchGraph_eq_ok {grammar : Grammar} {p : Pipeline} {entry : String} {g : Graph}
    (h : fetchGraph grammar p entry = .ok g) :
    ∃ id f, Fetching.run grammar p entry taskLimit (Fetching.start id) = .ok f ∧ g = f.graph := by
  obtain ⟨r, -, h⟩ := bind_eq_ok.mp h
  split at h
  · cases h
  · obtain ⟨f, hrun, h⟩ := bind_eq_ok.mp h
    exact ⟨_, f, hrun, (Except.ok.inj h).symm⟩

theorem linked_of_fetchGraph {grammar : Grammar} {p : Pipeline} {entry : String} {g h : Graph}
    {stats : LinkStats} (hfetch : fetchGraph grammar p entry = .ok g)
    (hbind : Graph.bind.run g = .ok (stats, h)) : h.Linked := by
  obtain ⟨id, f, hrun, rfl⟩ := fetchGraph_eq_ok hfetch
  exact ⟨_, _, stats, Fetching.fetched_canonical (Fetching.fresh_run hrun), hbind⟩

end Treeshake
