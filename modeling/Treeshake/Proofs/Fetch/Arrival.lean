import Treeshake.Proofs.Fetch.Canonical
import Treeshake.Proofs.Renumber.Graph
/-!
Declarations numbered as they arrive, not as modules are numbered in the end. Main statement: the graph
with such numbers differs from the fetched graph in numbers only.
-/
set_option autoImplicit false

namespace Treeshake

theorem getElem?_flatMap_take {α β : Type} (F : α → List β) {l : List α} {k : Nat} {a : α}
    (ha : l[k]? = some a) {j : Nat} (hj : j < (F a).length) :
    (l.flatMap F)[((l.take k).map fun a => (F a).length).sum + j]? = (F a)[j]? := by
  obtain ⟨hk, rfl⟩ := List.getElem?_eq_some_iff.mp ha
  have hsplit : l.flatMap F = (l.take k).flatMap F ++ (F l[k] ++ (l.drop (k + 1)).flatMap F) := by
    rw [← List.flatMap_cons, ← List.flatMap_append, List.getElem_cons_drop, List.take_append_drop]
  rw [hsplit, ← List.length_flatMap, List.getElem?_append_right (Nat.le_add_right _ _),
    Nat.add_sub_cancel_left, List.getElem?_append_left hj]

namespace Graph

theorem linkAll_modules (next module : Nat) (ms : List (Module × Table Target)) (k : Nat) :
    (linkAll next module ms).1[k]? = ms[k]?.map fun e =>
      { e.1 with
        targets := e.2
        declarations := (declareBindings
          (next + ((ms.take k).map fun e => e.1.bindings.length).sum) 0 e.1).1 } := by
  induction ms generalizing next module k with
  | nil => simp [linkAll]
  | cons e ms ih =>
    obtain ⟨m, targets⟩ := e
    rw [linkAll_cons]
    cases k with
    | zero => rfl
    | succ k =>
      have hlength : (declareBindings next module m).2.length = m.bindings.length := List.length_map _
      simp only [List.getElem?_cons_succ, ih, hlength, List.take_succ_cons, List.map_cons, List.sum_cons,
        Nat.add_assoc]

theorem length_linkAll (next module : Nat) (ms : List (Module × Table Target)) :
    (linkAll next module ms).1.length = ms.length := by
  induction ms generalizing next module with
  | nil => rfl
  | cons e ms ih =>
    rw [linkAll_cons]
    exact congrArg (· + 1) (ih _ _)

theorem linkAll_declarations (next module : Nat) (ms : List (Module × Table Target)) :
    (linkAll next module ms).2 =
      (ms.zipIdx module).flatMap fun e => (declareBindings 0 e.2 e.1.1).2 := by
  induction ms generalizing next module with
  | nil => rfl
  | cons e ms ih =>
    obtain ⟨m, targets⟩ := e
    rw [linkAll_cons, List.zipIdx_cons, List.flatMap_cons]
    dsimp only
    rw [ih]
    rfl

end Graph

namespace Fetching

def declared (f : Fetching) (i : Nat) : List Declaration :=
  match f.modules[i]? with
  | none => []
  | some (m, _) => (Graph.declareBindings 0 (f.order.idxOf i) m).2

/-- The number of the first of them: so many declarations arrived before. -/
def firstNumber (f : Fetching) (i : Nat) : Nat :=
  ((List.range i).map fun i => (f.declared i).length).sum

/-- The graph with the declarations of each module numbered when the module arrived. -/
def arrived (f : Fetching) : Graph :=
  let (modules, externals) := f.canonical f.order [] f.order
  { modules := (f.order.zip modules).map fun (i, m, targets) =>
      { m with targets, declarations := (Graph.declareBindings (f.firstNumber i) 0 m).1 }
    externals
    declarations := (List.range f.modules.length).flatMap f.declared
    globals := Graph.wrapperNames }

variable {grammar : Grammar} {p : Pipeline} {root : String} {f : Fetching}

theorem getElem?_canonical (f : Fetching) (order : List Nat) (externals : List External) (is : List Nat)
    (hi : ∀ i ∈ is, i < f.modules.length) (k : Nat) :
    ((f.canonical order externals is).1[k]?).map (·.1) =
      is[k]?.bind fun i => f.modules[i]?.map (·.1) := by
  induction is generalizing externals k with
  | nil => rfl
  | cons i is ih =>
    have he := List.getElem?_eq_getElem (hi i List.mem_cons_self)
    rw [canonical_cons, he]
    cases k with
    | zero => simp [he]
    | succ k => exact ih _ (fun j hj => hi j (List.mem_cons_of_mem _ hj)) k

def labelled (f : Fetching) (i : Nat) : List (Nat × Nat × Declaration) :=
  (f.declared i).zipIdx.map fun d => (i, d.2, d.1)

theorem length_labelled (f : Fetching) (i : Nat) : (f.labelled i).length = (f.declared i).length := by
  simp [labelled]

theorem sum_labelled_range {i : Nat} (hi : i < f.modules.length) :
    (((List.range f.modules.length).take i).map fun i => (f.labelled i).length).sum = f.firstNumber i := by
  rw [List.take_range, Nat.min_eq_left (Nat.le_of_lt hi), firstNumber]
  exact congrArg (fun F => ((List.range i).map F).sum) (funext f.length_labelled)

theorem nodup_labelled (f : Fetching) {is : List Nat} (his : is.Nodup) : (is.flatMap f.labelled).Nodup := by
  refine List.nodup_flatMap.mpr ⟨fun i _ => ?_, his.imp fun hne => ?_⟩
  · refine List.Nodup.of_map (fun x : Nat × Nat × Declaration => x.2.1) ?_
    rw [labelled, List.map_map]
    change ((f.declared i).zipIdx.map Prod.snd).Nodup
    rw [List.zipIdx_map_snd]
    exact List.nodup_range'
  · rintro x hx hy
    obtain ⟨d, -, rfl⟩ := List.mem_map.mp hx
    obtain ⟨d', -, heq⟩ := List.mem_map.mp hy
    exact hne (Prod.mk.inj heq).1.symm

theorem map_labelled (f : Fetching) (is : List Nat) :
    (is.flatMap f.labelled).map (·.2.2) = is.flatMap f.declared := by
  rw [List.map_flatMap]
  refine congrArg (List.flatMap · is) (funext fun i => ?_)
  rw [labelled, List.map_map]
  exact List.zipIdx_map_fst ..

theorem renumber_declared {i : Nat} {d : Declaration} (hd : d ∈ f.declared i) (π : Equiv.Perm Nat) :
    d.renumber π = d := by
  unfold declared at hd
  split at hd
  · cases hd
  · obtain ⟨b, -, rfl⟩ := List.mem_map.mp hd
    dsimp only [Declaration.renumber]
    split <;> rfl

theorem fresh_readModule {id : String} {m : Module} (hm : readModule grammar p id = .ok m) : m.Fresh := by
  obtain ⟨source, -, hm⟩ := bind_eq_ok.mp hm
  exact Module.fresh_parse hm

theorem renumber_fresh {m : Module} (hm : m.Fresh) (π : Equiv.Perm Nat) :
    m.statements.map (·.renumber π) = m.statements := by
  refine (List.map_congr_left fun s hs => ?_).trans (List.map_id _)
  have hreferences : s.references.map (·.renumber π) = s.references :=
    (List.map_congr_left fun r hr => by
      rw [Reference.renumber, hm.unbound s hs r hr]
      exact congrArg (fun b => { r with binding := b }) (hm.unbound s hs r hr).symm).trans (List.map_id _)
  rw [Statement.renumber, hreferences]
  rfl

namespace Complete

variable (hc : f.Complete)
include hc

theorem numbered {k i : Nat} (hk : f.order[k]? = some i) : ∃ m rs ts, f.modules[i]? = some (m, rs) ∧
    (f.canonical f.order [] f.order).1[k]? = some (m, ts) ∧ f.order.idxOf i = k := by
  obtain ⟨⟨m, rs⟩, hi⟩ : ∃ e, f.modules[i]? = some e :=
    ⟨_, List.getElem?_eq_getElem (hc.mem_order_iff.mp (List.mem_of_getElem? hk))⟩
  have hcanonical := getElem?_canonical f f.order [] f.order (fun _ => hc.mem_order_iff.mp) k
  rw [hk, Option.bind_some, hi] at hcanonical
  obtain ⟨⟨m', ts⟩, he, hm⟩ := Option.map_eq_some_iff.mp hcanonical
  obtain rfl : m' = m := hm
  refine ⟨m', rs, ts, hi, he, ?_⟩
  obtain ⟨hlt, rfl⟩ := List.getElem?_eq_some_iff.mp hk
  exact (hc.perm_order.nodup_iff.mpr List.nodup_range).idxOf_getElem k hlt

theorem length_canonical_order : (f.canonical f.order [] f.order).1.length = f.order.length :=
  length_canonical f f.order [] f.order fun _ => hc.mem_order_iff.mp

theorem declarations_graph : f.graph.declarations = f.order.flatMap f.declared := by
  have hgraph : f.graph.declarations =
      (Graph.linkAll 0 0 (f.canonical f.order [] f.order).1).2 := rfl
  rw [hgraph, Graph.linkAll_declarations, List.flatMap_def, List.flatMap_def]
  refine congrArg List.flatten (List.ext_getElem? fun k => ?_)
  rw [List.getElem?_map, List.getElem?_zipIdx, List.getElem?_map]
  cases hk : f.order[k]? with
  | none =>
    have hlen := hc.length_canonical_order
    rw [List.getElem?_eq_none (hlen ▸ List.getElem?_eq_none_iff.mp hk)]
    rfl
  | some i =>
    obtain ⟨m, rs, ts, hm, hnumbered, hidx⟩ := hc.numbered hk
    simp only [hnumbered, Option.map_some, declared, hm, hidx, Nat.zero_add]

theorem sum_bindings (k : Nat) :
    (((f.canonical f.order [] f.order).1.take k).map fun e => e.1.bindings.length).sum =
      ((f.order.take k).map fun i => (f.labelled i).length).sum := by
  rw [List.map_take, List.map_take]
  refine congrArg (fun l => (List.take k l).sum) (List.ext_getElem? fun k => ?_)
  rw [List.getElem?_map, List.getElem?_map]
  cases hk : f.order[k]? with
  | none =>
    have hlen := hc.length_canonical_order
    rw [List.getElem?_eq_none (hlen ▸ List.getElem?_eq_none_iff.mp hk)]
    rfl
  | some i =>
    obtain ⟨m, rs, ts, hm, hnumbered, -⟩ := hc.numbered hk
    simp only [hnumbered, Option.map_some, length_labelled, declared, hm]
    exact congrArg some (List.length_map _).symm

/-- The first declaration of a module has one number in the end and another on arrival, and so have those
that follow it. -/
theorem number_arrived {π : Equiv.Perm Nat}
    (hπ : ∀ c, ((List.range f.modules.length).flatMap f.labelled)[π c]? = (f.order.flatMap f.labelled)[c]?)
    {k i j : Nat} (hk : f.order[k]? = some i) (hj : j < (f.declared i).length) :
    π (((f.order.take k).map fun i => (f.labelled i).length).sum + j) = f.firstNumber i + j := by
  have hj' : j < (f.labelled i).length := by rwa [length_labelled]
  have hi : i < f.modules.length := hc.mem_order_iff.mp (List.mem_of_getElem? hk)
  have hrange : (List.range f.modules.length)[i]? = some i := List.getElem?_range hi
  have hlast := getElem?_flatMap_take f.labelled hk hj'
  have harrived := getElem?_flatMap_take f.labelled hrange hj'
  rw [sum_labelled_range hi] at harrived
  rw [List.getElem?_eq_getElem hj'] at hlast harrived
  have hnow := (hπ _).trans hlast
  exact (List.getElem?_inj (List.getElem?_eq_some_iff.mp hnow).1 (f.nodup_labelled List.nodup_range)).mp
    (hnow.trans harrived.symm)

theorem keys_arrived {π : Equiv.Perm Nat}
    (hπ : ∀ c, ((List.range f.modules.length).flatMap f.labelled)[π c]? = (f.order.flatMap f.labelled)[c]?)
    {k i : Nat} (hk : f.order[k]? = some i) {m : Module} {rs : Table Resolution}
    (hm : f.modules[i]? = some (m, rs)) :
    Table.renumber π (Graph.declareBindings
        (((f.order.take k).map fun i => (f.labelled i).length).sum) 0 m).1 =
      (Graph.declareBindings (f.firstNumber i) 0 m).1 := by
  have hdeclared : (f.declared i).length = m.bindings.length := by
    simp only [declared, hm]
    exact List.length_map _
  refine List.ext_getElem? fun j => ?_
  rw [Table.renumber, List.getElem?_map, Graph.declareBindings, Graph.declareBindings,
    List.getElem?_mapIdx, List.getElem?_mapIdx, Option.map_map]
  cases hj : m.bindings[j]? with
  | none => rfl
  | some b =>
    have hlt : j < (f.declared i).length := hdeclared ▸ (List.getElem?_eq_some_iff.mp hj).1
    exact congrArg (fun n => some (b.key, n)) (hc.number_arrived hπ hk hlt)

end Complete

/-- The graph with numbers as they arrived differs from the fetched graph in numbers only. -/
theorem Underway.exists_renumbering (h : Underway grammar p root f) (hdone : f.tasks = []) :
    ∃ π, Graph.Renumbers π f.graph f.arrived := by
  have hc := h.complete hdone
  have hperm := hc.perm_order
  obtain ⟨π, hπ, hfix⟩ := exists_perm (hperm.flatMap_right f.labelled)
  have hlength : (f.order.flatMap f.labelled).length = f.graph.declarations.length := by
    rw [hc.declarations_graph, ← map_labelled, List.length_map]
  refine ⟨π, ?_, ?_, ?_, ?_, fun c hc => hfix c (hlength ▸ hc), rfl, rfl, rfl⟩
  · have hgraph : f.graph.modules = (Graph.linkAll 0 0 (f.canonical f.order [] f.order).1).1 := rfl
    have harrived : f.arrived.modules = (f.order.zip (f.canonical f.order [] f.order).1).map fun e =>
        { e.2.1 with
          targets := e.2.2
          declarations := (Graph.declareBindings (f.firstNumber e.1) 0 e.2.1).1 } := rfl
    refine List.ext_getElem? fun k => ?_
    rw [hgraph, harrived, List.getElem?_map, List.getElem?_map, Graph.linkAll_modules, Option.map_map,
      hc.sum_bindings, Nat.zero_add]
    cases hk : f.order[k]? with
    | none =>
      have hnone := List.getElem?_eq_none_iff.mp hk
      rw [List.getElem?_eq_none ((hc.length_canonical_order).trans_le hnone),
        List.getElem?_eq_none ((List.length_zip ..).trans_le ((Nat.min_le_left ..).trans hnone))]
      rfl
    | some i =>
      obtain ⟨m, rs, ts, hm, hnumbered, -⟩ := hc.numbered hk
      have hstatements := renumber_fresh (fresh_readModule (h.read _ (List.mem_of_getElem? hm))) π
      have hkeys := hc.keys_arrived hπ hk hm
      rw [(List.getElem?_zip_eq_some (z := (i, m, ts))).mpr ⟨hk, hnumbered⟩, hnumbered]
      simp only [Option.map_some, Function.comp_apply, LinkedModule.renumber, hstatements, hkeys,
        Option.map_none]
  · have hunused := (canonical_spec f f.order [] f.order fun e he => by cases he).1.2
    change (f.canonical f.order [] f.order).2 = (f.canonical f.order [] f.order).2.map _
    refine ((List.map_congr_left fun e he => ?_).trans (List.map_id _)).symm
    rw [External.renumber, hunused e he]
    exact congrArg (fun ds => { e with declarations := ds }) (hunused e he).symm
  · have harrived : f.arrived.declarations = (List.range f.modules.length).flatMap f.declared := rfl
    rw [harrived, hc.declarations_graph]
    exact (hperm.flatMap_right f.declared).length_eq.symm
  · intro c
    have harrived : f.arrived.declarations = (List.range f.modules.length).flatMap f.declared := rfl
    have hsame : (f.arrived.declarations)[π c]? = f.graph.declarations[c]? := by
      rw [harrived, hc.declarations_graph, ← map_labelled, ← map_labelled, List.getElem?_map, hπ,
        List.getElem?_map]
    rw [hsame]
    cases hd : f.graph.declarations[c]? with
    | none => rfl
    | some d =>
      have hmem := List.mem_of_getElem? hd
      rw [hc.declarations_graph] at hmem
      obtain ⟨i, -, hi⟩ := List.mem_flatMap.mp hmem
      rw [Option.map_some, renumber_declared hi]

end Fetching

end Treeshake
