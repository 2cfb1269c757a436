import Treeshake.Proofs.Fetch.Arrival
import Treeshake.Proofs.Renumber.Output
/-!
Builds do not depend on the order in which modules are fetched. Main statement: any two orders of the tasks
fail alike, or lead to the same modules and external modules, to declarations that differ in numbers only,
and to the same outputs.
-/
set_option autoImplicit false

namespace Treeshake

/-- What a build of a graph shows: the external modules it depends on, the names it exports, its modules,
and what it generates for some options. -/
def Graph.outcome (g : Graph) (o : OutputOptions) :
    Except Error (List String × List String × List String × Except Error Output) :=
  (Bundle.ofGraph g).map fun b => (b.imports, b.exports, b.modules, b.generate o)

theorem Graph.Renumbers.outcome {π : Equiv.Perm Nat} {g h : Graph} (R : Renumbers π g h)
    (o : OutputOptions) : h.outcome o = g.outcome o := by
  rw [Graph.outcome, Graph.outcome]
  obtain ⟨e, hg, hh⟩ | ⟨b, c, hg, hh, R⟩ := Bundle.ofGraph_renumbers R
  · rw [hg, hh]
  · rw [hg, hh, Except.map, Except.map, R.imports, R.exports, R.modules, R.generate]

namespace Fetching

def linkedModules (g : Graph) : List (Module × Table Target) := g.modules.map fun m => (m.toModule, m.targets)

/-- What two complete fetches have in common if nothing tells in which order their tasks were completed. -/
structure Agree (f f' : Fetching) : Prop where
  complete : f.tasks = [] ∧ f'.tasks = []
  modules : linkedModules f'.arrived = linkedModules f.arrived
  externals : f'.arrived.externals = f.arrived.externals
  declarations : ∃ π, Graph.Renumbers π f.arrived f'.arrived
  graph : f'.graph = f.graph ∧ ∃ π, Graph.Renumbers π f.graph f.arrived
  outcome : ∀ o, f'.arrived.outcome o = f.arrived.outcome o ∧ f.graph.outcome o = f.arrived.outcome o

variable {grammar : Grammar} {p : Pipeline} {root : String} {f f' : Fetching}

theorem linkedModules_arrived (h : Underway grammar p root f) (hdone : f.tasks = []) :
    linkedModules f.arrived = (f.canonical f.order [] f.order).1 := by
  have harrived : linkedModules f.arrived =
      (f.order.zip (f.canonical f.order [] f.order).1).map Prod.snd := by
    rw [linkedModules, arrived, List.map_map]
    rfl
  rw [harrived, List.map_snd_zip (Nat.le_of_eq ((h.complete hdone).length_canonical_order))]

theorem Underway.agree (h : Underway grammar p root f) (h' : Underway grammar p root f')
    (hdone : f.tasks = []) (hdone' : f'.tasks = []) : Agree f f' := by
  obtain ⟨π, hπ⟩ := exists_alike h h' hdone hdone'
  obtain ⟨ρ, R⟩ := h.exists_renumbering hdone
  obtain ⟨ρ', R'⟩ := h'.exists_renumbering hdone'
  have hgraph : f'.graph = f.graph := hπ.graph
  have hcanonical : f'.canonical f'.order [] f'.order = f.canonical f.order [] f.order := by
    rw [hπ.order, hπ.canonical]
  have hsame : Graph.Renumbers (ρ.symm.trans ρ') f.arrived f'.arrived := R.symm.trans (hgraph ▸ R')
  refine ⟨⟨hdone, hdone'⟩, ?_, ?_, ⟨_, hsame⟩, ⟨hgraph, ρ, R⟩, fun o => ⟨hsame.outcome o, (R.outcome o).symm⟩⟩
  · rw [linkedModules_arrived h hdone, linkedModules_arrived h' hdone', hcanonical]
  · exact congrArg Prod.snd hcanonical

end Fetching

open Fetching

section

variable {grammar : Grammar} {p : Pipeline} {entry : String} {all : List String}

/-- An order that is long enough fails or leads to a complete fetch, and which of both depends on what the
entry leads to alone. -/
theorem fetchIn_cases (hall : ∀ root, p.resolve entry none = .ok (.module root) →
      ∀ id, Reached grammar p root id → id ∈ all) :
    (∀ order, taskCount grammar p all ≤ order.length → ∃ e, fetchIn grammar p order entry = .error e) ∨
      ∃ root, ∀ order, taskCount grammar p all ≤ order.length →
        ∃ f, fetchIn grammar p order entry = .ok f ∧ Underway grammar p root f ∧ f.tasks = [] := by
  unfold fetchIn
  cases hr : p.resolve entry none with
  | error e => exact .inl fun order _ => ⟨e, rfl⟩
  | ok r =>
    cases r with
    | external id => exact .inl fun order _ => ⟨.unresolvedEntry entry, rfl⟩
    | module root =>
      have hstart := underway_start grammar p root
      by_cases hfetch : Fetchable grammar p root
      · refine .inr ⟨root, fun order hlen => ?_⟩
        obtain ⟨f, hf⟩ := hstart.runIn_fetchable order hfetch
        obtain ⟨h, hdone⟩ := hstart.runIn_ok (hall root hr) ((left_start all).trans_le hlen) hf
        exact ⟨f, hf, h, hdone⟩
      · refine .inl fun order hlen => ?_
        cases hrun : runIn grammar p order (start root) with
        | error e => exact ⟨e, hrun⟩
        | ok f =>
          exact absurd ((hstart.runIn_ok_iff (hall root hr) ((left_start all).trans_le hlen)).mp ⟨f, hrun⟩) hfetch

theorem graph_of_fetchIn {order : List Nat} {f : Fetching} {g : Graph}
    (hall : ∀ root, p.resolve entry none = .ok (.module root) →
      ∀ id, Reached grammar p root id → id ∈ all)
    (hlen : taskCount grammar p all ≤ order.length) (hf : fetchIn grammar p order entry = .ok f)
    (hg : fetchGraph grammar p entry = .ok g) : g = f.graph := by
  obtain ⟨f', hf', hdone', rfl⟩ := fetchGraph_eq_ok_iff.mp hg
  obtain ⟨root, hroot, h⟩ := exists_root_of_fetchIn hf
  obtain ⟨root', hroot', h'⟩ := exists_root_of_fetchIn hf'
  obtain rfl := Resolution.module.inj (Except.ok.inj (hroot.symm.trans hroot'))
  obtain hfail | ⟨root, hok⟩ := fetchIn_cases hall
  · obtain ⟨e, he⟩ := hfail order hlen
    cases he.symm.trans hf
  · obtain ⟨k, hk, -, hdone⟩ := hok order hlen
    obtain rfl := Except.ok.inj (hk.symm.trans hf)
    exact (h.agree h' hdone hdone').graph.1

theorem fetchGraph_of_fetchIn {order : List Nat} {f : Fetching}
    (hall : ∀ root, p.resolve entry none = .ok (.module root) →
      ∀ id, Reached grammar p root id → id ∈ all)
    (hlen : taskCount grammar p all ≤ order.length) (hlimit : taskCount grammar p all ≤ taskLimit)
    (hf : fetchIn grammar p order entry = .ok f) : fetchGraph grammar p entry = .ok f.graph := by
  obtain hfail | ⟨root, hok⟩ := fetchIn_cases hall
  · obtain ⟨e, he⟩ := hfail order hlen
    cases he.symm.trans hf
  · obtain ⟨k, hk, h, hdone⟩ := hok order hlen
    obtain rfl := Except.ok.inj (hk.symm.trans hf)
    obtain ⟨k', hk', h', hdone'⟩ := hok (List.replicate taskLimit 0) (List.length_replicate.symm ▸ hlimit)
    exact fetchGraph_eq_ok_iff.mpr ⟨k', hk', hdone', (h.agree h' hdone hdone').graph.1⟩

/-- Any two orders of the tasks fail alike or agree, and what they lead to is the graph of the entry. -/
theorem fetch_order_independent (all : List String) {order order' : List Nat}
    (hall : ∀ root, p.resolve entry none = .ok (.module root) →
      ∀ id, Reached grammar p root id → id ∈ all)
    (hlen : taskCount grammar p all ≤ order.length) (hlen' : taskCount grammar p all ≤ order'.length) :
    ((∃ e, fetchIn grammar p order entry = .error e) ↔ ∃ e, fetchIn grammar p order' entry = .error e) ∧
      (∀ f f', fetchIn grammar p order entry = .ok f → fetchIn grammar p order' entry = .ok f' →
        Agree f f') ∧
      (taskCount grammar p all ≤ taskLimit → ∀ f, fetchIn grammar p order entry = .ok f →
        fetchGraph grammar p entry = .ok f.graph) ∧
      ∀ f g, fetchIn grammar p order entry = .ok f → fetchGraph grammar p entry = .ok g → g = f.graph := by
  refine and_assoc.mp ⟨?_, fun hlimit f hf => fetchGraph_of_fetchIn hall hlen hlimit hf,
    fun f g hf hg => graph_of_fetchIn hall hlen hf hg⟩
  obtain hfail | ⟨root, hok⟩ := fetchIn_cases hall
  · refine ⟨iff_of_true (hfail order hlen) (hfail order' hlen'), fun f f' hf _ => ?_⟩
    obtain ⟨e, he⟩ := hfail order hlen
    cases he.symm.trans hf
  · obtain ⟨f, hf, h, hdone⟩ := hok order hlen
    obtain ⟨f', hf', h', hdone'⟩ := hok order' hlen'
    refine ⟨iff_of_false ?_ ?_, fun k k' hk hk' => ?_⟩
    · rintro ⟨e, he⟩
      cases he.symm.trans hf
    · rintro ⟨e, he⟩
      cases he.symm.trans hf'
    · obtain rfl := Except.ok.inj (hf.symm.trans hk)
      obtain rfl := Except.ok.inj (hf'.symm.trans hk')
      exact h.agree h' hdone hdone'

end

def twoImports : String := "import'b';import'c'"

def plainNode (kind : String) (start stop : Nat) (field : String) (children : List Node) : Node :=
  .mk { kind, start, stop, field } children

def twoImportsGrammar : Grammar := fun text =>
  some (.of text (plainNode "program" 0 (Text.size text.toList) ""
    (if text == twoImports then [
      plainNode "import_statement" 0 10 "" [plainNode "string" 6 9 "source" []],
      plainNode "import_statement" 10 19 "" [plainNode "string" 16 19 "source" []]] else [])))

def twoImportsPipeline : Pipeline where
  loaders := [fun id => .ok (some { code := if id == "a" then twoImports else "" })]
  resolvers := [fun importee _ => .ok (some (.module importee))]
  transforms := []

theorem reached_twoImports {root id : String}
    (hroot : twoImportsPipeline.resolve "a" none = .ok (.module root))
    (hid : Reached twoImportsGrammar twoImportsPipeline root id) : id ∈ ["a", "b", "c"] := by
  have hsources : ∀ id ∈ ["a", "b", "c"],
      (readModule twoImportsGrammar twoImportsPipeline id).toOption.map (·.sources) =
        some (if id = "a" then ["b", "c"] else []) := by decide +kernel
  induction hid with
  | root =>
    obtain rfl := Resolution.module.inj (Except.ok.inj hroot)
    exact List.mem_cons_self
  | @source id id' s m hid hm hs hr ih =>
    obtain rfl := Resolution.module.inj (Except.ok.inj hr)
    have hlisted := hsources id ih
    rw [hm] at hlisted
    have hlisted : m.sources = if id = "a" then ["b", "c"] else [] := Option.some.inj hlisted
    rw [hlisted] at hs
    split at hs
    · exact List.mem_cons_of_mem _ hs
    · cases hs

theorem fetch_order_independent_two_imports : ∃ f f',
    fetchIn twoImportsGrammar twoImportsPipeline [0, 0, 0, 0, 0] "a" = .ok f ∧
      fetchIn twoImportsGrammar twoImportsPipeline [0, 1, 1, 0, 0] "a" = .ok f' ∧
      f.ids = ["a", "b", "c"] ∧ f'.ids = ["a", "c", "b"] ∧ Agree f f' := by
  have hids : ((fetchIn twoImportsGrammar twoImportsPipeline [0, 0, 0, 0, 0] "a").toOption.map ids) =
      some ["a", "b", "c"] := by decide +kernel
  have hids' : ((fetchIn twoImportsGrammar twoImportsPipeline [0, 1, 1, 0, 0] "a").toOption.map ids) =
      some ["a", "c", "b"] := by decide +kernel
  obtain ⟨f, hf, hfids⟩ := Option.map_eq_some_iff.mp hids
  obtain ⟨f', hf', hfids'⟩ := Option.map_eq_some_iff.mp hids'
  have hf := ok_of_toOption hf
  have hf' := ok_of_toOption hf'
  exact ⟨f, f', hf, hf', hfids, hfids', (fetch_order_independent ["a", "b", "c"]
    (fun _ hroot _ hid => reached_twoImports hroot hid) (by decide +kernel) (by decide +kernel)).2.1
      f f' hf hf'⟩

end Treeshake
