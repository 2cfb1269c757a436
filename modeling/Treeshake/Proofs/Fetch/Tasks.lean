import Mathlib
import Treeshake.Proofs.Fetch.Graph
/-!
Fetches whose tasks are completed in any order. Main statement: an order that is long enough either ends
with all modules that the entry leads to, as they are read and resolved, or fails, and it fails if and
only if one of them cannot be had.
-/
set_option autoImplicit false

namespace Treeshake

def readModule (grammar : Grammar) (p : Pipeline) (id : String) : Except Error Module := do
  Module.parse grammar id (← p.fetch id)

theorem id_parse {grammar : Grammar} {id : String} {source : Source} {m : Module}
    (h : Module.parse grammar id source = .ok m) : m.id = id := by
  obtain ⟨tree, -, h⟩ := bind_eq_ok.mp h
  obtain ⟨draft, -, h⟩ := bind_eq_ok.mp h
  obtain ⟨outline, -, h⟩ := bind_eq_ok.mp h
  obtain ⟨analysed, -, h⟩ := bind_eq_ok.mp h
  obtain rfl := Except.ok.inj h
  rfl

theorem id_readModule {grammar : Grammar} {p : Pipeline} {id : String} {m : Module}
    (h : readModule grammar p id = .ok m) : m.id = id := by
  obtain ⟨source, -, h⟩ := bind_eq_ok.mp h
  exact id_parse h

/-- The ids of modules that a module leads to, itself among them. -/
inductive Reached (grammar : Grammar) (p : Pipeline) (root : String) : String → Prop where
  | root : Reached grammar p root root
  | source {id id' source : String} {m : Module} (hid : Reached grammar p root id)
      (hm : readModule grammar p id = .ok m) (hs : source ∈ m.sources)
      (hr : p.resolve source (some id) = .ok (.module id')) : Reached grammar p root id'

/-- Every module that an id leads to can be read, and its sources lead somewhere, but not to itself. -/
def Fetchable (grammar : Grammar) (p : Pipeline) (root : String) : Prop :=
  ∀ id, Reached grammar p root id → ∃ m, readModule grammar p id = .ok m ∧
    ∀ s ∈ m.sources, ∃ r, p.resolve s (some id) = .ok r ∧ r ≠ .module id

/-- What something has still to cost if some things are paid for. -/
def owed {α : Type} [DecidableEq α] (cost : α → Nat) (known : List α) (a : α) : Nat :=
  if a ∈ known then 0 else cost a

theorem owed_append_le {α : Type} [DecidableEq α] (cost : α → Nat) (known : List α) (a b : α) :
    owed cost (known ++ [a]) b ≤ owed cost known b := by
  unfold owed
  split
  · exact Nat.zero_le _
  · next h => rw [if_neg fun h' => h (List.mem_append_left _ h')]

theorem sum_owed {α : Type} [DecidableEq α] (cost : α → Nat) {all known : List α} {a : α}
    (ha : a ∈ all) (hnew : a ∉ known) :
    (all.map (owed cost (known ++ [a]))).sum + cost a ≤ (all.map (owed cost known)).sum := by
  induction all with
  | nil => cases ha
  | cons b all ih =>
    simp only [List.map_cons, List.sum_cons]
    have hb := owed_append_le cost known a b
    rcases List.mem_cons.mp ha with rfl | ha
    · have hrest := List.sum_le_sum fun c (_ : c ∈ all) => owed_append_le cost known a c
      have hnow : owed cost (known ++ [a]) a = 0 := if_pos (by simp)
      have hbefore : owed cost known a = cost a := if_neg hnew
      omega
    · have := ih ha
      omega

def FetchTask.loads? : FetchTask → Option String
  | .load id _ => some id
  | .resolve .. => none

def FetchTask.isResolve : FetchTask → Bool
  | .load .. => false
  | .resolve .. => true

theorem loads_map_resolve (i : Nat) (sources : List String) :
    (sources.map (FetchTask.resolve i ·)).filterMap FetchTask.loads? = [] :=
  List.filterMap_eq_nil_iff.mpr fun t ht => by
    obtain ⟨s, -, rfl⟩ := List.mem_map.mp ht
    rfl

namespace Fetching

/-- Completes tasks in an order: each number is a position among the tasks open by then, counted around
the list. -/
def runIn (grammar : Grammar) (p : Pipeline) : List Nat → Fetching → Except Error Fetching
  | [], f => .ok f
  | i :: order, f =>
    if f.tasks.isEmpty then .ok f
    else do runIn grammar p order (← f.step grammar p (i % f.tasks.length))

def ids (f : Fetching) : List String := f.modules.map (·.1.id)

variable {grammar : Grammar} {p : Pipeline} {root : String} {f f' : Fetching}

/-- A run takes the oldest task again and again, and gives up if there is one left. -/
theorem run_eq_runIn (entry : String) (fuel : Nat) (f : Fetching) :
    run grammar p entry fuel f = runIn grammar p (List.replicate fuel 0) f >>= fun f =>
      if f.tasks.isEmpty then .ok f else .error (.endlessImports entry) := by
  induction fuel generalizing f with
  | zero => rfl
  | succ fuel ih =>
    rw [run, List.replicate_succ, runIn, Nat.zero_mod]
    split
    · next hdone => exact (if_pos hdone).symm
    · rw [bind_assoc]
      exact congrArg _ (funext ih)

theorem run_eq_ok {entry : String} {fuel : Nat} : run grammar p entry fuel f = .ok f' ↔
    runIn grammar p (List.replicate fuel 0) f = .ok f' ∧ f'.tasks = [] := by
  rw [run_eq_runIn, bind_eq_ok]
  constructor
  · rintro ⟨f₁, hrun, h⟩
    split at h
    · next hdone =>
      obtain rfl := Except.ok.inj h
      exact ⟨hrun, List.isEmpty_iff.mp hdone⟩
    · cases h
  · rintro ⟨hrun, hdone⟩
    exact ⟨f', hrun, if_pos (List.isEmpty_iff.mpr hdone)⟩

def receive (f : Fetching) (m : Module) : Fetching :=
  { f with
    tasks := f.tasks ++ m.sources.map (.resolve f.modules.length ·)
    modules := f.modules ++ [(m, [])] }

def learn (f : Fetching) (importer : Nat) (id source : String) (r : Resolution) : Fetching :=
  { (match r with
      | .module id' => f.request id' id
      | .external _ => f) with
    modules := f.modules.modify importer fun e => (e.1, e.2.insert source r) }

theorem load_ok {id : String} {importer : Option String} :
    f.load grammar p id importer = .ok f' ↔ ∃ m, readModule grammar p id = .ok m ∧ f.receive m = f' := by
  constructor
  · intro h
    obtain ⟨source, hsource, h⟩ := bind_eq_ok.mp h
    obtain ⟨m, hm, h⟩ := bind_eq_ok.mp h
    refine ⟨m, ?_, Except.ok.inj h⟩
    cases hfetch : p.fetch id with
    | error e => rw [hfetch] at hsource; cases hsource
    | ok source' =>
      rw [hfetch] at hsource
      obtain rfl := Except.ok.inj hsource
      exact bind_eq_ok.mpr ⟨_, hfetch, hm⟩
  · rintro ⟨m, hm, rfl⟩
    obtain ⟨source, hfetch, hm⟩ := bind_eq_ok.mp hm
    rw [load, hfetch]
    exact bind_eq_ok.mpr ⟨source, rfl, bind_eq_ok.mpr ⟨m, hm, rfl⟩⟩

theorem resolve_ok {i : Nat} {e : Module × Table Resolution} {source : String}
    (he : f.modules[i]? = some e) : f.resolve p i source = .ok f' ↔
      ∃ r, p.resolve source (some e.1.id) = .ok r ∧ r ≠ .module e.1.id ∧
        f.learn i e.1.id source r = f' := by
  unfold resolve
  rw [he]
  dsimp only
  rw [bind_eq_ok]
  refine exists_congr fun r => and_congr_right fun _ => ?_
  cases r with
  | external id => simp [learn, bind, Except.bind, pure, Except.pure]
  | module id =>
    by_cases hid : id = e.1.id
    · simp [hid, bind, Except.bind, throw, throwThe, MonadExceptOf.throw]
    · simp [hid, learn, bind, Except.bind, pure, Except.pure, modules_request]

theorem mem_requested_request {id id' importer : String} :
    id' ∈ (f.request id importer).requested ↔ id' ∈ f.requested ∨ id' = id := by
  unfold request
  split
  · next h =>
    refine ⟨.inl, fun h' => h'.elim (fun h' => h') ?_⟩
    rintro rfl
    exact List.contains_iff_mem.mp h
  · simp

theorem getElem?_record (modules : List (Module × Table Resolution)) (i j : Nat) (source : String)
    (r : Resolution) : (modules.modify i fun e => (e.1, e.2.insert source r))[j]? =
      modules[j]?.map fun e => (e.1, if i = j then e.2.insert source r else e.2) := by
  rw [List.getElem?_modify]
  split <;> rfl

theorem request_cons (f : Fetching) (t : FetchTask) (tasks : List FetchTask) (id importer : String) :
    ({ f with tasks := t :: tasks } : Fetching).request id importer =
      { ({ f with tasks } : Fetching).request id importer with
        tasks := t :: (({ f with tasks } : Fetching).request id importer).tasks } := by
  unfold request
  split <;> rfl

theorem perm_eraseIdx {α : Type} {l : List α} {i : Nat} {a : α} (h : l[i]? = some a) :
    (a :: l.eraseIdx i).Perm l := by
  obtain ⟨hi, rfl⟩ := List.getElem?_eq_some_iff.mp h
  exact List.getElem_cons_eraseIdx_perm hi

/-- What holds while the modules that a root leads to are fetched. Every id asked for is loaded or about to
be, once; every source of a module is resolved or about to be. -/
structure Underway (grammar : Grammar) (p : Pipeline) (root : String) (f : Fetching) : Prop where
  reached : ∀ id ∈ f.requested, Reached grammar p root id
  nodup : f.requested.Nodup
  asked : (f.ids ++ f.tasks.filterMap FetchTask.loads?).Perm f.requested
  read : ∀ e ∈ f.modules, readModule grammar p e.1.id = .ok e.1
  resolving : ∀ i s, .resolve i s ∈ f.tasks → ∃ e, f.modules[i]? = some e ∧ s ∈ e.1.sources
  settled : ∀ i e, f.modules[i]? = some e → ∀ s ∈ e.1.sources, .resolve i s ∈ f.tasks ∨
    ∃ r, p.resolve s (some e.1.id) = .ok r ∧ e.2.get? s = some r ∧ r ≠ .module e.1.id ∧
      ∀ id, r = .module id → id ∈ f.requested
  first : f.ids.head? = some root ∨ f.modules = [] ∧ f.tasks = [.load root none]

theorem underway_start (grammar : Grammar) (p : Pipeline) (root : String) :
    Underway grammar p root (start root) where
  reached id h := by
    obtain rfl := List.mem_singleton.mp h
    exact .root
  nodup := List.pairwise_singleton _ root
  asked := .refl _
  read e h := by cases h
  resolving i s h := by simp [start] at h
  settled i e h := by simp [start] at h
  first := .inr ⟨rfl, rfl⟩

namespace Underway

variable {tasks : List FetchTask}

theorem reorder (h : Underway grammar p root f) (hp : tasks.Perm f.tasks) :
    Underway grammar p root { f with tasks } where
  reached := h.reached
  nodup := h.nodup
  asked := ((hp.filterMap _).append_left f.ids).trans h.asked
  read := h.read
  resolving i s hs := h.resolving i s (hp.mem_iff.mp hs)
  settled i e he s hs := (h.settled i e he s hs).imp_left hp.mem_iff.mpr
  first := h.first.imp_right fun ⟨hm, ht⟩ => ⟨hm, List.perm_singleton.mp (ht ▸ hp)⟩

theorem receive {id : String} {importer : Option String} {m : Module}
    (h : Underway grammar p root { f with tasks := .load id importer :: tasks })
    (hm : readModule grammar p id = .ok m) :
    Underway grammar p root (({ f with tasks } : Fetching).receive m) where
  reached := h.reached
  nodup := h.nodup
  asked := by
    simpa [Fetching.receive, ids, FetchTask.loads?, id_readModule hm, loads_map_resolve,
      -List.filterMap_map] using h.asked
  read e he := by
    rcases List.mem_append.mp he with he | he
    · exact h.read e he
    · obtain rfl := List.mem_singleton.mp he
      rwa [id_readModule hm]
  resolving i s hs := by
    rcases List.mem_append.mp hs with hs | hs
    · obtain ⟨e, he, hse⟩ := h.resolving i s (List.mem_cons_of_mem _ hs)
      exact ⟨e, List.getElem?_append_left (List.getElem?_eq_some_iff.mp he).1 ▸ he, hse⟩
    · obtain ⟨s', hs', heq⟩ := List.mem_map.mp hs
      obtain ⟨rfl, rfl⟩ := FetchTask.resolve.inj heq
      exact ⟨(m, []), by simp [Fetching.receive], hs'⟩
  settled i e he s hs := by
    rcases Nat.lt_or_ge i f.modules.length with hi | hi
    · have he' : f.modules[i]? = some e := by
        rwa [Fetching.receive, List.getElem?_append_left hi] at he
      refine (h.settled i e he' s hs).imp_left fun htask => ?_
      rcases List.mem_cons.mp htask with htask | htask
      · cases htask
      · exact List.mem_append_left _ htask
    · rw [Fetching.receive, List.getElem?_append_right hi, List.getElem?_singleton] at he
      split at he
      · next hlast =>
        obtain rfl := Option.some.inj he
        have hi' : i = f.modules.length := Nat.le_antisymm (Nat.sub_eq_zero_iff_le.mp hlast) hi
        exact .inl (List.mem_append_right _ (List.mem_map.mpr ⟨s, hs, hi' ▸ rfl⟩))
      · cases he
  first := by
    refine .inl ?_
    rcases h.first with hfirst | ⟨hmodules, htasks⟩
    · simp only [Fetching.receive, ids, List.map_append, List.head?_append]
      exact (congrArg (Option.or · _) hfirst).trans rfl
    · obtain ⟨htask, -⟩ := List.cons.inj htasks
      have hmodules : f.modules = [] := hmodules
      simp [Fetching.receive, ids, hmodules, id_readModule hm, (FetchTask.load.inj htask).1]

theorem request {id : String} (importer : String) (h : Underway grammar p root f)
    (hid : Reached grammar p root id) (hne : f.modules ≠ []) :
    Underway grammar p root (f.request id importer) := by
  unfold Fetching.request
  split
  · exact h
  · next hnew =>
    have hnew : id ∉ f.requested := fun hmem => hnew (List.contains_iff_mem.mpr hmem)
    refine ⟨?_, ?_, ?_, h.read, ?_, ?_, .inl ?_⟩
    · intro id' h'
      rcases List.mem_append.mp h' with h' | h'
      · exact h.reached id' h'
      · exact List.mem_singleton.mp h' ▸ hid
    · exact List.nodup_append.mpr ⟨h.nodup, List.pairwise_singleton _ id,
        fun a ha b hb heq => hnew (List.mem_singleton.mp hb ▸ heq ▸ ha)⟩
    · simpa [ids, FetchTask.loads?] using h.asked.append_right [id]
    · intro i s hs
      rcases List.mem_append.mp hs with hs | hs
      · exact h.resolving i s hs
      · cases List.mem_singleton.mp hs
    · intro i e he s hs
      exact (h.settled i e he s hs).imp (List.mem_append_left _) fun ⟨r, hr, hget, hself, hreq⟩ =>
        ⟨r, hr, hget, hself, fun id' h' => List.mem_append_left _ (hreq id' h')⟩
    · exact h.first.resolve_right fun ⟨hnil, _⟩ => hne hnil

theorem record {i : Nat} {source : String} {e : Module × Table Resolution} {r : Resolution}
    (h : Underway grammar p root { f with tasks := .resolve i source :: tasks })
    (he : f.modules[i]? = some e) (hr : p.resolve source (some e.1.id) = .ok r)
    (hself : r ≠ .module e.1.id) (hreq : ∀ id, r = .module id → id ∈ f.requested) :
    Underway grammar p root { f with
      tasks
      modules := f.modules.modify i fun e => (e.1, e.2.insert source r) } := by
  have hids : (f.modules.modify i fun e => (e.1, e.2.insert source r)).map (·.1.id) = f.ids :=
    List.ext_getElem? fun j => by
      rw [ids, List.getElem?_map, List.getElem?_map, getElem?_record, Option.map_map]
      rfl
  refine ⟨h.reached, h.nodup, ?_, ?_, ?_, ?_, .inl ?_⟩
  · rw [ids, hids]
    exact h.asked
  · intro e' hmem
    obtain ⟨j, hj⟩ := List.mem_iff_getElem?.mp hmem
    rw [getElem?_record] at hj
    obtain ⟨e₁, he₁, rfl⟩ := Option.map_eq_some_iff.mp hj
    exact h.read e₁ (List.mem_of_getElem? he₁)
  · intro j s hs
    obtain ⟨e₁, he₁, hse⟩ := h.resolving j s (List.mem_cons_of_mem _ hs)
    have he₁ : f.modules[j]? = some e₁ := he₁
    exact ⟨_, (getElem?_record ..).trans (congrArg _ he₁), hse⟩
  · intro j e' hj s hs
    rw [getElem?_record] at hj
    obtain ⟨e₁, he₁, rfl⟩ := Option.map_eq_some_iff.mp hj
    by_cases hnow : i = j ∧ s = source
    · obtain ⟨rfl, rfl⟩ := hnow
      obtain rfl := Option.some.inj (he.symm.trans he₁)
      exact .inr ⟨r, hr, by rw [if_pos rfl, Table.get?_insert_self], hself, hreq⟩
    · refine (h.settled j e₁ he₁ s hs).imp (fun htask => ?_) fun ⟨r', hr', hget, hself', hreq'⟩ =>
        ⟨r', hr', ?_, hself', hreq'⟩
      · rcases List.mem_cons.mp htask with htask | htask
        · obtain ⟨hj, hs⟩ := FetchTask.resolve.inj htask
          exact absurd ⟨hj.symm, hs⟩ hnow
        · exact htask
      · dsimp only
        split
        · next hij => rw [Table.get?_insert, if_neg fun hs => hnow ⟨hij, hs⟩, hget]
        · exact hget
  · rw [ids, hids]
    refine h.first.resolve_right fun ⟨hnil, _⟩ => ?_
    have hnil : f.modules = [] := hnil
    rw [hnil] at he
    cases he

theorem learn {i : Nat} {source : String} {e : Module × Table Resolution} {r : Resolution}
    (h : Underway grammar p root { f with tasks := .resolve i source :: tasks })
    (he : f.modules[i]? = some e) (hs : source ∈ e.1.sources)
    (hr : p.resolve source (some e.1.id) = .ok r) (hself : r ≠ .module e.1.id) :
    Underway grammar p root (({ f with tasks } : Fetching).learn i e.1.id source r) := by
  cases r with
  | external id => exact h.record he hr hself fun id h => by cases h
  | module id =>
    have hid : Reached grammar p root id := by
      have hmem : e.1.id ∈ f.requested := by
        refine h.asked.mem_iff.mp (List.mem_append_left _ ?_)
        exact List.mem_map.mpr ⟨e, List.mem_of_getElem? he, rfl⟩
      exact .source (h.reached _ hmem) (h.read e (List.mem_of_getElem? he)) hs hr
    have hne : f.modules ≠ [] := fun hnil => by
      rw [hnil] at he
      cases he
    have hasked := h.request e.1.id hid hne
    rw [request_cons] at hasked
    have he' : (({ f with tasks } : Fetching).request id e.1.id).modules[i]? = some e := by
      rwa [modules_request]
    have hrecord := hasked.record he' hr hself fun id' h' =>
      mem_requested_request.mpr (.inr (Resolution.module.inj h').symm)
    rwa [modules_request] at hrecord

theorem step {i : Nat} (h : Underway grammar p root f) (hstep : f.step grammar p i = .ok f') :
    Underway grammar p root f' := by
  unfold Fetching.step at hstep
  split at hstep
  · obtain rfl := Except.ok.inj hstep
    exact h
  · next task htask =>
    have hfront := h.reorder (perm_eraseIdx htask)
    cases task with
    | load id importer =>
      obtain ⟨m, hm, rfl⟩ := load_ok.mp hstep
      exact hfront.receive hm
    | resolve i s =>
      obtain ⟨e, he, hs⟩ := hfront.resolving i s List.mem_cons_self
      obtain ⟨r, hr, hself, rfl⟩ := (resolve_ok (by exact he)).mp hstep
      exact hfront.learn he hs hr hself

theorem step_fetchable {i : Nat} (h : Underway grammar p root f) (hfetch : Fetchable grammar p root) :
    ∃ f', f.step grammar p i = .ok f' := by
  unfold Fetching.step
  split
  · exact ⟨f, rfl⟩
  · next task htask =>
    have hfront := h.reorder (perm_eraseIdx htask)
    cases task with
    | load id importer =>
      have hid : id ∈ f.requested := hfront.asked.mem_iff.mp
        (List.mem_append_right _ (List.mem_filterMap.mpr ⟨_, List.mem_cons_self, rfl⟩))
      obtain ⟨m, hm, -⟩ := hfetch id (h.reached id hid)
      exact ⟨_, load_ok.mpr ⟨m, hm, rfl⟩⟩
    | resolve i s =>
      obtain ⟨e, he, hs⟩ := hfront.resolving i s List.mem_cons_self
      have hid : e.1.id ∈ f.requested := hfront.asked.mem_iff.mp
        (List.mem_append_left _ (List.mem_map.mpr ⟨e, List.mem_of_getElem? he, rfl⟩))
      obtain ⟨m, hm, hsources⟩ := hfetch _ (h.reached _ hid)
      obtain rfl := Except.ok.inj ((h.read e (List.mem_of_getElem? he)).symm.trans hm)
      obtain ⟨r, hr, hself⟩ := hsources s hs
      exact ⟨_, (resolve_ok (by exact he)).mpr ⟨r, hr, hself, rfl⟩⟩

theorem mem_ids (h : Underway grammar p root f) (hdone : f.tasks = []) {id : String} :
    id ∈ f.ids ↔ Reached grammar p root id := by
  have hasked : f.ids.Perm f.requested := by simpa [hdone] using h.asked
  refine ⟨fun hid => h.reached id (hasked.mem_iff.mp hid), fun hid => ?_⟩
  induction hid with
  | root => exact List.mem_of_mem_head? (h.first.resolve_right fun ⟨_, ht⟩ => by simp [hdone] at ht)
  | source hid hm hs hr ih =>
    obtain ⟨e, he, rfl⟩ := List.mem_map.mp ih
    obtain rfl := Except.ok.inj ((h.read e he).symm.trans hm)
    obtain ⟨i, hi⟩ := List.mem_iff_getElem?.mp he
    obtain ⟨r, hr', -, -, hreq⟩ := (h.settled i e hi _ hs).resolve_left fun ht => by simp [hdone] at ht
    exact hasked.mem_iff.mpr (hreq _ (Except.ok.inj (hr'.symm.trans hr)))

theorem fetchable (h : Underway grammar p root f) (hdone : f.tasks = []) : Fetchable grammar p root := by
  intro id hid
  obtain ⟨e, he, rfl⟩ := List.mem_map.mp ((h.mem_ids hdone).mpr hid)
  obtain ⟨i, hi⟩ := List.mem_iff_getElem?.mp he
  refine ⟨e.1, h.read e he, fun s hs => ?_⟩
  obtain ⟨r, hr, -, hself, -⟩ := (h.settled i e hi s hs).resolve_left fun ht => by simp [hdone] at ht
  exact ⟨r, hr, hself⟩

end Underway

def cost (grammar : Grammar) (p : Pipeline) (id : String) : Nat :=
  match readModule grammar p id with
  | .ok m => m.sources.length + 1
  | .error _ => 1

/-- The tasks that some modules cause if none of them is there yet. -/
def taskCount (grammar : Grammar) (p : Pipeline) (all : List String) : Nat :=
  (all.map (cost grammar p)).sum

def left (grammar : Grammar) (p : Pipeline) (all : List String) (f : Fetching) : Nat :=
  (all.map (owed (cost grammar p) f.ids)).sum + f.tasks.countP FetchTask.isResolve

theorem left_start (all : List String) : left grammar p all (start root) = taskCount grammar p all := by
  have howed : owed (cost grammar p) [] = cost grammar p := funext fun id => if_neg List.not_mem_nil
  simp [left, start, ids, FetchTask.isResolve, taskCount, howed]

theorem cost_of_read {id : String} {m : Module} (hm : readModule grammar p id = .ok m) :
    cost grammar p id = m.sources.length + 1 := by
  rw [cost, hm]

theorem countP_request (f : Fetching) (id importer : String) :
    (f.request id importer).tasks.countP FetchTask.isResolve = f.tasks.countP FetchTask.isResolve := by
  unfold request
  split
  · rfl
  · simp [FetchTask.isResolve]

namespace Underway

variable {all : List String}

theorem notMem_ids {tasks : List FetchTask} {id : String} {importer : Option String}
    (h : Underway grammar p root { f with tasks := .load id importer :: tasks }) : id ∉ f.ids := by
  have hnodup := h.asked.nodup_iff.mpr h.nodup
  intro hid
  exact (List.nodup_append.mp hnodup).2.2 id hid id List.mem_cons_self rfl

theorem left_reorder {tasks : List FetchTask} (hp : tasks.Perm f.tasks) :
    left grammar p all { f with tasks } = left grammar p all f := by
  simp only [left, hp.countP_eq, ids]

theorem mem_requested {tasks : List FetchTask} {id : String} {importer : Option String}
    (h : Underway grammar p root { f with tasks := .load id importer :: tasks }) : id ∈ f.requested :=
  h.asked.mem_iff.mp (List.mem_append_right _ (List.mem_filterMap.mpr ⟨_, List.mem_cons_self, rfl⟩))

theorem left_receive {tasks : List FetchTask} {id : String} {importer : Option String} {m : Module}
    (h : Underway grammar p root { f with tasks := .load id importer :: tasks })
    (hm : readModule grammar p id = .ok m) (hid : id ∈ all) :
    left grammar p all (({ f with tasks } : Fetching).receive m) + 1 ≤
      left grammar p all { f with tasks := .load id importer :: tasks } := by
  have hsum := sum_owed (cost grammar p) hid h.notMem_ids
  rw [cost_of_read hm] at hsum
  have hids : (({ f with tasks } : Fetching).receive m).ids = f.ids ++ [id] := by
    simp [ids, Fetching.receive, id_readModule hm]
  have hnew : (m.sources.map (FetchTask.resolve f.modules.length ·)).countP FetchTask.isResolve =
      m.sources.length := by
    rw [List.countP_map]
    exact List.countP_eq_length.mpr fun s _ => rfl
  have hcount : (({ f with tasks } : Fetching).receive m).tasks.countP FetchTask.isResolve =
      tasks.countP FetchTask.isResolve + m.sources.length := by
    rw [Fetching.receive, List.countP_append, hnew]
  have hload : (FetchTask.load id importer :: tasks).countP FetchTask.isResolve =
      tasks.countP FetchTask.isResolve := List.countP_cons_of_neg Bool.false_ne_true
  have hsame : ({ f with tasks := .load id importer :: tasks } : Fetching).ids = f.ids := rfl
  simp only [left, hids, hcount, hload, hsame]
  omega

theorem left_learn {tasks : List FetchTask} {i : Nat} {id source : String} {r : Resolution} :
    left grammar p all (({ f with tasks } : Fetching).learn i id source r) + 1 =
      left grammar p all { f with tasks := .resolve i source :: tasks } := by
  have hids : (({ f with tasks } : Fetching).learn i id source r).ids = f.ids :=
    List.ext_getElem? fun j => by
      simp only [ids, List.getElem?_map, Fetching.learn, getElem?_record, Option.map_map]
      rfl
  have hcount : (({ f with tasks } : Fetching).learn i id source r).tasks.countP FetchTask.isResolve =
      tasks.countP FetchTask.isResolve := by
    cases r with
    | external id => rfl
    | module id' => exact countP_request { f with tasks } id' id
  have hresolve : (FetchTask.resolve i source :: tasks).countP FetchTask.isResolve =
      tasks.countP FetchTask.isResolve + 1 := List.countP_cons_of_pos rfl
  have hsame : ({ f with tasks := .resolve i source :: tasks } : Fetching).ids = f.ids := rfl
  simp only [left, hids, hcount, hresolve, hsame, Nat.add_assoc]

theorem left_pos (h : Underway grammar p root f)
    (hall : ∀ id, Reached grammar p root id → id ∈ all) (ht : f.tasks ≠ []) :
    0 < left grammar p all f := by
  obtain ⟨t, tasks, htasks⟩ := List.exists_cons_of_ne_nil ht
  cases t with
  | load id importer =>
    have h : Underway grammar p root { f with tasks := .load id importer :: tasks } := htasks ▸ h
    have hsum := sum_owed (cost grammar p) (hall id (h.reached id h.mem_requested))
      h.notMem_ids
    have hcost : 0 < cost grammar p id := by
      unfold cost
      split <;> omega
    unfold left
    omega
  | resolve i s =>
    have hcount : f.tasks.countP FetchTask.isResolve = tasks.countP FetchTask.isResolve + 1 :=
      htasks ▸ List.countP_cons_of_pos rfl
    unfold left
    omega

theorem left_step {i : Nat} {task : FetchTask} (h : Underway grammar p root f)
    (hall : ∀ id, Reached grammar p root id → id ∈ all) (htask : f.tasks[i]? = some task)
    (hstep : f.step grammar p i = .ok f') : left grammar p all f' + 1 ≤ left grammar p all f := by
  have hfront := h.reorder (perm_eraseIdx htask)
  rw [← left_reorder (perm_eraseIdx htask)]
  simp only [Fetching.step, htask] at hstep
  cases task with
  | load id importer =>
    obtain ⟨m, hm, rfl⟩ := load_ok.mp hstep
    exact hfront.left_receive hm (hall id (h.reached id hfront.mem_requested))
  | resolve i s =>
    obtain ⟨e, he, hs⟩ := hfront.resolving i s List.mem_cons_self
    obtain ⟨r, hr, hself, rfl⟩ := (resolve_ok (by exact he)).mp hstep
    exact Nat.le_of_eq left_learn

theorem runIn_cons (grammar : Grammar) (p : Pipeline) (i : Nat) (order : List Nat) (ht : f.tasks ≠ []) :
    ∃ task, f.tasks[i % f.tasks.length]? = some task ∧
      runIn grammar p (i :: order) f =
        f.step grammar p (i % f.tasks.length) >>= runIn grammar p order := by
  have hlt := Nat.mod_lt i (List.length_pos_iff.mpr ht)
  refine ⟨_, List.getElem?_eq_getElem hlt, ?_⟩
  rw [runIn, if_neg (by simpa using ht)]

theorem after_runIn {order : List Nat} (h : Underway grammar p root f) (hrun : runIn grammar p order f = .ok f') :
    Underway grammar p root f' := by
  induction order generalizing f with
  | nil =>
    obtain rfl := Except.ok.inj hrun
    exact h
  | cons i order ih =>
    by_cases ht : f.tasks = []
    · rw [runIn, if_pos (by simp [ht])] at hrun
      obtain rfl := Except.ok.inj hrun
      exact h
    · obtain ⟨-, -, hcons⟩ := runIn_cons grammar p i order ht
      obtain ⟨f₁, hf₁, hrun⟩ := bind_eq_ok.mp (hcons ▸ hrun)
      exact ih (h.step hf₁) hrun

/-- An order that is long enough completes all tasks, unless it fails. -/
theorem runIn_ok {order : List Nat} (h : Underway grammar p root f)
    (hall : ∀ id, Reached grammar p root id → id ∈ all) (hlen : left grammar p all f ≤ order.length)
    (hrun : runIn grammar p order f = .ok f') : Underway grammar p root f' ∧ f'.tasks = [] := by
  refine ⟨h.after_runIn hrun, ?_⟩
  induction order generalizing f with
  | nil =>
    obtain rfl := Except.ok.inj hrun
    by_contra ht
    exact absurd (h.left_pos hall ht) (Nat.not_lt.mpr hlen)
  | cons i order ih =>
    by_cases ht : f.tasks = []
    · rw [runIn, if_pos (by simp [ht])] at hrun
      obtain rfl := Except.ok.inj hrun
      exact ht
    · obtain ⟨task, htask, hcons⟩ := runIn_cons grammar p i order ht
      obtain ⟨f₁, hf₁, hrun⟩ := bind_eq_ok.mp (hcons ▸ hrun)
      have hleft := h.left_step hall htask hf₁
      rw [List.length_cons] at hlen
      exact ih (h.step hf₁) (by omega) hrun

theorem runIn_fetchable (order : List Nat) (h : Underway grammar p root f) (hfetch : Fetchable grammar p root) :
    ∃ f', runIn grammar p order f = .ok f' := by
  induction order generalizing f with
  | nil => exact ⟨f, rfl⟩
  | cons i order ih =>
    by_cases ht : f.tasks = []
    · exact ⟨f, by rw [runIn, if_pos (by simp [ht])]⟩
    · obtain ⟨task, -, hcons⟩ := runIn_cons grammar p i order ht
      obtain ⟨f₁, hf₁⟩ := h.step_fetchable (i := i % f.tasks.length) hfetch
      obtain ⟨f', hf'⟩ := ih (h.step hf₁)
      exact ⟨f', hcons ▸ bind_eq_ok.mpr ⟨f₁, hf₁, hf'⟩⟩

theorem runIn_ok_iff {order : List Nat} (h : Underway grammar p root f)
    (hall : ∀ id, Reached grammar p root id → id ∈ all) (hlen : left grammar p all f ≤ order.length) :
    (∃ f', runIn grammar p order f = .ok f') ↔ Fetchable grammar p root := by
  refine ⟨fun ⟨f', hf'⟩ => ?_, h.runIn_fetchable order⟩
  obtain ⟨h', hdone⟩ := h.runIn_ok hall hlen hf'
  exact h'.fetchable hdone

end Underway

end Fetching

def fetchIn (grammar : Grammar) (p : Pipeline) (order : List Nat) (entry : String) :
    Except Error Fetching := do
  match ← p.resolve entry none with
  | .external _ => throw (.unresolvedEntry entry)
  | .module id => Fetching.runIn grammar p order (Fetching.start id)

theorem exists_root_of_fetchIn {grammar : Grammar} {p : Pipeline} {order : List Nat} {entry : String} {f : Fetching}
    (h : fetchIn grammar p order entry = .ok f) :
    ∃ root, p.resolve entry none = .ok (.module root) ∧ Fetching.Underway grammar p root f := by
  obtain ⟨r, hr, h⟩ := bind_eq_ok.mp h
  cases r with
  | external id => cases h
  | module root => exact ⟨root, hr, (Fetching.underway_start grammar p root).after_runIn h⟩

/-- A graph is that of a fetch in the order in which tasks came up, which has none left. -/
theorem fetchGraph_eq_ok_iff {grammar : Grammar} {p : Pipeline} {entry : String} {g : Graph} :
    fetchGraph grammar p entry = .ok g ↔
      ∃ f, fetchIn grammar p (List.replicate taskLimit 0) entry = .ok f ∧ f.tasks = [] ∧ f.graph = g := by
  unfold fetchGraph fetchIn
  cases hr : p.resolve entry none with
  | error e => exact ⟨nofun, fun ⟨f, hf, _⟩ => nomatch hf⟩
  | ok r =>
    cases r with
    | external id => exact ⟨nofun, fun ⟨f, hf, _⟩ => nomatch hf⟩
    | module id =>
      show (Fetching.run grammar p entry taskLimit (Fetching.start id) >>= fun f => .ok f.graph) = .ok g ↔ _
      refine bind_eq_ok.trans (exists_congr fun f => ?_)
      rw [Fetching.run_eq_ok, and_assoc]
      exact and_congr_right fun _ => and_congr_right fun _ => ⟨Except.ok.inj, congrArg Except.ok⟩

end Treeshake
