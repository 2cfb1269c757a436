import Treeshake.Proofs.Draft.Hires
import Treeshake.Proofs.Fetch.Canonical
import Treeshake.Proofs.Graph.Registers
import Treeshake.Proofs.Module.Fresh
/-!
The texts of fetched modules. Main statements: a module whose transforms edit what its loader found has the
detailed maps of these edits, and every module of a fetched graph has the texts that the pipeline gives for its
id, which no other module of the graph has.
-/
set_option autoImplicit false

namespace Treeshake

open SourceMap

/-- Transforms one after the other, each of which leaves the text of a module as it is or gives the text and the
detailed map of an edited draft of it. -/
inductive Transform.Edits (id : String) : List Transform → String → List Draft → String → Prop
  | nil (text : String) : Edits id [] text [] text
  | leave {t : Transform} {ts : List Transform} {text last : String} {drafts : List Draft}
      (h : t text id = .ok none) (rest : Edits id ts text drafts last) : Edits id (t :: ts) text drafts last
  | edit {t : Transform} {ts : List Transform} {text last : String} {d : Draft} {drafts : List Draft}
      {o : MapOptions} (ho : o.hires = true) (edits : List Edit) (hd : d = (Draft.ofText text).edit edits)
      (h : t text id = .ok (some ⟨d.text, some (d.map o)⟩)) (rest : Edits id ts d.text drafts last) :
      Edits id (t :: ts) text (d :: drafts) last

/-- What a loader finds under an id comes without a map, and the transforms edit it. -/
structure Pipeline.Delivers (p : Pipeline) (id text : String) (drafts : List Draft) (last : String) : Prop where
  loaded : ∃ tree, firstAnswer (fun l : Loader => l id) p.loaders = .ok (some { code := text, tree })
  edited : Transform.Edits id p.transforms text drafts last

variable {id text last : String} {ts : List Transform} {drafts : List Draft} {p : Pipeline}

theorem Transform.Edits.revises (h : Transform.Edits id ts text drafts last) : Draft.Revises text drafts last := by
  induction h with
  | nil text => exact .nil text
  | leave _ _ ih => exact ih
  | @edit t ts text last d drafts o _ edits hd _ _ ih =>
    have hsource : d.source = text := hd ▸ Draft.source_edit (Draft.intact_ofText text) edits
    have hintact : d.Intact := hd ▸ Draft.intact_edit (Draft.intact_ofText text) edits
    exact hsource ▸ .cons hintact ih

theorem Transform.Edits.foldlM (h : Transform.Edits id ts text drafts last) {s : Source} (hs : s.code = text) :
    ∃ tree maps, ts.foldlM (Pipeline.transform id) s = .ok ⟨last, s.firstCode, tree, s.maps ++ maps⟩ ∧
      Chain.decoded ⟨maps, s.firstCode⟩ = .ok (drafts.map Draft.detail) := by
  induction h generalizing s with
  | nil text =>
    refine ⟨s.tree, [], ?_, rfl⟩
    rw [List.append_nil, ← hs]
    rfl
  | @leave t ts text last drafts h _ ih =>
    have hstep : Pipeline.transform id s t = .ok s := by
      rw [Pipeline.transform, hs, h]
      rfl
    rw [List.foldlM_cons, hstep]
    exact ih hs
  | @edit t ts text last d drafts o ho edits _ h _ ih =>
    let s' : Source := ⟨d.text, s.firstCode, none, s.maps ++ [some (d.map o)]⟩
    have hstep : Pipeline.transform id s t = .ok s' := by
      rw [Pipeline.transform, hs, h]
      rfl
    obtain ⟨tree, maps, hfold, hdecoded⟩ := ih (s := s') rfl
    refine ⟨tree, some (d.map o) :: maps, ?_, ?_⟩
    · rw [List.foldlM_cons, hstep]
      exact hfold.trans (by rw [List.append_assoc]; rfl)
    · rw [Chain.decoded, List.map_cons, List.mapM_cons]
      exact bind_eq_ok.mpr ⟨d.detail, Draft.decoded_map ho, bind_eq_ok.mpr ⟨_, hdecoded, rfl⟩⟩

theorem Pipeline.Delivers.fetch (h : p.Delivers id text drafts last) :
    ∃ tree maps, p.fetch id = .ok ⟨last, text, tree, maps⟩ ∧
      Chain.decoded ⟨maps, text⟩ = .ok (drafts.map Draft.detail) := by
  obtain ⟨tree, hloaded⟩ := h.loaded
  obtain ⟨tree', maps, hfold, hdecoded⟩ := h.edited.foldlM (s := ⟨text, text, tree, []⟩) rfl
  refine ⟨tree', maps, ?_, hdecoded⟩
  rw [Pipeline.fetch, hloaded]
  exact hfold

theorem texts_parse {grammar : Grammar} {source : Source} {m : Module}
    (h : Module.parse grammar id source = .ok m) : m.texts = ⟨id, source.firstCode, source.maps, source.code⟩ := by
  have hsource := Module.source_parse h
  obtain ⟨tree, -, h⟩ := bind_eq_ok.mp h
  obtain ⟨draft, -, h⟩ := bind_eq_ok.mp h
  obtain ⟨outline, -, h⟩ := bind_eq_ok.mp h
  obtain ⟨analysed, -, h⟩ := bind_eq_ok.mp h
  obtain rfl := Except.ok.inj h
  exact congrArg (Texts.mk id source.firstCode source.maps) hsource

namespace Fetching

variable {grammar : Grammar} {root : String} {f f' : Fetching}

theorem modules_canonical (f : Fetching) (order : List Nat) (externals : List External) (is : List Nat) :
    (f.canonical order externals is).1.map (·.1) = is.filterMap fun i => f.modules[i]?.map (·.1) := by
  induction is generalizing externals with
  | nil => rfl
  | cons i is ih =>
    rw [canonical_cons]
    cases hm : f.modules[i]? with
    | none =>
      rw [List.filterMap_cons_none (by rw [hm]; rfl)]
      exact ih externals
    | some e =>
      obtain ⟨m, resolutions⟩ := e
      rw [List.filterMap_cons_some (by rw [hm]; rfl)]
      exact congrArg (m :: ·) (ih _)

end Fetching

namespace Graph

theorem modules_linkAll (next module : Nat) (ms : List (Module × Table Target)) :
    (linkAll next module ms).1.map (·.toModule) = ms.map (·.1) := by
  induction ms generalizing next module with
  | nil => rfl
  | cons e ms ih =>
    obtain ⟨m, targets⟩ := e
    rw [linkAll_cons]
    exact congrArg (m :: ·) (ih _ _)

theorem texts_ofModules (modules : List (Module × Table Target)) (externals : List External) :
    (ofModules modules externals).texts = modules.map fun e => e.1.texts := by
  have hmodules := congrArg (List.map Module.texts) (modules_linkAll 0 0 modules)
  rwa [List.map_map, List.map_map] at hmodules

end Graph

/-- The texts of modules that a pipeline gives for their ids, each id once. -/
structure Pipeline.Gives (p : Pipeline) (T : List Texts) : Prop where
  nodup : (T.map (·.id)).Nodup
  source : ∀ t ∈ T, ∃ source, p.fetch t.id = .ok source ∧
    t = ⟨t.id, source.firstCode, source.maps, source.code⟩

theorem Fetching.gives_graph {grammar : Grammar} {root : String} {f : Fetching}
    (h : Underway grammar p root f) : p.Gives f.graph.texts := by
  have hids : f.ids.Nodup := (h.asked.nodup_iff.mpr h.nodup).of_append_left
  have htexts : f.graph.texts = f.order.filterMap fun i => f.modules[i]?.map (·.1.texts) := by
    have hmodules := congrArg (List.map Module.texts) (f.modules_canonical f.order [] f.order)
    rw [List.map_map, List.map_filterMap] at hmodules
    refine (Graph.texts_ofModules _ _).trans (hmodules.trans (congrArg (List.filterMap · _) (funext fun i => ?_)))
    cases f.modules[i]? <;> rfl
  refine ⟨?_, fun t ht => ?_⟩
  · have hfilter : f.graph.texts.map (·.id) = f.order.filterMap fun i => f.ids[i]? := by
      rw [htexts, List.map_filterMap]
      refine congrArg (List.filterMap · _) (funext fun i => ?_)
      rw [getElem?_ids]
      cases f.modules[i]? <;> rfl
    rw [hfilter]
    -- a walk enters no place twice, and no two places have the same id
    refine (f.nodup_walk List.nodup_nil).filterMap fun i j id hi hj => ?_
    obtain ⟨hlt, -⟩ := List.getElem?_eq_some_iff.mp hi
    exact (List.getElem?_inj hlt hids).mp (hi.trans hj.symm)
  · rw [htexts] at ht
    obtain ⟨i, -, hi⟩ := List.mem_filterMap.mp ht
    obtain ⟨e, he, rfl⟩ := Option.map_eq_some_iff.mp hi
    obtain ⟨source, hsource, hparse⟩ := bind_eq_ok.mp (h.read e (List.mem_of_getElem? he))
    exact ⟨source, hsource, texts_parse hparse⟩

theorem gives_fetchGraph {grammar : Grammar} {entry : String} {g : Graph}
    (h : fetchGraph grammar p entry = .ok g) : p.Gives g.texts ∧
      ∃ modules externals, Graph.Fetched modules externals ∧ g = Graph.ofModules modules externals := by
  obtain ⟨id, f, hrun, rfl⟩ := fetchGraph_eq_ok h
  have hunderway := (Fetching.underway_start grammar p id).after_runIn (Fetching.run_eq_ok.mp hrun).1
  exact ⟨Fetching.gives_graph hunderway, _, _, Fetching.fetched_canonical (Fetching.fresh_run hrun), rfl⟩

end Treeshake
