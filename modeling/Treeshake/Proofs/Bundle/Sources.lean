import Treeshake.Bundle
import Treeshake.Proofs.Fetch.Texts
import Treeshake.Proofs.Graph.Built
import Treeshake.Proofs.Graph.Order
import Treeshake.Proofs.Graph.Rendered
/-!
The sources of an output. Main statement: an output is made of the texts that the pipeline gives for the modules
that leave any text, its map has their last texts as its sources, and if any of them has maps it is collapsed
through all of theirs.
-/
set_option autoImplicit false

namespace Treeshake

/-- The maps of a text, and the text before them. -/
def Texts.chain (t : Texts) : SourceMap.Chain := ⟨t.maps, t.first⟩

namespace Assembly

@[simp] theorem sources_prepend (a : Assembly) (text : String) : (a.prepend text).sources = a.sources := rfl

@[simp] theorem sources_append (a : Assembly) (text : String) : (a.append text).sources = a.sources := rfl

@[simp] theorem sources_indent (a : Assembly) (unit : String) : (a.indent unit).sources = a.sources := rfl

@[simp] theorem sources_trim (a : Assembly) : a.trim.sources = a.sources := by
  have hstart : a.trimStart.sources = a.sources := by
    rw [trimStart]
    dsimp only
    split <;> rfl
  have hend : a.trimStart.trimEnd.sources = a.trimStart.sources := by
    rw [trimEnd]
    dsimp only
    split <;> rfl
  exact hend.trans hstart

theorem sources_add {a a' : Assembly} {d : Draft} {name : String} (hname : name ∉ a.filenames)
    (h : a.add d (some name) = .ok a') : a'.sources = a.sources ++ [(name, d.source)] := by
  have hlookup : a.sources.lookup name = none := by
    refine List.lookup_eq_none_iff.mpr fun s hs => ?_
    rw [bne_iff_ne]
    rintro rfl
    exact hname (List.mem_map_of_mem hs)
  rw [add] at h
  dsimp only at h
  rw [hlookup] at h
  exact Except.ok.inj h ▸ rfl

end Assembly

namespace Wrapper

@[simp] theorem sources_prependBlock (text : String) (a : Assembly) : (prependBlock text a).sources = a.sources := by
  rw [prependBlock]
  split <;> rfl

@[simp] theorem sources_appendBlock (text : String) (a : Assembly) : (appendBlock text a).sources = a.sources := by
  rw [appendBlock]
  split <;> rfl

@[simp] theorem sources_body (w : Wrapper) (mechanism : String) (a : Assembly) :
    (w.body mechanism a).sources = a.sources := by
  rw [body, sources_appendBlock, sources_prependBlock]

@[simp] theorem sources_wrap (w : Wrapper) (a : Assembly) : (w.wrap a).sources = a.sources := by
  rw [wrap]
  split
  · simp [es6]
  · simp [cjs]
  · simp [amd]
  · simp [iife]
  · simp [umd]

end Wrapper

namespace Bundle

variable {b : Bundle} {parts : List (Nat × Draft)}

def textsOf (b : Bundle) (parts : List (Nat × Draft)) : List Texts :=
  (parts.filterMap fun part => b.graph.modules[part.1]?).map fun m => m.texts

/-- Parts of an output, each a draft of the text of its module, and no module has two. -/
structure Parts (b : Bundle) (parts : List (Nat × Draft)) : Prop where
  nodup : (parts.map (·.1)).Nodup
  source : ∀ part ∈ parts, ∃ m, b.graph.modules[part.1]? = some m ∧ part.2.source = m.draft.source

theorem drafts_renderModule {g : Graph} {es6 : Bool} {order : List Nat} {drafts : List (Nat × Draft)}
    (h : order.mapM (fun i => return (i, ← Error.ofEdit (g.renderModule i es6))) = Except.ok drafts) :
    drafts.map (·.1) = order ∧ ∀ part ∈ drafts, g.renderModule part.1 es6 = .ok part.2 := by
  replace h := mapM_eq_ok.mp h
  induction h with
  | nil => exact ⟨rfl, fun part hpart => by cases hpart⟩
  | cons hrendered _ ih =>
    obtain ⟨d, hd, hpart⟩ := bind_eq_ok.mp hrendered
    obtain rfl := Except.ok.inj hpart
    exact ⟨congrArg _ ih.1, List.forall_mem_cons.mpr ⟨mapError_eq_ok.mp hd, ih.2⟩⟩

theorem parts_rendered (horder : b.order.Perm (List.range b.graph.modules.length)) {es6 : Bool}
    (h : b.rendered es6 = .ok parts) : b.Parts parts := by
  obtain ⟨drafts, hdrafts, h⟩ := bind_eq_ok.mp h
  obtain rfl := Except.ok.inj h
  obtain ⟨hindices, hrendered⟩ := drafts_renderModule hdrafts
  refine ⟨?_, fun part hpart => ?_⟩
  · refine List.Nodup.sublist (List.filter_sublist.map _) ?_
    rw [hindices]
    exact horder.nodup_iff.mpr List.nodup_range
  · have hdraft := (List.mem_filter.mp hpart).1
    have hi : part.1 ∈ b.order := hindices ▸ List.mem_map_of_mem hdraft
    have hm := List.getElem?_eq_getElem (List.mem_range.mp (horder.subset hi))
    exact ⟨_, hm, Graph.of_renderModule hm es6 _ (hrendered part hdraft)⟩

theorem Parts.tail {part : Nat × Draft} (h : b.Parts (part :: parts)) : b.Parts parts :=
  ⟨(List.nodup_cons.mp h.nodup).2, fun p hp => h.source p (List.mem_cons_of_mem _ hp)⟩

theorem mem_textsOf {t : Texts} (ht : t ∈ b.textsOf parts) : t ∈ b.graph.texts := by
  obtain ⟨m, hm, rfl⟩ := List.mem_map.mp ht
  obtain ⟨part, -, hm⟩ := List.mem_filterMap.mp hm
  exact List.mem_map_of_mem (List.mem_of_getElem? hm)

theorem Parts.map_source (h : b.Parts parts) :
    parts.map (fun part => (b.graph.moduleId part.1, part.2.source)) =
      (b.textsOf parts).map fun t => (t.id, t.last) := by
  induction parts with
  | nil => rfl
  | cons part parts ih =>
    obtain ⟨m, hm, hsource⟩ := h.source part List.mem_cons_self
    have hid : b.graph.moduleId part.1 = m.id := by
      rw [Graph.moduleId, hm]
      rfl
    have htexts : b.textsOf (part :: parts) = m.texts :: b.textsOf parts :=
      congrArg (List.map _) (List.filterMap_cons_some (f := fun p : Nat × Draft => b.graph.modules[p.1]?) hm)
    rw [htexts, List.map_cons, List.map_cons, ih h.tail, hid, hsource]
    rfl

theorem Parts.nodup_ids (h : b.Parts parts) (hids : (b.graph.texts.map (·.id)).Nodup) :
    (parts.map fun part => b.graph.moduleId part.1).Nodup := by
  have hget : ∀ i ∈ parts.map (·.1), (b.graph.texts.map (·.id))[i]? = some (b.graph.moduleId i) := by
    intro i hi
    obtain ⟨part, hpart, rfl⟩ := List.mem_map.mp hi
    obtain ⟨m, hm, -⟩ := h.source part hpart
    rw [List.getElem?_map, Graph.texts, List.getElem?_map, Graph.moduleId, hm]
    rfl
  have hnodup : ((parts.map (·.1)).map b.graph.moduleId).Nodup := by
    refine h.nodup.map_on fun i hi j hj hij => ?_
    have hlt := (List.getElem?_eq_some_iff.mp (hget i hi)).1
    exact (List.getElem?_inj hlt hids).mp (by rw [hget i hi, hget j hj, hij])
  rwa [List.map_map] at hnodup

theorem sources_foldlM_add {id : Nat → String} {a a' : Assembly}
    (h : parts.foldlM (fun a (i, d) => Error.ofEdit (a.add d (some (id i)))) a = .ok a')
    (hids : (a.filenames ++ parts.map fun part => id part.1).Nodup) :
    a'.sources = a.sources ++ parts.map fun part => (id part.1, part.2.source) := by
  induction parts generalizing a with
  | nil =>
    obtain rfl := Except.ok.inj h
    exact (List.append_nil _).symm
  | cons part parts ih =>
    rw [List.foldlM_cons] at h
    obtain ⟨a₁, ha₁, h⟩ := bind_eq_ok.mp h
    rw [List.map_cons, List.append_cons] at hids
    have hname : id part.1 ∉ a.filenames := fun hmem =>
      (List.nodup_append.mp hids.of_append_left).2.2 _ hmem _ (List.mem_singleton.mpr rfl) rfl
    have hsources := Assembly.sources_add hname (mapError_eq_ok.mp ha₁)
    have hfilenames : a₁.filenames = a.filenames ++ [id part.1] := by
      rw [Assembly.filenames, hsources, List.map_append]
      rfl
    rw [ih h (hfilenames ▸ hids), hsources, List.map_cons, List.append_assoc]
    rfl

theorem sources_compose (h : b.Parts parts) (hids : (b.graph.texts.map (·.id)).Nodup) {o : OutputOptions}
    {mode : ExportMode} {a : Assembly} (ha : b.compose o mode parts = .ok a) :
    a.sources = (b.textsOf parts).map fun t => (t.id, t.last) := by
  obtain ⟨a₁, ha₁, ha⟩ := bind_eq_ok.mp ha
  obtain ⟨a₀, ha₀, ha₁⟩ := bind_eq_ok.mp ha₁
  have hparts := sources_foldlM_add ha₀ (h.nodup_ids hids)
  have hinner : a₁.sources = a₀.sources := by
    rw [← Except.ok.inj ha₁]
    split <;> split <;> simp
  have houter : a.sources = a₁.sources := by
    rw [← Except.ok.inj ha]
    split <;> split <;> simp
  rw [houter, hinner, hparts, ← h.map_source]
  rfl

theorem gives_build {grammar : Grammar} {s : Storage} {o : BuildOptions} (h : build grammar s o = .ok b) :
    (o.pipeline.withStorage s o.packages).Gives b.graph.texts ∧
      b.order.Perm (List.range b.graph.modules.length) := by
  obtain ⟨g, hg, h⟩ := bind_eq_ok.mp h
  obtain ⟨⟨link, g₁⟩, hbind, h⟩ := bind_eq_ok.mp h
  obtain ⟨⟨passes, g₂⟩, hmark, h⟩ := bind_eq_ok.mp h
  have hgraph : (g₂.deconflict g₂.order).1 = b.graph := congrArg Bundle.graph (Except.ok.inj h)
  have horder : g₂.order = b.order := congrArg Bundle.order (Except.ok.inj h)
  obtain ⟨hgives, modules, externals, hfetched, rfl⟩ := gives_fetchGraph hg
  -- linking, marking and naming leave the texts as they were fetched
  have hlinked : g₁.Linked := ⟨modules, externals, link, hfetched, hbind⟩
  have hbound := Graph.registers_bind (Graph.registered_ofModules hfetched) hbind
  have hmarked := hlinked.registered_mark hmark
  have hmodules := (Graph.renamed_deconflict g₂ g₂.order).modules
  rw [hgraph] at hmodules
  have htexts : b.graph.texts = (Graph.ofModules modules externals).texts := by
    rw [Graph.texts, hmodules]
    exact hmarked.texts.trans hbound.texts
  refine ⟨htexts ▸ hgives, ?_⟩
  rw [← horder, hmodules]
  exact Graph.order_mark hlinked hmark

/-- What an output is made from: its code with the modules in it, before it becomes a text. -/
def assembled (b : Bundle) (o : OutputOptions) : Except Error Assembly := do
  let mode ← b.graph.checkOptions o
  let parts ← b.rendered (o.format == .es6)
  b.compose o mode parts

def directMap (o : OutputOptions) (a : Assembly) : SourceMap :=
  a.map { file := o.mapFile.or o.dest, includeContent := true }

/-- That map, or if any of the texts has maps, the one that leads through them to the first texts. -/
def mapThrough (o : OutputOptions) (a : Assembly) (ts : List Texts) : Except Error SourceMap :=
  if ts.any fun t => !t.maps.isEmpty then Error.ofMap ((directMap o a).collapse (ts.map (·.chain)))
  else .ok (directMap o a)

theorem mapOf_eq (o : OutputOptions) (a : Assembly) : b.mapOf o parts a = do
    let m ← mapThrough o a (b.textsOf parts)
    return { m with sources := m.sources.map (·.map Path.normalizeSlashes) } := by
  have hany : ((b.textsOf parts).any fun t => !t.maps.isEmpty) =
      (parts.filterMap fun part => b.graph.modules[part.1]?).any fun m => !m.maps.isEmpty := List.any_map
  have hchains : (b.textsOf parts).map (·.chain) =
      (parts.filterMap fun part => b.graph.modules[part.1]?).map fun m => ⟨m.maps, m.firstCode⟩ :=
    List.map_map
  rw [mapOf, mapThrough, hany, hchains]
  dsimp only
  split <;> rfl

/-- An output is made of texts that the pipeline gives, and its map leads through their maps. -/
theorem generate_build {grammar : Grammar} {s : Storage} {o : BuildOptions} (hb : build grammar s o = .ok b)
    {options : OutputOptions} {a : Assembly} (ha : b.assembled options = .ok a)
    (hmap : options.wantsMap = true) :
    ∃ ts : List Texts, (o.pipeline.withStorage s o.packages).Gives ts ∧
      a.sources = ts.map (fun t => (t.id, t.last)) ∧
      b.generate options = do
        let m ← mapThrough options a ts
        return ⟨a.text, some { m with sources := m.sources.map (·.map Path.normalizeSlashes) }⟩ := by
  obtain ⟨hgives, horder⟩ := gives_build hb
  obtain ⟨mode, hmode, ha⟩ := bind_eq_ok.mp ha
  obtain ⟨parts, hrendered, ha⟩ := bind_eq_ok.mp ha
  have hparts := parts_rendered horder hrendered
  refine ⟨b.textsOf parts, ⟨?_, fun t ht => hgives.source t (mem_textsOf ht)⟩,
    sources_compose hparts hgives.nodup ha, ?_⟩
  · have hids := congrArg (List.map (·.1)) hparts.map_source
    rw [List.map_map, List.map_map] at hids
    exact hids ▸ hparts.nodup_ids hgives.nodup
  · have hgenerate : b.generate options = do return ⟨a.text, some (← b.mapOf options parts a)⟩ := by
      rw [generate, hmode]
      change b.rendered (options.format == .es6) >>= _ = _
      rw [hrendered]
      change b.compose options mode parts >>= _ = _
      rw [ha]
      exact if_pos hmap
    rw [hgenerate, mapOf_eq, bind_assoc]
    rfl

end Bundle

end Treeshake
