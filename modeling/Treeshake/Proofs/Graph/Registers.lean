import Treeshake.Proofs.Graph.Changes
import Treeshake.Proofs.Graph.Mark
/-!
What linking and marking modules does not change. Main statement: in every graph that comes from it, the names
of the wrappers are among the global ones, an external module has one declaration for a name, and the modules
have their texts.
-/
set_option autoImplicit false

namespace Treeshake

/-- What a module keeps of its texts: the first one, the maps that lead from it to the last, and the one that
its draft began with, the last. -/
structure Texts where
  id : String
  first : String
  maps : List (Option SourceMap)
  last : String

def Module.texts (m : Module) : Texts := ⟨m.id, m.firstCode, m.maps, m.draft.source⟩

namespace Graph

def texts (g : Graph) : List Texts := g.modules.map fun m => m.texts

theorem texts_modifyModule (g : Graph) (i : Nat) {f : LinkedModule → LinkedModule}
    (hf : ∀ m, (f m).texts = m.texts) : (g.modifyModule i f).texts = g.texts :=
  map_modify_of_eq hf g.modules i

/-- The names of the wrappers are not free, no external module registers a name twice, and the modules have
their texts. -/
structure Registered (T : List Texts) (g : Graph) : Prop where
  globals : ∀ name ∈ wrapperNames, name ∈ g.globals
  names : ∀ e ∈ g.externals, e.declarations.keys.Nodup
  texts : g.texts = T

variable {T : List Texts} {g h k : Graph}

theorem Registered.congr (hg : Registered T g) (hglobals : h.globals = g.globals)
    (hexternals : h.externals = g.externals) (htexts : h.texts = g.texts) : Registered T h := by
  refine ⟨?_, ?_, htexts.trans hg.texts⟩
  · rw [hglobals]
    exact hg.globals
  · rw [hexternals]
    exact hg.names

theorem Registered.modifyExternal (hg : Registered T g) (external : Nat) {f : External → External}
    (hf : ∀ e, e.declarations.keys.Nodup → (f e).declarations.keys.Nodup) :
    Registered T (g.modifyExternal external f) := by
  refine ⟨hg.globals, fun e he => ?_, hg.texts⟩
  obtain ⟨i, hi⟩ := List.mem_iff_getElem?.mp he
  rw [Graph.modifyExternal, getElem?_modify_eq] at hi
  split at hi
  · obtain ⟨e', he', rfl⟩ := Option.map_eq_some_iff.mp hi
    exact hf e' (hg.names e' (List.mem_of_getElem? he'))
  · exact hg.names e (List.mem_of_getElem? hi)

theorem Registered.addGlobal (hg : Registered T g) (name : String) :
    Registered T { g with globals := addNew name g.globals } := by
  refine ⟨fun wrapper hw => ?_, hg.names, hg.texts⟩
  have hmem := hg.globals wrapper hw
  dsimp only [addNew]
  split
  · exact hmem
  · exact List.mem_append_left _ hmem

theorem Registered.useAsValue (hg : Registered T g) (id : Nat) : Registered T (g.useAsValue id) := by
  rcases useAsValue_cases g id with h | ⟨d, module, members, -, -, h⟩ <;> rw [h]
  · exact hg
  · exact hg.congr rfl rfl rfl

theorem Registered.tweak (hg : Registered T g) (ht : Tweak g h) : Registered T h := by
  cases ht with
  | external i f hf => exact hg.modifyExternal i hf
  | whole i id => exact hg.congr rfl rfl (texts_modifyModule g i fun _ => rfl)
  | global name => exact hg.addGlobal name
  | push | declaration | value => exact hg.congr rfl rfl rfl

theorem Registered.change (hg : Registered T g) (hc : Change g h) : Registered T h := by
  cases hc with
  | tweak ht => exact hg.tweak ht
  | stars => exact hg.congr rfl rfl List.map_map
  | references k references _ => exact hg.congr rfl rfl (texts_modifyModule g k.module fun _ => rfl)

theorem Registered.changes (hg : Registered T g) (hc : Changes g h) : Registered T h := by
  induction hc with
  | refl => exact hg
  | tail _ hstep ih => exact ih.change hstep

theorem registers_bind (hg : Registered T g) {stats : LinkStats} (hrun : bind.run g = .ok (stats, h)) :
    Registered T h :=
  hg.changes (takes_bind stats h hrun)

theorem Registered.keep (hg : Registered T g) (r : StatementRef) : Registered T (g.keep r).1 := by
  unfold Graph.keep
  split
  · exact hg
  · split
    · exact hg
    · exact hg.congr rfl rfl (texts_modifyModule g r.module fun _ => rfl)

theorem Registered.keepOf (hg : Registered T g) (o : Option StatementRef) : Registered T (g.keepOf o).1 := by
  cases o with
  | none => exact hg
  | some r => exact hg.keep r

theorem Registered.flagExport (hg : Registered T g) (name : String) (id : Nat) :
    Registered T (g.flagExport name id) := by
  have hflag : Registered T ({ g with entryExports := g.entryExports.insert name id }.modifyDeclaration id
      fun d => { d with exported := true }) := hg.congr rfl rfl rfl
  exact hflag.useAsValue id

theorem Registered.scan {a b : Graph × List Nat} (hg : Registered T a.1) (hs : Scan a b) : Registered T b.1 := by
  cases hs with
  | export_ _ hrun => exact (hg.changes (Tweaks.changes (takes_traceExport _ _ _ _ _ hrun))).flagExport _ _
  | @use g p q id d _ _ _ =>
    have hflag : Registered T (g.flagUsed id) := hg.congr rfl rfl rfl
    exact hflag.keepOf d.statement
  | drop _ => exact hg
  | @effect g h p r _ hrun => exact (hg.changes (Tweaks.changes (takes_hasSideEffects r true h hrun))).keep r
  | @idle g h p r _ hrun => exact hg.changes (Tweaks.changes (takes_hasSideEffects r false h hrun))

theorem registered_ofModules {modules : List (Module × Table Target)} {externals : List External}
    (hf : Fetched modules externals) :
    Registered (ofModules modules externals).texts (ofModules modules externals) := by
  refine ⟨fun _ h => h, fun e he => ?_, rfl⟩
  rw [hf.unused e he]
  exact List.nodup_nil

theorem Linked.registered (hg : g.Linked) : Registered g.texts g := by
  obtain ⟨modules, externals, stats, hf, hrun⟩ := hg
  have hregistered := registers_bind (registered_ofModules hf) hrun
  rwa [← hregistered.texts] at hregistered

theorem Linked.registered_mark (hg : g.Linked) {passes : Nat} (hrun : mark.run g = .ok (passes, h)) :
    Registered g.texts h := by
  obtain ⟨R, n, hR, hw⟩ := hg.wired
  have hscans : Scans (g, []) (h, []) := (mark_settles hR hw hrun).1
  have hkeeps : ∀ b, Scans (g, []) b → Registered g.texts b.1 := by
    intro b hb
    induction hb with
    | refl => exact hg.registered
    | tail _ hstep ih => exact ih.scan hstep
  exact hkeeps _ hscans

end Graph
end Treeshake
