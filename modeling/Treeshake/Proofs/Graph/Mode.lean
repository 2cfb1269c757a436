import Treeshake.Output.Exports
import Treeshake.Proofs.Bundle.Accepted
import Treeshake.Proofs.Graph.Enumerated
import Treeshake.Proofs.Module.Exports
/-!
How the exports of the entry are shown. Main statement: the mode that is chosen where the caller leaves it open is that
of the exports, the other settings are rejected exactly where it would not have been chosen, and a rejection lists the
exports, unless the entry has star exports: a source stands in the list then for what comes from it.
-/
set_option autoImplicit false

namespace Treeshake

def ExportMode.ofNames (names : List String) : ExportMode :=
  if names = [] then .none else if names = ["default"] then .default else .named

namespace ExportMode

theorem ofNames_eq_none {names : List String} : ofNames names = .none ↔ names = [] := by
  unfold ofNames
  split
  · next h => simp [h]
  · next h => split <;> simp [h]

theorem ofNames_eq_default {names : List String} : ofNames names = .default ↔ names = ["default"] := by
  unfold ofNames
  split
  · next h => simp [h]
  · next h => split <;> simp_all

theorem ofNames_eq_named {names : List String} : ofNames names = .named ↔ names ≠ [] ∧ names ≠ ["default"] := by
  unfold ofNames
  split
  · next h => simp [h]
  · next h => split <;> simp_all

end ExportMode

namespace Graph

variable {g : Graph} {setting : ExportSetting} {e : Error}

theorem exportMode_auto (g : Graph) : g.exportMode .auto = .ok (.ofNames g.exportKeys) := by
  simp [exportMode, ExportMode.ofNames, List.isEmpty_iff]

theorem rejects_default (g : Graph) : (∃ e, g.exportMode .default = .error e) ↔ g.exportKeys ≠ ["default"] := by
  rw [exportMode]
  split
  · next h => simpa using h
  · next h => simpa using h

theorem rejects_none (g : Graph) : (∃ e, g.exportMode .none = .error e) ↔ g.exportKeys ≠ [] := by
  rw [exportMode]
  split
  · next h => simpa using h
  · next h => simpa using h

theorem exportMode_eq_error (h : g.exportMode setting = .error e) :
    e = .exportModeMismatch setting.name g.exportKeys := by
  cases setting with
  | auto => cases h
  | named => cases h
  | default | none =>
    rw [exportMode] at h
    split at h
    · cases h
    · exact (Except.error.inj h).symm

def entryOwn (g : Graph) : List String := (g.modules[entry]?.map fun m => m.exported).getD []

def entryStars (g : Graph) : List String := (g.modules[entry]?.map fun m => m.starSources).getD []

theorem exportKeys_eq (g : Graph) : g.exportKeys = g.entryOwn ++ g.entryStars := by
  rw [exportKeys, entryOwn, entryStars]
  cases g.modules[entry]? with
  | none => rfl
  | some m => rfl

theorem prefix_collectExports (g : Graph) (fuel i : Nat) (withDefault : Bool) (found : List Nat × List String) :
    found.2 <+: (g.collectExports fuel i withDefault found).2 := by
  induction fuel generalizing i withDefault found with
  | zero => exact List.prefix_refl found.2
  | succ fuel ih =>
    obtain ⟨visited, names⟩ := found
    unfold collectExports
    split
    · exact List.prefix_refl names
    · split
      · exact List.prefix_refl names
      · refine List.foldlRecOn (motive := fun found : List Nat × List String => names <+: found.2) _ _
          (prefix_foldl_addNew _ names) fun found hfound t _ => ?_
        cases t with
        | inside k => exact hfound.trans (ih k false found)
        | outside e => exact hfound

theorem exportNames_entry {m : LinkedModule} (hm : g.modules[entry]? = some m) (hown : m.exported.Nodup) :
    m.exported <+: g.exportNames entry ∧ (m.stars = [] → g.exportNames entry = m.exported) := by
  have hall : ((m.exports.keys ++ m.reexports.keys).filter fun n => true || n != "default") = m.exported :=
    List.filter_eq_self.mpr fun _ _ => rfl
  have hfirst : m.exported.foldl (fun names n => addNew n names) [] = m.exported := by
    have hnodup : ([] ++ m.exported).Nodup := hown
    rw [foldl_addNew_of_nodup hnodup, List.nil_append]
  have hunseen : ¬([] : List Nat).contains entry = true := Bool.false_ne_true
  rw [exportNames, collectExports, hm, if_neg hunseen]
  dsimp only
  rw [hall, hfirst]
  refine ⟨?_, fun hstars => by rw [hstars, List.foldl_nil]⟩
  refine List.foldlRecOn (motive := fun found : List Nat × List String => m.exported <+: found.2) _ _
    (List.prefix_refl m.exported) fun found hfound t _ => ?_
  cases t with
  | inside k => exact hfound.trans (prefix_collectExports g _ k false found)
  | outside e => exact hfound

/-- A graph of an entry that is linked and marked, before or after its declarations get their names. -/
def Marked (grammar : Grammar) (p : Pipeline) (id : String) (g : Graph) : Prop :=
  ∃ start linked marked stats passes, fetchGraph grammar p id = .ok start ∧
    bind.run start = .ok (stats, linked) ∧ mark.run linked = .ok (passes, marked) ∧
    (g = marked ∨ ∃ order, g = (marked.deconflict order).1)

section
variable {grammar : Grammar} {p : Pipeline} {id : String}

theorem Marked.entry_eq (h : Marked grammar p id g) {m : LinkedModule} (hm : g.modules[entry]? = some m) :
    m.exported.Nodup ∧ (m.starSources = [] → m.stars = []) ∧
      ("default" ∈ g.exportNames entry → "default" ∈ m.exported) := by
  obtain ⟨start, linked, marked, stats, passes, hfetch, hbind, hmark, hg⟩ := h
  obtain ⟨modules, externals, hf, hmodules, rfl⟩ := fetched_fetchGraph (P := fun m => m.exported.Nodup)
    (fun _ _ _ _ hparse => Module.nodup_exported hparse) hfetch
  obtain ⟨k, hk, hsame⟩ : ∃ k, Built modules externals k ∧ g.modules = k.modules := by
    refine ⟨(marked.deconflict []).1, ⟨stats, linked, passes, marked, [], hbind, hmark, rfl⟩, ?_⟩
    rw [(renamed_deconflict marked []).modules]
    rcases hg with rfl | ⟨order, rfl⟩
    · rfl
    · exact (renamed_deconflict marked order).modules
  rw [hsame] at hm
  obtain ⟨l, hlm, e, he, hmodule⟩ := hk.fetched hf hm
  have hexported : m.unlinked.exported = l.unlinked.exported := by rw [hlm.same]
  change m.exported = l.exported at hexported
  have hroutes : g.routes = k.routes := by rw [routes, hsame, routes]
  refine ⟨?_, fun hstars => by rw [hk.stars hf hm, hstars, List.filterMap_nil], fun hdefault => ?_⟩
  · rw [hexported, ← hmodule]
    exact hmodules e he
  · have hi : entry < (starred modules externals).routes.length := by
      rw [← hk.routes hf, length_routes]
      exact (List.getElem?_eq_some_iff.mp hm).1
    rw [exportNames_congr hroutes, mem_exportNames (ranged_starred hf) (hk.routes hf) hi] at hdefault
    obtain ⟨j, r, -, hr, hown, hj⟩ := hdefault
    obtain rfl := hj rfl
    rw [← hk.routes hf, getElem?_routes, hm] at hr
    obtain rfl := Option.some.inj hr
    exact hown

/-- The exports of the entry of a marked graph, and the keys that its mode is chosen by. -/
theorem Marked.exports (h : Marked grammar p id g) :
    (g.entryStars = [] → g.exportKeys = g.exportNames entry) ∧
      ∃ passed, g.exportNames entry = g.entryOwn ++ passed ∧ "default" ∉ passed := by
  rw [exportKeys_eq]
  cases hm : g.modules[entry]? with
  | none =>
    have hnames : g.exportNames entry = [] := by rw [exportNames, collectExports, hm]; rfl
    exact ⟨fun _ => by simp [entryOwn, entryStars, hm, hnames],
      [], by simp [entryOwn, hm, hnames], List.not_mem_nil⟩
  | some m =>
    obtain ⟨hown, hstars, hdefault⟩ := h.entry_eq hm
    obtain ⟨⟨passed, hpassed⟩, hall⟩ := exportNames_entry hm hown
    have heq : g.entryOwn = m.exported := by rw [entryOwn, hm]; rfl
    have hsources : g.entryStars = m.starSources := by rw [entryStars, hm]; rfl
    rw [heq, hsources]
    refine ⟨fun hnone => ?_, passed, hpassed.symm, fun hmem => ?_⟩
    · rw [hnone, List.append_nil, hall (hstars hnone)]
    · have hnodup : (m.exported ++ passed).Nodup := hpassed ▸ nodup_exportNames g entry
      exact List.disjoint_of_nodup_append hnodup
        (hdefault (hpassed ▸ List.mem_append_right _ hmem)) hmem

/-- A default is asked for, or no exports at all, without success exactly where the choice left open would be another
one. If the entry has no star exports, that choice is the mode of its exports, and whoever is refused is given their
names. If it has some, their sources are counted as exports and given to whoever is refused, whatever they pass on: the
choice is the mode of the exports then only if there are more than a default, and not just a source of that name. -/
theorem export_mode_agrees (h : Marked grammar p id g) :
    ((∃ e, g.exportMode .default = .error e) ↔ g.exportMode .auto ≠ .ok .default) ∧
    ((∃ e, g.exportMode .none = .error e) ↔ g.exportMode .auto ≠ .ok .none) ∧
    (g.entryStars = [] → g.exportMode .auto = .ok (.ofNames (g.exportNames entry)) ∧
      ∀ setting e, g.exportMode setting = .error e →
        e = .exportModeMismatch setting.name (g.exportNames entry)) ∧
    (g.entryStars ≠ [] → ∃ passed, g.exportNames entry = g.entryOwn ++ passed ∧ "default" ∉ passed ∧
      (g.exportMode .auto = .ok (.ofNames (g.exportNames entry)) ↔ g.exportNames entry ≠ [] ∧
        g.exportNames entry ≠ ["default"] ∧ ¬(g.entryOwn = [] ∧ g.entryStars = ["default"])) ∧
      ∀ setting e, g.exportMode setting = .error e →
        e = .exportModeMismatch setting.name (g.entryOwn ++ g.entryStars)) := by
  obtain ⟨hkeys, passed, hpassed, hdefault⟩ := h.exports
  refine ⟨?_, ?_, fun hnone => ⟨?_, fun setting e he => ?_⟩, fun hsome => ⟨passed, hpassed, hdefault, ?_,
    fun setting e he => ?_⟩⟩
  · rw [rejects_default, exportMode_auto, Ne, Ne, Except.ok.injEq, ExportMode.ofNames_eq_default]
  · rw [rejects_none, exportMode_auto, Ne, Ne, Except.ok.injEq, ExportMode.ofNames_eq_none]
  · rw [exportMode_auto, hkeys hnone]
  · rw [exportMode_eq_error he, hkeys hnone]
  · have hkeys : g.exportKeys = ["default"] ↔ g.entryOwn = [] ∧ g.entryStars = ["default"] := by
      rw [exportKeys_eq, List.append_eq_singleton_iff]
      exact or_iff_left fun h => hsome h.2
    have hnonempty : g.exportKeys ≠ [] := by
      rw [exportKeys_eq]
      exact fun h => hsome (List.append_eq_nil_iff.mp h).2
    rw [exportMode_auto, Except.ok.injEq, ← hkeys]
    by_cases hkey : g.exportKeys = ["default"]
    · -- the names are those that are passed on then, and no default is among them
      rw [ExportMode.ofNames_eq_default.mpr hkey, eq_comm, ExportMode.ofNames_eq_default]
      refine ⟨fun hnames => absurd ?_ hdefault, fun hall => absurd hkey hall.2.2⟩
      have hown := (hkeys.mp hkey).1
      rw [hpassed, hown, List.nil_append] at hnames
      exact hnames ▸ List.mem_singleton_self "default"
    · rw [ExportMode.ofNames_eq_named.mpr ⟨hnonempty, hkey⟩, eq_comm, ExportMode.ofNames_eq_named]
      tauto
  · rw [exportMode_eq_error he, exportKeys_eq]

theorem exists_marked {α : Type} {start : Graph} {f : Graph → α} {v : α}
    (hfetch : (fetchGraph grammar p id).toOption = some start)
    (hrun : ((bind.run start).toOption.bind fun l => (mark.run l.2).toOption.map fun m => f m.2) = some v) :
    ∃ g, Marked grammar p id g ∧ f g = v := by
  obtain ⟨⟨stats, linked⟩, hbind, hrun⟩ := Option.bind_eq_some_iff.mp hrun
  obtain ⟨⟨passes, marked⟩, hmark, hvalue⟩ := Option.map_eq_some_iff.mp hrun
  exact ⟨marked, ⟨start, linked, marked, stats, passes, ok_of_toOption hfetch, ok_of_toOption hbind,
    ok_of_toOption hmark, .inl rfl⟩, hvalue⟩

end

theorem export_mode_agrees_call : ∃ g,
    Marked callGrammar ((call " ").pipeline.withStorage {} (call " ").packages) "a" g ∧ g.entryStars = [] ∧
    g.exportMode .auto = .ok .default ∧ ∀ e, g.exportMode .none = .error e →
      e = .exportModeMismatch "none" ["default"] := by
  obtain ⟨g, hg, hvalue⟩ := exists_marked (f := fun g => (g.entryStars, g.exportNames entry))
    (v := ([], ["default"])) fetch_spacedCall (by cbv)
  obtain ⟨hstars, hnames⟩ := Prod.mk.inj hvalue
  obtain ⟨hauto, hrejected⟩ := (export_mode_agrees hg).2.2.1 hstars
  rw [hnames] at hauto hrejected
  exact ⟨g, hg, hstars, hauto, hrejected .none⟩

end Graph

def relayText : String := "export * from './b';"

def relayGrammar : Grammar := fun text =>
  if text == relayText then
    some (.of text (.mk { kind := "program", start := 0, stop := 20 } [
      .mk { kind := "export_statement", start := 0, stop := 20 } [
        .mk { kind := "*", start := 7, stop := 8, named := false } [],
        .mk { kind := "string", start := 14, stop := 19, field := "source" } [
          .mk { kind := "string_fragment", start := 15, stop := 18 } []]]]))
  else some (.of text (.mk { kind := "program", start := 0, stop := 0 } []))

/-- The entry has this text, and what it leads to has none. -/
def relay : Pipeline where
  loaders := [fun id => .ok (some { code := if id == "a" then relayText else "" })]
  resolvers := [fun importee _ => .ok (some (.module importee))]
  transforms := []

def relayGraph : Graph := .ofModules [
  ({ id := "a", code := relayText.toList, firstCode := relayText, maps := []
     draft := {
      source := relayText
      cells := Cell.settled 0 relayText.toList
      anchors := [18, 15, 19, 14, 20, 0, 20, 0] }
     statements := [{ kind := .reexport, start := 0, stop := 20, next := 20, nodeStart := 0 }]
     scopes := {}, imports := [], exports := [], reexports := [], starSources := ["./b"], sources := ["./b"]
     bindings := [] }, [("./b", .inside 1)]),
  ({ id := "./b", code := [], firstCode := "", maps := []
     draft := { source := "", cells := [], anchors := [0, 0] }
     statements := [], scopes := {}, imports := [], exports := [], reexports := [], starSources := [], sources := []
     bindings := [] }, [])] []

theorem fetch_relay : (fetchGraph relayGrammar relay "a").toOption = some relayGraph := by decide +kernel

namespace Graph

/-- An entry that passes on the exports of a module without any exports nothing. The mode of its exports is not chosen
all the same, and whoever asks for no exports is refused and given the source. -/
theorem export_mode_of_star_source : ∃ g, Marked relayGrammar relay "a" g ∧ g.exportNames entry = [] ∧
    g.exportMode .auto = .ok .named ∧ g.exportMode .none = .error (.exportModeMismatch "none" ["./b"]) := by
  obtain ⟨g, hg, hvalue⟩ := exists_marked (f := fun g => (g.exportNames entry, g.exportKeys))
    (v := ([], ["./b"])) fetch_relay (by cbv)
  obtain ⟨hnames, hkeys⟩ := Prod.mk.inj hvalue
  refine ⟨g, hg, hnames, ?_, ?_⟩
  · rw [exportMode_auto, hkeys]
    rfl
  · rw [exportMode, hkeys]
    rfl

end Graph

end Treeshake
