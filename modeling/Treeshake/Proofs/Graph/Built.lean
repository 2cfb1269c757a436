import Treeshake.Graph.Names
import Treeshake.Proofs.Graph.Changes
import Treeshake.Proofs.Graph.Mark
/-!
Graphs whose declarations have been given names. Main statement: names change nothing but names.
-/
set_option autoImplicit false

namespace Treeshake

def Declaration.nameless (d : Declaration) : Declaration := { d with name := "" }

namespace Graph

variable {g h k : Graph}

structure Renamed (g h : Graph) : Prop where
  later : Later g h
  sound : g.Sound → h.Sound
  modules : h.modules = g.modules
  declarations : h.declarations.map (·.nameless) = g.declarations.map (·.nameless)

theorem Renamed.refl (g : Graph) : Renamed g g := ⟨.refl g, id, rfl, rfl⟩

theorem Renamed.trans (h₁ : Renamed g h) (h₂ : Renamed h k) : Renamed g k where
  later := h₁.later.trans h₂.later
  sound hg := h₂.sound (h₁.sound hg)
  modules := h₂.modules.trans h₁.modules
  declarations := h₂.declarations.trans h₁.declarations

theorem Renamed.declaration (hr : Renamed g h) {id : Nat} {e : Declaration}
    (he : h.declarations[id]? = some e) : ∃ d, g.declarations[id]? = some d ∧ d.nameless = e.nameless := by
  have heq := congrArg (·[id]?) hr.declarations
  simp only [List.getElem?_map, he, Option.map_some] at heq
  exact Option.map_eq_some_iff.mp heq.symm

theorem Renamed.declaration_later (hr : Renamed g h) {id : Nat} {d : Declaration}
    (hd : g.declarations[id]? = some d) : ∃ e, h.declarations[id]? = some e ∧ e.nameless = d.nameless := by
  have heq := congrArg (·[id]?) hr.declarations
  simp only [List.getElem?_map, hd, Option.map_some] at heq
  exact Option.map_eq_some_iff.mp heq

theorem Renamed.any {f : Declaration → Bool} (hr : Renamed g h) (hf : ∀ d : Declaration, f d.nameless = f d)
    (id : Nat) : (h.declarations[id]?).any f = (g.declarations[id]?).any f := by
  have heq := congrArg (fun l => (l[id]?).any f) hr.declarations
  simpa [Option.any_map, Function.comp_def, hf] using heq

theorem Renamed.isUsed (hr : Renamed g h) (id : Nat) : h.isUsed id = g.isUsed id :=
  hr.any (f := (·.used)) (fun _ => rfl) id

theorem Renamed.isInternal (hr : Renamed g h) (id : Nat) : h.isInternal id = g.isInternal id :=
  hr.any (fun _ => rfl) id

theorem Renamed.statement? (hr : Renamed g h) (r : StatementRef) : h.statement? r = g.statement? r := by
  rw [Graph.statement?, hr.modules, Graph.statement?]

theorem Renamed.isIncluded (hr : Renamed g h) (r : StatementRef) : h.isIncluded r = g.isIncluded r := by
  rw [Graph.isIncluded, hr.statement?, Graph.isIncluded]

theorem renamed_modifyDeclaration (id : Nat) (name : String) :
    Renamed g (g.modifyDeclaration id fun d => { d with name }) := by
  have hsame : ∀ d : Declaration, ({ d with name } : Declaration).nameless = d.nameless := fun _ => rfl
  exact ⟨later_modifyDeclaration fun _ _ => ⟨rfl, rfl⟩,
    (sound_modifyDeclaration · fun _ _ => ⟨rfl, rfl⟩), rfl, map_modify_of_eq hsame g.declarations id⟩

theorem renamed_modifyExternal (external : Nat) (name : String) :
    Renamed g (g.modifyExternal external fun e => { e with name }) := by
  have hsame : ∀ e : External, ({ e with name } : External).declarations = e.declarations := fun _ => rfl
  have hexports : ∀ e : External, e.exportsNames = true → ({ e with name } : External).exportsNames = true :=
    fun _ he => he
  refine ⟨later_modifyExternal hsame hexports, fun hg => ?_, rfl, rfl⟩
  refine hg.congr rfl (fun _ => rfl) (fun _ => rfl) fun e key => ?_
  rw [externalId?_modify]
  split
  · rfl
  · rfl

theorem renamed_nameExternal (n : Naming) (external : Nat) :
    Renamed n.graph (n.nameExternal external).graph := by
  rw [Naming.nameExternal]
  split
  · exact .refl n.graph
  · exact renamed_modifyExternal external _

theorem renamed_nameDeclaration (n : Naming) (id : Nat) :
    Renamed n.graph (n.nameDeclaration id).graph := by
  rw [Naming.nameDeclaration]
  split
  · exact .refl n.graph
  · exact renamed_modifyDeclaration id _

theorem renamed_foldl {α : Type} {f : Naming → α → Naming}
    (hf : ∀ n a, Renamed n.graph (f n a).graph) (l : List α) (n : Naming) :
    Renamed n.graph (l.foldl f n).graph := by
  induction l generalizing n with
  | nil => exact .refl n.graph
  | cons a l ih => exact (hf n a).trans (ih (f n a))

theorem renamed_nameModule (n : Naming) (module : Nat) : Renamed n.graph (n.nameModule module).graph := by
  rw [Naming.nameModule]
  split
  · exact .refl n.graph
  · exact renamed_foldl renamed_nameDeclaration _ n

theorem renamed_deconflict (g : Graph) (order : List Nat) : Renamed g (g.deconflict order).1 := by
  rw [deconflict]
  dsimp only
  refine Renamed.trans ?_ (renamed_foldl renamed_nameDeclaration _ _)
  refine Renamed.trans ?_ (renamed_foldl renamed_nameModule order _)
  exact renamed_foldl renamed_nameExternal _ { graph := g, taken := g.globals.map fun name => (name, 1) }

/-- A graph of modules that is linked and marked, and whose declarations have their names. -/
def Built (modules : List (Module × Table Target)) (externals : List External) (k : Graph) : Prop :=
  ∃ stats g passes h order, bind.run (ofModules modules externals) = .ok (stats, g) ∧
    mark.run g = .ok (passes, h) ∧ k = (h.deconflict order).1

section
variable {modules : List (Module × Table Target)} {externals : List External} (hf : Fetched modules externals)
  (hg : Built modules externals g)
include hf hg

theorem Built.relinked : Relinked (ofModules modules externals) g := by
  obtain ⟨stats, l, passes, h, order, hbind, hmark, rfl⟩ := hg
  have hw := wired_bind (ranged_starred hf) (wired_starred hf) hbind
  have hgrown : Grown l h :=
    Scans.grown (ranged_starred hf) hw (.refl l) (mark_settles (ranged_starred hf) hw hmark).1
  rw [Relinked, (renamed_deconflict h order).modules]
  exact Relinked.trans (Changes.relinked (takes_bind stats l hbind)) hgrown.relinked

theorem Built.fits : Fits (starred modules externals).routes externals.length g := by
  obtain ⟨stats, l, passes, h, order, hbind, hmark, rfl⟩ := hg
  have hw := wired_bind (ranged_starred hf) (wired_starred hf) hbind
  have hgrown : Grown l h :=
    Scans.grown (ranged_starred hf) hw (.refl l) (mark_settles (ranged_starred hf) hw hmark).1
  have hfits := hgrown.fits hw.fits
  have hr := renamed_deconflict h order
  exact ⟨hr.later.routes.trans hfits.routes, hr.later.externals.trans hfits.externals, hr.sound hfits.sound⟩

theorem Built.routes : g.routes = (starred modules externals).routes := (hg.fits hf).routes

theorem Built.stars {i : Nat} {m : LinkedModule} (hm : g.modules[i]? = some m) :
    m.stars = m.starSources.filterMap m.targets.get? := by
  have hroutes := congrArg (·[i]?) (hg.routes hf)
  simp only [getElem?_routes, hm, Option.map_some] at hroutes
  obtain ⟨m', hm', hsame⟩ := Option.map_eq_some_iff.mp hroutes.symm
  obtain ⟨e, l, -, hl, rfl, -, -, -⟩ := module_starred hf hm'
  obtain ⟨m'', hm'', hlm⟩ := forall₂_getElem? (hg.relinked hf) hl
  obtain rfl := Option.some.inj (hm.symm.trans hm'')
  have hsources : m.unlinked.starSources = l.unlinked.starSources := by rw [hlm.same]
  have htargets : m.unlinked.targets = l.unlinked.targets := by rw [hlm.same]
  have hstars : m.stars = l.bindStars.stars := (congrArg Routes.stars hsame).symm
  change m.starSources = l.starSources at hsources
  change m.targets = l.targets at htargets
  rw [hstars, hsources, htargets]
  rfl

end

end Graph

end Treeshake
