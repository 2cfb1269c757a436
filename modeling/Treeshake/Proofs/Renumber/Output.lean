import Treeshake.Bundle
import Treeshake.Proofs.Renumber.Names
/-!
Outputs do not depend on the numbers of declarations. Main statement: graphs that differ in numbers only
fail for the same reason, or depend on the same external modules, export the same names, and show the same
modules in the same code.
-/
set_option autoImplicit false

namespace Treeshake.Graph

variable {π : Equiv.Perm Nat} {g h : Graph}

section Modules

variable (R : Renumbers π g h) (m : LinkedModule) (es6 : Bool)
include R

theorem Renumbers.own? (name : Option String) :
    (name.bind (m.renumber π).declarations.get?).bind h.declaration? =
      ((name.bind m.declarations.get?).bind g.declaration?).map (·.renumber π) := by
  cases name with
  | none => rfl
  | some name =>
    change ((Table.renumber π m.declarations).get? name).bind h.declaration? = _
    rw [Table.get?_renumber]
    simp only [Option.bind_some]
    cases m.declarations.get? name with
    | none => rfl
    | some id => exact R.declaration? id

theorem Renumbers.exportsBinding (name : Option String) :
    h.exportsBinding (m.renumber π) name es6 = g.exportsBinding m name es6 := by
  rw [Graph.exportsBinding, Graph.exportsBinding, R.own?, Option.any_map]
  rfl

theorem Renumbers.isRedundant (s : Statement) :
    h.isRedundant (m.renumber π) (s.renumber π) = g.isRedundant m s := by
  have hdefault := R.own? m (some "default")
  simp only [Option.bind_some] at hdefault
  unfold Graph.isRedundant
  rw [show (s.renumber π).kind = s.kind from rfl]
  cases s.kind with
  | exportDefault declarationStart form =>
    dsimp only
    rw [hdefault, Option.any_map]
    exact congrArg (fun p => form != .declaration && Option.any p _) (funext R.isReplaced)
  | _ => rfl

omit m in
theorem Renumbers.newName? (r : Reference) : h.newName? es6 (r.renumber π) = g.newName? es6 r := by
  unfold Graph.newName?
  rw [Reference.declaration?_renumber, Option.bind_map]
  exact congrArg _ (funext fun id => by rw [Function.comp_apply, R.renderName]; rfl)

theorem Renumbers.captured (references : List Reference) :
    h.captured (m.renumber π) es6 (references.map (·.renumber π)) = g.captured m es6 references := by
  unfold Graph.captured
  rw [List.filterMap_map]
  exact congrArg (List.filterMap · _) (funext fun r => by rw [Function.comp_apply, R.newName?]; rfl)

theorem Renumbers.replaceReferences (s : Statement) (d : Draft) :
    h.replaceReferences (m.renumber π) es6 (s.renumber π) d = g.replaceReferences m es6 s d := by
  have hname : ∀ r : Reference, (r.renumber π).name = r.name := fun _ => rfl
  have hsubstitute : ∀ (d : Draft) (r : Reference) (name : String),
      substitute d (r.renumber π) name = substitute d r name := fun _ _ _ => rfl
  have hreferences : (s.renumber π).references = s.references.map (·.renumber π) := rfl
  simp only [Graph.replaceReferences, hreferences, List.foldlM_map, R.newName?, R.captured, hname,
    hsubstitute]

theorem Renumbers.renderDefault (s : Statement) (declarationStart : Nat) (form : DefaultForm) (d : Draft) :
    h.renderDefault (m.renumber π) es6 (s.renumber π) declarationStart form d =
      g.renderDefault m es6 s declarationStart form d := by
  have hget : (m.renumber π).declarations.get? "default" = (m.declarations.get? "default").map π :=
    Table.get?_renumber "default" m.declarations
  unfold Graph.renderDefault
  rw [hget]
  cases m.declarations.get? "default" with
  | none => rfl
  | some id =>
    have hlive : ((h.declaration? (π id)).any fun x => x.exported || x.used) =
        (g.declaration? id).any fun x => x.exported || x.used := by
      rw [R.declaration?, Option.any_map]
      rfl
    simp only [Option.map_some, hlive, R.renderName]
    rfl

theorem Renumbers.renderStatement (d : Draft) (s : Statement) :
    h.renderStatement (m.renumber π) es6 d (s.renumber π) = g.renderStatement m es6 d s := by
  have hkind : (s.renumber π).kind = s.kind := rfl
  have hliterals : (s.renumber π).literals = s.literals := rfl
  have hdeclarator : ∀ d keyword separatorEnd last,
      renderDeclarator d (s.renumber π) keyword separatorEnd last =
        renderDeclarator d s keyword separatorEnd last := fun _ _ _ _ => rfl
  simp only [Graph.renderStatement, hkind, hliterals, hdeclarator, R.exportsBinding, R.replaceReferences,
    R.renderDefault]
  rfl

omit m in
theorem Renumbers.renderMember (indent : String) (e : String × Nat) :
    h.renderMember es6 indent (e.1, π e.2) = g.renderMember es6 indent e := by
  rw [Graph.renderMember, Graph.renderMember, R.renderName, R.isReassigned]

theorem Renumbers.renderObject? : h.renderObject? (m.renumber π) es6 = g.renderObject? m es6 := by
  have hobject : (m.renumber π).object.bind h.declaration? =
      (m.object.bind g.declaration?).map (·.renumber π) := by
    change (m.object.map π).bind _ = _
    cases m.object with
    | none => rfl
    | some id => exact R.declaration? id
  unfold Graph.renderObject?
  rw [hobject]
  cases m.object.bind g.declaration? with
  | none => rfl
  | some d =>
    obtain ⟨name, kind, statement, reassigned, exported, used, aliases⟩ := d
    cases kind with
    | object module members asValue =>
      cases asValue <;> cases used <;> try rfl
      simp only [Option.map_some, Declaration.renumber, DeclarationKind.renumber, Table.renumber,
        List.map_map, Function.comp_def, R.renderMember]
      rfl
    | _ => rfl

end Modules

theorem Renumbers.renderModule (R : Renumbers π g h) (module : Nat) (es6 : Bool) :
    h.renderModule module es6 = g.renderModule module es6 := by
  unfold Graph.renderModule
  rw [R.module?]
  cases g.modules[module]? with
  | none => rfl
  | some m =>
    have hstatements : (m.renumber π).statements = m.statements.map (·.renumber π) := rfl
    have hincluded : ∀ s : Statement, (s.renumber π).included = s.included := fun _ => rfl
    simp only [Option.map_some, hstatements, List.foldlM_map, hincluded, R.isRedundant, R.renderStatement,
      R.renderObject?]
    rfl

section Exports

variable (R : Renumbers π g h)
include R

theorem Renumbers.exportKeys : h.exportKeys = g.exportKeys := by
  rw [Graph.exportKeys, Graph.exportKeys, R.module?]
  cases g.modules[entry]? <;> rfl

theorem Renumbers.checkOptions (o : OutputOptions) : h.checkOptions o = g.checkOptions o := by
  simp only [Graph.checkOptions, Graph.exportMode, R.exportKeys]

theorem Renumbers.exportBlock (mode : ExportMode) (mechanism : String) :
    h.exportBlock mode mechanism = g.exportBlock mode mechanism := by
  cases mode with
  | none => rfl
  | default =>
    simp only [Graph.exportBlock, R.entryExports, Table.get?_renumber]
    cases g.entryExports.get? "default" with
    | none => rfl
    | some id => simp only [Option.map_some, R.renderName]
  | named =>
    simp only [Graph.exportBlock, R.entryExports, Table.renumber, List.filterMap_map, Function.comp_def,
      R.renderName]

omit R in
theorem interop?_renumber (e : External) : (e.renumber π).interop? = e.interop? := by
  have hhas : (e.renumber π).declarations.has "default" = e.declarations.has "default" :=
    Table.has_renumber "default" e.declarations
  rw [External.interop?, External.interop?, hhas]
  rfl

theorem Renumbers.interopBlock : h.interopBlock = g.interopBlock := by
  rw [Graph.interopBlock, Graph.interopBlock, R.externals, List.filterMap_map]
  exact congrArg (fun f => "\n".intercalate (List.filterMap f _)) (funext interop?_renumber)

theorem Renumbers.exportStatements : Wrapper.exportStatements h = Wrapper.exportStatements g := by
  have hdefault : (((g.entryExports.renumber π).get? "default").map fun id =>
        "export default " ++ h.renderName id true ++ ";") =
      (g.entryExports.get? "default").map fun id => "export default " ++ g.renderName id true ++ ";" := by
    rw [Table.get?_renumber, Option.map_map]
    exact congrArg (Option.map · _) (funext fun id => by rw [Function.comp_apply, R.renderName])
  simp only [Wrapper.exportStatements, R.entryExports, hdefault]
  simp only [Table.renumber, List.filter_map, List.map_map, Function.comp_def, R.renderName]

theorem Renumbers.importStatement (e : External) :
    Wrapper.importStatement h (e.renumber π) = Wrapper.importStatement g e := by
  have hhas : ∀ key, (Table.renumber π e.declarations).has key = e.declarations.has key := fun key =>
    Table.has_renumber key e.declarations
  have hname : ∀ id, (h.declaration? (π id)).map (·.name) = (g.declaration? id).map (·.name) := fun id => by
    rw [R.declaration?, Option.map_map]
    rfl
  simp only [Wrapper.importStatement, External.renumber, hhas]
  simp only [Table.renumber, List.filter_map, List.map_map, Function.comp_def, hname]

end Exports

end Treeshake.Graph

namespace Treeshake.Wrapper

open Treeshake.Graph

variable {π : Equiv.Perm Nat} {g h : Graph}

section

variable (R : Renumbers π g h) (mode : ExportMode) (indent guessed : String) (o : OutputOptions)
include R

theorem map_externals {α : Type} {f f' : External → α} (hf : ∀ e : External, f' (e.renumber π) = f e) :
    h.externals.map f' = g.externals.map f := by
  rw [R.externals, List.map_map]
  exact congrArg (List.map · _) (funext hf)

theorem body_renumbers (mechanism : String) (a : Assembly) :
    (⟨h, mode, indent, guessed, o⟩ : Wrapper).body mechanism a =
      (⟨g, mode, indent, guessed, o⟩ : Wrapper).body mechanism a := by
  rw [Wrapper.body, Wrapper.body, R.exportBlock, R.interopBlock]

theorem factory_renumbers : (⟨h, mode, indent, guessed, o⟩ : Wrapper).factory =
    (⟨g, mode, indent, guessed, o⟩ : Wrapper).factory := by
  have hnames : (⟨h, mode, indent, guessed, o⟩ : Wrapper).externalNames =
      (⟨g, mode, indent, guessed, o⟩ : Wrapper).externalNames := map_externals R fun _ => rfl
  rw [Wrapper.factory, hnames]
  rfl

theorem wrap_renumbers (a : Assembly) :
    (⟨h, mode, indent, guessed, o⟩ : Wrapper).wrap a = (⟨g, mode, indent, guessed, o⟩ : Wrapper).wrap a := by
  have hquoted : (⟨h, mode, indent, guessed, o⟩ : Wrapper).quotedIds =
      (⟨g, mode, indent, guessed, o⟩ : Wrapper).quotedIds := map_externals R fun _ => rfl
  have hrequires : (⟨h, mode, indent, guessed, o⟩ : Wrapper).requires =
      (⟨g, mode, indent, guessed, o⟩ : Wrapper).requires := map_externals R fun _ => rfl
  have hglobals : (⟨h, mode, indent, guessed, o⟩ : Wrapper).globalNames =
      (⟨g, mode, indent, guessed, o⟩ : Wrapper).globalNames := map_externals R fun _ => rfl
  unfold Wrapper.wrap
  cases o.format with
  | es6 =>
    have himports := map_externals R R.importStatement
    simp only [Wrapper.es6, Wrapper.externals, himports, R.exportStatements]
  | cjs =>
    simp only [Wrapper.cjs, Wrapper.externals, R.exportBlock, R.externals, List.map_map, Function.comp_def,
      interop?_renumber]
    rfl
  | amd => simp only [Wrapper.amd, hquoted, body_renumbers R, factory_renumbers R]; rfl
  | iife => simp only [Wrapper.iife, hglobals, body_renumbers R, factory_renumbers R]; rfl
  | umd => simp only [Wrapper.umd, hquoted, hrequires, hglobals, body_renumbers R, factory_renumbers R]; rfl

end

end Treeshake.Wrapper

namespace Treeshake.Bundle

open Treeshake.Graph

variable {π : Equiv.Perm Nat} {b c : Bundle}

structure Renumbers (π : Equiv.Perm Nat) (b c : Bundle) : Prop where
  graph : Graph.Renumbers π b.graph c.graph
  order : c.order = b.order
  stats : c.stats = b.stats

theorem stats_renumbers {g h : Graph} (R : Graph.Renumbers π g h) : h.stats = g.stats := by
  have hstatements : h.modules.flatMap (·.statements) =
      (g.modules.flatMap (·.statements)).map (·.renumber π) := by
    rw [R.modules, List.flatMap_map, List.map_flatMap]
    rfl
  have hmodules : h.modules.length = g.modules.length := by rw [R.modules, List.length_map]
  have hexternals : h.externals.length = g.externals.length := by rw [R.externals, List.length_map]
  rw [Graph.stats, Graph.stats, hstatements, hmodules, hexternals, R.length, R.globals, List.length_map,
    List.countP_map]
  rfl

theorem ofGraph_renumbers {g h : Graph} (R : Graph.Renumbers π g h) :
    (∃ e, ofGraph g = .error e ∧ ofGraph h = .error e) ∨
      ∃ b c, ofGraph g = .ok b ∧ ofGraph h = .ok c ∧ Renumbers π b c := by
  unfold ofGraph
  obtain ⟨e, hg, hh⟩ | ⟨link, g₁, h₁, hg, hh, R⟩ := (respects_bind g h R).ok_or_error
  · exact .inl ⟨e, by rw [hg]; rfl, by rw [hh]; rfl⟩
  rw [hg, hh]
  obtain ⟨e, hg, hh⟩ | ⟨passes, g₂, h₂, hg, hh, R⟩ := (respects_mark g₁ h₁ R).ok_or_error
  · exact .inl ⟨e, by simp only [Bind.bind, Except.bind, hg], by simp only [Bind.bind, Except.bind, hh]⟩
  obtain ⟨R', hrenamed⟩ := R.deconflict g₂.order
  refine .inr ⟨_, _, by simp only [Bind.bind, Except.bind, hg]; rfl, by simp only [Bind.bind, Except.bind, hh]; rfl, ?_⟩
  rw [R.order]
  exact ⟨R', rfl, by rw [stats_renumbers R', hrenamed]⟩

section

variable (R : Renumbers π b c)
include R

theorem Renumbers.imports : c.imports = b.imports := by
  rw [Bundle.imports, Bundle.imports, R.graph.externals, List.map_map]
  rfl

theorem Renumbers.exports : c.exports = b.exports := R.graph.exportNames entry

theorem Renumbers.modules : c.modules = b.modules := by
  rw [Bundle.modules, Bundle.modules, R.order, funext R.graph.moduleId]

theorem Renumbers.rendered (es6 : Bool) : c.rendered es6 = b.rendered es6 := by
  simp only [Bundle.rendered, R.order, R.graph.renderModule]

theorem Renumbers.compose (o : OutputOptions) (mode : ExportMode) (parts : List (Nat × Draft)) :
    c.compose o mode parts = b.compose o mode parts := by
  simp only [Bundle.compose, Bundle.assemble, R.graph.moduleId, Wrapper.wrap_renumbers R.graph]

theorem Renumbers.mapOf (o : OutputOptions) (parts : List (Nat × Draft)) (a : Assembly) :
    c.mapOf o parts a = b.mapOf o parts a := by
  have hmodules : (parts.filterMap fun part => c.graph.modules[part.1]?) =
      (parts.filterMap fun part => b.graph.modules[part.1]?).map (·.renumber π) := by
    rw [List.map_filterMap]
    exact congrArg (List.filterMap · _) (funext fun part => R.graph.module? part.1)
  simp only [Bundle.mapOf, hmodules, List.any_map, List.map_map]
  rfl

theorem Renumbers.generate (o : OutputOptions) : c.generate o = b.generate o := by
  simp only [Bundle.generate, R.graph.checkOptions, R.rendered, R.compose, R.mapOf]

end

end Treeshake.Bundle
