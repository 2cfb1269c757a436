import Treeshake.Proofs.Bundle.Origins
import Treeshake.Proofs.Fetch.Proper
import Treeshake.Proofs.Graph.Accepted
/-!
Which modules of a bundle can be rendered. Main statement: all of them can, but those where an edit holds on to a
comment that names a source map, which went when the module was read.
-/
set_option autoImplicit false

namespace Treeshake

open Treeshake.Graph in
theorem Bundle.built_build {grammar : Grammar} {s : Storage} {o : BuildOptions} {b : Bundle} {P : Module → Prop}
    (hP : ∀ id source m, (o.pipeline.withStorage s o.packages).fetch id = .ok source →
      Module.parse grammar id source = .ok m → P m) (hb : build grammar s o = .ok b) :
    ∃ modules externals, Fetched modules externals ∧ (∀ e ∈ modules, P e.1) ∧ Built modules externals b.graph := by
  obtain ⟨g, hg, hb⟩ := bind_eq_ok.mp hb
  obtain ⟨modules, externals, hfetched, hmodules, rfl⟩ := fetched_fetchGraph hP hg
  obtain ⟨⟨link, g₁⟩, hbind, hb⟩ := bind_eq_ok.mp hb
  obtain ⟨⟨passes, g₂⟩, hmark, hb⟩ := bind_eq_ok.mp hb
  have hgraph : b.graph = (g₂.deconflict g₂.order).1 := (congrArg Bundle.graph (Except.ok.inj hb)).symm
  exact ⟨modules, externals, hfetched, hmodules, link, g₁, passes, g₂, g₂.order, hbind, hmark, hgraph⟩

/-- In a bundle of texts with proper trees, a module can be rendered if and only if none of the edits of its statements
holds on to a byte of a comment that names a source map: nothing else that is removed or replaced, at any time, is in
the way of an edit. -/
theorem renders_off_map_comments {grammar : Grammar} {s : Storage} {o : BuildOptions} {b : Bundle}
    (hb : Bundle.build grammar s o = .ok b)
    (htrees : ∀ id source tree, (o.pipeline.withStorage s o.packages).fetch id = .ok source →
      Module.treeOf grammar id source = .ok tree → tree.Proper source.code.toList ∧ tree.Lexed source.code.toList)
    {i : Nat} {m : LinkedModule} (hm : b.graph.modules[i]? = some m) (es6 : Bool) :
    (∃ d, b.graph.renderModule i es6 = .ok d) ↔ ∀ t ∈ m.statements, ∀ e ∈ b.graph.statementEdits m es6 t,
      ∀ k ∈ e.holds, ¬Module.InMapComment m.code k := by
  have hparsed : ∀ id source m, (o.pipeline.withStorage s o.packages).fetch id = .ok source →
      Module.parse grammar id source = .ok m → m.LaidOut ∧ m.Sited := fun id source m hsource hm =>
    ⟨Module.laidOut_parse (fun tree htree => (htrees id source tree hsource htree).1) hm,
      Module.sited_parse (fun tree => htrees id source tree hsource) hm⟩
  obtain ⟨modules, externals, hfetched, hmodules, hbuilt⟩ := Bundle.built_build hparsed hb
  exact Graph.exists_renderModule_iff hm (hbuilt.laidOut hfetched (fun e he => (hmodules e he).1) hm)
    (hbuilt.sited hfetched (fun e he => (hmodules e he).2) hm) es6

def callText (gap : String) : String := "export default" ++ gap ++ "f()"

def callGrammar : Grammar := fun text =>
  let stop := Text.size text.toList
  some (.of text (.mk { kind := "program", start := 0, stop } [
    .mk { kind := "export_statement", start := 0, stop } [
      .mk { kind := "default", start := 7, stop := 14, named := false } [],
      .mk { kind := "call_expression", start := stop - 3, stop, field := "value" } [
        .mk { kind := "identifier", start := stop - 3, stop := stop - 2, field := "function" } [],
        .mk { kind := "arguments", start := stop - 2, stop } []]]]))

def call (gap : String) : BuildOptions where
  entry := "a"
  packages := { cwd := "/" }
  pipeline := {
    loaders := [fun _ => .ok (some { code := callText gap })]
    resolvers := [fun importee _ => .ok (some (.module importee))]
    transforms := [] }

def namedMap : String := "//# sourceMappingURL=x\n"

theorem proper_call {gap : String} (hgap : gap = " " ∨ gap = namedMap) : ∀ id source tree,
    ((call gap).pipeline.withStorage {} (call gap).packages).fetch id = .ok source →
      Module.treeOf callGrammar id source = .ok tree →
        tree.Proper source.code.toList ∧ tree.Lexed source.code.toList := by
  intro id source tree hsource htree
  obtain rfl := Except.ok.inj hsource
  rcases hgap with rfl | rfl
  · obtain rfl := Except.ok.inj htree
    decide +kernel
  · obtain rfl := Except.ok.inj htree
    decide +kernel

def callModule (gap : String) (cells : List Cell) (stop : Nat) : Module where
  id := "a"
  code := (callText gap).toList
  firstCode := callText gap
  maps := []
  draft := {
    source := callText gap
    cells
    anchors := [stop, stop - 2, stop - 2, stop - 3, stop, stop - 3, stop, 0, stop, 0] }
  statements := [
    { kind := .exportDefault (stop - 3) .expression, start := 0, stop := stop, next := stop, nodeStart := 0
      scope := some 0
      references := [{ name := "f", start := stop - 3, stop := stop - 2, scope := 0 }]
      effects := { calls := true } }]
  scopes := { scopes := [{ parent := none, kind := .statement, names := [] }] }
  imports := []
  exports := [("default", ⟨"default", none, 0⟩)]
  reexports := []
  starSources := []
  sources := []
  bindings := [⟨"default", "a", some 0⟩]

def spacedCall : Graph := .ofModules [(callModule " " (Cell.settled 0 "export default f()".toList) 18, [])] []

def namedCall : Graph :=
  .ofModules [(callModule namedMap (Cell.settled 0 "export default".toList ++ Cell.settled 37 "f()".toList) 40, [])] []

theorem fetch_spacedCall :
    (fetchGraph callGrammar ((call " ").pipeline.withStorage {} (call " ").packages) "a").toOption =
      some spacedCall := by
  decide +kernel

theorem fetch_namedCall :
    (fetchGraph callGrammar ((call namedMap).pipeline.withStorage {} (call namedMap).packages) "a").toOption =
      some namedCall := by
  decide +kernel

theorem renders_off_map_comments_call : ∃ b m d, Bundle.build callGrammar {} (call " ") = .ok b ∧
    b.graph.modules[0]? = some m ∧
    m.statements.map (b.graph.statementEdits m true) = [[.overwrite 0 15 "var a = " false]] ∧
    b.graph.renderModule 0 true = .ok d := by
  have hrun : (Bundle.ofGraph spacedCall).toOption.bind (fun b => b.graph.modules[0]?.map fun m =>
      (m.code, m.statements.map (b.graph.statementEdits m true))) =
      some ("export default f()".toList, [[.overwrite 0 15 "var a = " false]]) := by
    cbv
  obtain ⟨b, hb, hrun⟩ := Option.bind_eq_some_iff.mp hrun
  obtain ⟨m, hm, hvalue⟩ := Option.map_eq_some_iff.mp hrun
  obtain ⟨hcode, hedits⟩ := Prod.mk.inj hvalue
  have hbuild : Bundle.build callGrammar {} (call " ") = .ok b := by
    rw [Bundle.build]
    exact bind_eq_ok.mpr ⟨_, ok_of_toOption fetch_spacedCall, ok_of_toOption hb⟩
  obtain ⟨d, hd⟩ := (renders_off_map_comments hbuild (proper_call (.inl rfl)) hm true).mpr fun t ht e he k _ => by
    rw [hcode]
    have hnone : Module.mapComments 0 0 "export default f()".toList = [] := by decide
    rw [Module.InMapComment, hnone]
    rintro ⟨c, hc, -⟩
    cases hc
  exact ⟨b, m, d, hbuild, hm, hedits, hd⟩

/-- With a comment that names a source map in front of the call, the bundle is built and cannot be rendered, though
the tree of its text is proper. -/
theorem comment_before_value_rejected : ∃ b e, Bundle.build callGrammar {} (call namedMap) = .ok b ∧
    (∀ id source tree, ((call namedMap).pipeline.withStorage {} (call namedMap).packages).fetch id = .ok source →
      Module.treeOf callGrammar id source = .ok tree →
        tree.Proper source.code.toList ∧ tree.Lexed source.code.toList) ∧
    b.order = [0] ∧ b.graph.renderModule 0 true = .error e := by
  have hrun : (Bundle.ofGraph namedCall).toOption.map (fun b => (b.order, (b.graph.renderModule 0 true).toOption)) =
      some ([0], none) := by
    cbv
  obtain ⟨b, hb, hvalue⟩ := Option.map_eq_some_iff.mp hrun
  obtain ⟨horder, hnone⟩ := Prod.mk.inj hvalue
  have hbuild : Bundle.build callGrammar {} (call namedMap) = .ok b := by
    rw [Bundle.build]
    exact bind_eq_ok.mpr ⟨_, ok_of_toOption fetch_namedCall, ok_of_toOption hb⟩
  cases hrendered : b.graph.renderModule 0 true with
  | ok d =>
    rw [hrendered] at hnone
    cases hnone
  | error e => exact ⟨b, e, hbuild, proper_call (.inr rfl), horder, hrendered⟩

end Treeshake
