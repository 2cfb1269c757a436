import Treeshake.Proofs.Assembly.Whole
import Treeshake.Proofs.Bundle.Accepted
import Treeshake.Proofs.Graph.Literals
/-!
Literals in outputs. Main statement: an output has the text of every literal in a statement that it has, with the marks
around it and byte for byte, but for the literals in front of what a statement exports, those that a comment that names
a source map overlaps, and strings with a carriage return and no line feed.
-/
set_option autoImplicit false

namespace Treeshake

/-- A module that is laid out, and whose statements leave out the literals of the tree of its text. -/
structure Module.Whole (grammar : Grammar) (p : Pipeline) (m : Module) : Prop where
  laidOut : m.LaidOut
  sited : m.Sited
  quotes : ∀ source tree, p.fetch m.id = .ok source → Module.treeOf grammar m.id source = .ok tree →
    m.Quotes source.code.toList tree

theorem Module.whole_parse {grammar : Grammar} {p : Pipeline} {id : String} {source : Source} {m : Module}
    (hsource : p.fetch id = .ok source)
    (htree : ∀ tree, treeOf grammar id source = .ok tree →
      tree.Proper source.code.toList ∧ tree.Lexed source.code.toList ∧ tree.Quoted source.code.toList)
    (hm : parse grammar id source = .ok m) : m.Whole grammar p := by
  have hsited := sited_parse (fun tree h => ⟨(htree tree h).1, (htree tree h).2.1⟩) hm
  refine ⟨laidOut_parse (fun tree h => (htree tree h).1) hm, hsited, fun source' tree hsource' htree' => ?_⟩
  obtain rfl : m.id = id := id_parse hm
  obtain rfl := Except.ok.inj (hsource.symm.trans hsource')
  obtain ⟨hproper, -, hquoted⟩ := htree tree htree'
  refine ⟨?_, quotes_parse htree' hproper hquoted hm⟩
  rw [← source_parse hm]
  exact hsited.source.symm

namespace Graph

variable {g : Graph} {grammar : Grammar} {p : Pipeline} {i : Nat} {m : LinkedModule}

theorem Built.whole {modules : List (Module × Table Target)} {externals : List External}
    (hf : Fetched modules externals) (hw : ∀ e ∈ modules, e.1.Whole grammar p) (hg : Built modules externals g)
    (hm : g.modules[i]? = some m) : m.toModule.Whole grammar p := by
  obtain ⟨l, hlm, e, he, hmodule⟩ := hg.fetched hf hm
  have hwhole : l.toModule.Whole grammar p := hmodule ▸ hw e he
  have hid : m.unlinked.id = l.unlinked.id := by rw [hlm.same]
  change m.id = l.id at hid
  refine ⟨hwhole.laidOut.relinked hlm, hwhole.sited.relinked hlm, fun source tree hsource htree => ?_⟩
  exact (hwhole.quotes source tree (hid ▸ hsource) (hid ▸ htree)).relinked hlm

end Graph

namespace Bundle

variable {b : Bundle} {o : OutputOptions} {mode : ExportMode} {parts : List (Nat × Draft)} {a : Assembly} {i : Nat}
  {d : Draft}

theorem holds_foldlM_add {id : Nat → String} {P : Draft → Prop} {a' : Assembly}
    (h : parts.foldlM (fun a (i, d) => Error.ofEdit (a.add d (some (id i)))) a = .ok a')
    (hpart : a.Holds (id i) P ∨ (i, d) ∈ parts ∧ P d) : a'.Holds (id i) P := by
  induction parts generalizing a with
  | nil =>
    obtain rfl := Except.ok.inj h
    exact hpart.resolve_right fun h => List.not_mem_nil h.1
  | cons part parts ih =>
    rw [List.foldlM_cons] at h
    obtain ⟨a₁, hadd, h⟩ := bind_eq_ok.mp h
    have hadd := mapError_eq_ok.mp hadd
    refine ih h ?_
    rcases hpart with hholds | ⟨hmem, hd⟩
    · exact .inl (Assembly.holds_add hholds hadd)
    · rcases List.mem_cons.mp hmem with rfl | hmem
      · exact .inl ⟨_, Assembly.parts_add hadd ▸ List.mem_append_right _ (List.mem_singleton_self _), rfl, hd⟩
      · exact .inr ⟨hmem, hd⟩

theorem holds_compose {P : String → Draft → Prop} (hP : ∀ unit, Draft.Lasting unit (P unit)) (hpart : (i, d) ∈ parts)
    (hd : ∀ guessed, P (o.unit guessed) d) (ha : b.compose o mode parts = .ok a) :
    ∃ guessed, a.Holds (b.graph.moduleId i) (P (o.unit guessed)) := by
  obtain ⟨a₁, ha₁, ha⟩ := bind_eq_ok.mp ha
  obtain ⟨a₀, ha₀, ha₁⟩ := bind_eq_ok.mp ha₁
  refine ⟨a₁.indentUnit, ?_⟩
  have hparts := holds_foldlM_add ha₀ (.inr ⟨hpart, hd a₁.indentUnit⟩)
  have hinner : a₁.Holds (b.graph.moduleId i) (P (o.unit a₁.indentUnit)) := by
    generalize o.unit a₁.indentUnit = unit at hparts
    obtain rfl := Except.ok.inj ha₁
    cases o.intro <;> cases o.outro
    · exact hparts
    · exact Assembly.holds_append hparts _
    · exact Assembly.holds_prepend hparts _
    · exact Assembly.holds_append (Assembly.holds_prepend hparts _) _
  have hwrapped := Wrapper.holds_wrap (w := ⟨b.graph, mode, o.indent.resolve a₁.indentUnit, a₁.indentUnit, o⟩) rfl
    (hP _) (Assembly.holds_trim (hP _) hinner)
  obtain rfl := Except.ok.inj ha
  cases o.banner <;> cases o.footer
  · exact hwrapped
  · exact Assembly.holds_append hwrapped _
  · exact Assembly.holds_prepend hwrapped _
  · exact Assembly.holds_append (Assembly.holds_prepend hwrapped _) _

theorem generate_eq_ok {output : Output} (h : b.generate o = .ok output) : ∃ mode parts a,
    b.rendered (o.format == .es6) = .ok parts ∧ b.compose o mode parts = .ok a ∧ b.assembled o = .ok a ∧
      output.code = a.text := by
  obtain ⟨mode, hmode, h⟩ := bind_eq_ok.mp h
  obtain ⟨parts, hparts, h⟩ := bind_eq_ok.mp h
  obtain ⟨a, ha, h⟩ := bind_eq_ok.mp h
  refine ⟨mode, parts, a, hparts, ha, bind_eq_ok.mpr ⟨mode, hmode, bind_eq_ok.mpr ⟨parts, hparts, ha⟩⟩, ?_⟩
  split at h
  · obtain ⟨map, -, h⟩ := bind_eq_ok.mp h
    obtain rfl := Except.ok.inj h
    rfl
  · obtain rfl := Except.ok.inj h
    rfl

theorem exists_rendered (horder : b.order.Perm (List.range b.graph.modules.length)) {es6 : Bool} {m : LinkedModule}
    (hm : b.graph.modules[i]? = some m) (h : b.rendered es6 = .ok parts) :
    ∃ d, b.graph.renderModule i es6 = .ok d ∧ (d.cells ≠ [] → (i, d) ∈ parts) := by
  obtain ⟨drafts, hdrafts, h⟩ := bind_eq_ok.mp h
  obtain rfl := Except.ok.inj h
  obtain ⟨hindices, hrendered⟩ := drafts_renderModule hdrafts
  have hi : i ∈ drafts.map (·.1) := by
    rw [hindices]
    exact horder.symm.subset (List.mem_range.mpr (List.getElem?_eq_some_iff.mp hm).1)
  obtain ⟨⟨_, d⟩, hd, rfl⟩ := List.mem_map.mp hi
  exact ⟨d, hrendered _ hd, fun hne => List.mem_filter.mpr ⟨hd, by simpa [Draft.isEmpty] using hne⟩⟩

end Bundle

/-- In a bundle of texts whose trees tell their literals apart, an output has the text of every literal in a statement
that leaves any text, as it stands in the text of its module, with the marks around it. Left out are literals in front
of what a statement exports, those that a comment that names a source map overlaps, and where the output moves lines
inward, strings with a carriage return and no line feed. -/
theorem literals_written {grammar : Grammar} {s : Storage} {o : BuildOptions} {b : Bundle}
    (hb : Bundle.build grammar s o = .ok b)
    (htrees : ∀ id source tree, (o.pipeline.withStorage s o.packages).fetch id = .ok source →
      Module.treeOf grammar id source = .ok tree →
        tree.Proper source.code.toList ∧ tree.Lexed source.code.toList ∧ tree.Quoted source.code.toList)
    {options : OutputOptions} {output : Output} (houtput : b.generate options = .ok output)
    {i : Nat} {m : LinkedModule} (hm : b.graph.modules[i]? = some m) {source : Source} {tree : SyntaxTree}
    (hsource : (o.pipeline.withStorage s o.packages).fetch m.id = .ok source)
    (htree : Module.treeOf grammar m.id source = .ok tree)
    {t : Statement} (ht : t ∈ m.statements) (hstays : b.graph.isDropped m t = false)
    {n : Node} (hn : n ∈ tree.root.nodes) {r : Nat × Nat} (hr : r ∈ n.chunks)
    (hfirst : t.nodeStart < r.1) (hlast : r.2 < t.stop) (hbehind : ∀ k ∈ t.kind.declarationStart?, k < r.1)
    (hcomment : ∀ k, r.1 ≤ k + 1 → k ≤ r.2 → ¬Module.InMapComment source.code.toList k)
    (hbreaks : options.Indents → n.kind = "string" →
      '\r' ∈ (n.text source.code.toList).toList → '\n' ∈ (n.text source.code.toList).toList) :
    ∃ text a, Text.slice? (r.1 - 1) (r.2 + 1) source.code.toList = some text ∧
      b.assembled options = .ok a ∧ output.code = a.text ∧
      ((Cell.settled (r.1 - 1) text).map fun c => (c.char, c.origin.map (m.id, ·))) <:+: a.characters ∧
      text <:+: output.code.toList := by
  obtain ⟨modules, externals, hfetched, hmodules, hbuilt⟩ := Bundle.built_build
    (fun id source m hsource hm => Module.whole_parse hsource (fun tree => htrees id source tree hsource) hm) hb
  have hwhole := hbuilt.whole hfetched hmodules hm
  obtain ⟨hcode, hquotes⟩ := hwhole.quotes source tree hsource htree
  obtain ⟨hskips, hnoted⟩ :=
    (hquotes t ht).resolve_left (Graph.not_isLink hstays) n hn r hr hfirst hlast hbehind
  obtain ⟨-, hstop, henclosed⟩ := (htrees m.id source tree hsource htree).2.2.enclosed n hn r hr
  obtain ⟨x, first, inner, last, y, hslice, hsplit, hstart, hend, hmarks⟩ := henclosed.split
  obtain ⟨start, stop⟩ := r
  obtain rfl : start = Text.size x + 1 := hstart
  obtain rfl : stop = Text.size x + 1 + Text.size inner := hend
  obtain ⟨mode, parts, a, hparts, ha, hassembled, hcode'⟩ := Bundle.generate_eq_ok houtput
  obtain ⟨d, hd, hpart⟩ := Bundle.exists_rendered (Bundle.gives_build hb).2 hm hparts
  have hguards : ∀ guessed, d.Guards (options.unit guessed) (Text.size x) first inner last := fun guessed =>
    Graph.guards_renderModule hm hwhole.laidOut hwhole.sited ht hstays (hcode.trans hsplit) hmarks hskips
      (fun k hle hlt => hcode ▸ hcomment k (Nat.succ_le_succ hle) hlt)
      (fun hunit hinner => hnoted (Node.mem_noted hr hslice hstop
        (hbreaks (OutputOptions.indents_of_unit hunit)) hinner)) hd
  have hne : d.cells ≠ [] := by
    intro hnil
    have hinfix := (hguards "").whole
    rw [hnil, List.infix_nil] at hinfix
    cases hinfix
  obtain ⟨guessed, p, hp, hfile, hholds⟩ := Bundle.holds_compose
    (fun unit => Draft.lasting_guards unit (Text.size x) first inner last) (hpart hne) hguards ha
  have hid : b.graph.moduleId i = m.id := by
    rw [Graph.moduleId, hm]
    rfl
  have hcharacters := Assembly.infix_characters hp (hid ▸ hfile) hholds.whole
  refine ⟨_, a, hslice, hassembled, hcode', hcharacters, ?_⟩
  have htext := hcharacters.map (·.1)
  rw [Assembly.characters_spell, List.map_map] at htext
  rw [hcode']
  exact Cell.text_settled (Text.size x) (first :: inner ++ [last]) ▸ htext

def templateText (inner : String) : String := "f(`" ++ inner ++ "`);"

def templateGrammar : Grammar := fun text =>
  let stop := Text.size text.toList
  some (.of text (.mk { kind := "program", start := 0, stop } [
    .mk { kind := "expression_statement", start := 0, stop } [
      .mk { kind := "call_expression", start := 0, stop := stop - 1 } [
        .mk { kind := "identifier", start := 0, stop := 1, field := "function" } [],
        .mk { kind := "arguments", start := 1, stop := stop - 1, field := "arguments" } [
          .mk { kind := "template_string", start := 2, stop := stop - 2 } []]]]]))

def template (inner : String) : BuildOptions where
  entry := "a"
  packages := { cwd := "/" }
  pipeline := {
    loaders := [fun _ => .ok (some { code := templateText inner })]
    resolvers := [fun importee _ => .ok (some (.module importee))]
    transforms := [] }

def mapLine : String := "\n" ++ namedMap

theorem quoted_template {inner : String} (hinner : inner = "\n" ∨ inner = mapLine) : ∀ id source tree,
    ((template inner).pipeline.withStorage {} (template inner).packages).fetch id = .ok source →
      Module.treeOf templateGrammar id source = .ok tree →
        tree.Proper source.code.toList ∧ tree.Lexed source.code.toList ∧ tree.Quoted source.code.toList := by
  intro id source tree hsource htree
  obtain rfl := Except.ok.inj hsource
  rcases hinner with rfl | rfl
  · obtain rfl := Except.ok.inj htree
    decide +kernel
  · obtain rfl := Except.ok.inj htree
    decide +kernel

def templateModule (inner : String) (cells : List Cell) (stop : Nat) : Module where
  id := "a"
  code := (templateText inner).toList
  firstCode := templateText inner
  maps := []
  draft := {
    source := templateText inner
    cells
    anchors := [stop - 2, 2, stop - 1, 1, 1, 0, stop - 1, 0, stop, 0, stop, 0] }
  statements := [
    { kind := .other, start := 0, stop := stop, next := stop, nodeStart := 0
      scope := some 0
      references := [{ name := "f", start := 0, stop := 1, scope := 0 }]
      literals := [(3, stop - 3)]
      effects := { calls := true } }]
  scopes := { scopes := [{ parent := none, kind := .statement, names := [] }] }
  imports := []
  exports := []
  reexports := []
  starSources := []
  sources := []
  bindings := []

def brokenTemplate : Graph := .ofModules [(templateModule "\n" (Cell.settled 0 "f(`\n`);".toList) 7, [])] []

def mappedTemplate : Graph :=
  .ofModules [(templateModule mapLine (Cell.settled 0 "f(`\n".toList ++ Cell.settled 27 "`);".toList) 30, [])] []

theorem fetch_brokenTemplate :
    (fetchGraph templateGrammar ((template "\n").pipeline.withStorage {} (template "\n").packages) "a").toOption =
      some brokenTemplate := by
  decide +kernel

theorem fetch_mappedTemplate :
    (fetchGraph templateGrammar ((template mapLine).pipeline.withStorage {} (template mapLine).packages)
      "a").toOption = some mappedTemplate := by
  decide +kernel

theorem literals_written_template : ∃ b output, Bundle.build templateGrammar {} (template "\n") = .ok b ∧
    b.generate { format := .amd } = .ok output ∧
    output.code = r"define(function () { 'use strict';" ++ "\n\n\tf(`\n`);\n\n" ++ r"});" ∧
    "`\n`".toList <:+: output.code.toList := by
  have hrun : (Bundle.ofGraph brokenTemplate).toOption.bind (fun b => b.graph.modules[0]?.bind fun m =>
      m.statements.head?.bind fun t => (b.generate { format := .amd }).toOption.map fun output =>
        (m.id, t.kind, t.nodeStart, t.stop, b.graph.isDropped m t, output.code)) =
      some ("a", .other, 0, 7, false, r"define(function () { 'use strict';" ++ "\n\n\tf(`\n`);\n\n" ++ r"});") := by
    cbv
  obtain ⟨b, hb, hrun⟩ := Option.bind_eq_some_iff.mp hrun
  obtain ⟨m, hm, hrun⟩ := Option.bind_eq_some_iff.mp hrun
  obtain ⟨t, ht, hrun⟩ := Option.bind_eq_some_iff.mp hrun
  obtain ⟨output, houtput, hvalue⟩ := Option.map_eq_some_iff.mp hrun
  simp only [Prod.mk.injEq] at hvalue
  obtain ⟨hid, hkind, hstart, hstop, hstays, hcode⟩ := hvalue
  have hbuild : Bundle.build templateGrammar {} (template "\n") = .ok b := by
    rw [Bundle.build]
    exact bind_eq_ok.mpr ⟨_, ok_of_toOption fetch_brokenTemplate, ok_of_toOption hb⟩
  have hgenerate := ok_of_toOption houtput
  have hbehind : ∀ k ∈ t.kind.declarationStart?, k < 3 := by
    rw [hkind]
    intro k hk
    cases hk
  have hcomment : ∀ k, 3 ≤ k + 1 → k ≤ 4 → ¬Module.InMapComment (templateText "\n").toList k := by
    have hnone : Module.mapComments 0 0 (templateText "\n").toList = [] := by decide
    intro k _ _
    rw [Module.InMapComment, hnone]
    rintro ⟨c, hc, -⟩
    cases hc
  obtain ⟨tree, htree, n, hn, hnkind, hr⟩ : ∃ tree, Module.treeOf templateGrammar m.id
      { code := templateText "\n", firstCode := templateText "\n" } = .ok tree ∧
      ∃ n ∈ tree.root.nodes, n.kind = "template_string" ∧ (3, 4) ∈ n.chunks :=
    ⟨_, rfl, by decide +kernel⟩
  obtain ⟨text, a, htext, -, -, -, hinfix⟩ := literals_written hbuild (quoted_template (.inl rfl)) hgenerate hm rfl
    htree (List.mem_of_mem_head? ht) hstays hn hr (by rw [hstart]; decide) (by rw [hstop]; decide) hbehind hcomment
    (fun _ hstring => absurd (hnkind.symm.trans hstring) (by decide))
  obtain rfl : "`\n`".toList = text := Option.some.inj htext
  exact ⟨b, output, hbuild, hgenerate, hcode, hinfix⟩

/-- A comment that names a source map is taken out of a template, though the tree tells that it is none. -/
theorem comment_in_template_removed : ∃ b output, Bundle.build templateGrammar {} (template mapLine) = .ok b ∧
    (∀ id source tree, ((template mapLine).pipeline.withStorage {} (template mapLine).packages).fetch id = .ok source →
      Module.treeOf templateGrammar id source = .ok tree →
        tree.Proper source.code.toList ∧ tree.Lexed source.code.toList ∧ tree.Quoted source.code.toList) ∧
    b.generate {} = .ok output ∧ output.code = "f(`\n`);" ∧
    ¬("`\n//# sourceMappingURL=x\n`".toList <:+: output.code.toList) := by
  have hrun : (Bundle.ofGraph mappedTemplate).toOption.bind (fun b => (b.generate {}).toOption.map (·.code)) =
      some "f(`\n`);" := by
    cbv
  obtain ⟨b, hb, hrun⟩ := Option.bind_eq_some_iff.mp hrun
  obtain ⟨output, houtput, hcode⟩ := Option.map_eq_some_iff.mp hrun
  have hbuild : Bundle.build templateGrammar {} (template mapLine) = .ok b := by
    rw [Bundle.build]
    exact bind_eq_ok.mpr ⟨_, ok_of_toOption fetch_mappedTemplate, ok_of_toOption hb⟩
  refine ⟨b, output, hbuild, quoted_template (.inr rfl), ok_of_toOption houtput, hcode, ?_⟩
  rw [hcode]
  decide

end Treeshake
