import Treeshake.Proofs.Assembly.Map
import Treeshake.Proofs.Bundle.Sources
/-!
Where the characters of an output come from. Main statement: where the transforms of a module edit the text that
its loader found, the map of an output leads each character that survives all of them back to where it stood in
that text, and records that text.
-/
set_option autoImplicit false

namespace Treeshake

open Assembly SourceMap

namespace SourceMap

theorem through_eq {chains : List (List Lines)} {s : Segment} {chain : List Lines} {found : Option (UInt32 × UInt32)}
    (hchain : chains[s.source.toNat]? = some chain)
    (hfound : placeThrough chain.reverse (s.sourceLine, s.sourceColumn) = .ok found) :
    s.through chains =
      .ok (found.map fun at_ => { s with sourceLine := at_.1, sourceColumn := at_.2, name := none }) := by
  rw [Segment.through, hchain]
  exact bind_eq_ok.mpr ⟨found, hfound, rfl⟩

theorem mem_throughLine {chains : List (List Lines)} {line out : List Segment} {s t : Segment}
    (h : throughLine chains line = .ok out) (hs : s ∈ line) (ht : s.through chains = .ok (some t)) : t ∈ out := by
  induction line generalizing out with
  | nil => cases hs
  | cons s' line ih =>
    obtain ⟨found, rest, hfound, hrest, rfl⟩ := throughLine_cons.mp h
    rcases List.mem_cons.mp hs with rfl | hs
    · obtain rfl := Except.ok.inj (ht.symm.trans hfound)
      exact List.mem_cons_self
    · exact List.mem_append_right _ (ih hrest hs)

theorem exists_collapse {m : SourceMap} {chains : List Chain} {lines : Lines} (hm : m.decoded = .ok lines)
    (hchains : ∀ c ∈ chains, ∃ decoded, c.decoded = .ok decoded ∧
      ∀ lines ∈ decoded, ∀ line ∈ lines, ∀ s ∈ line, s.source = 0)
    (hlines : ∀ line ∈ lines, ∀ s ∈ line, s.source.toNat < chains.length) : ∃ r, m.collapse chains = .ok r := by
  obtain ⟨decoded, hdecoded⟩ := exists_mapM fun c hc => (hchains c hc).imp fun _ h => h.1
  have hthrough : ∀ line ∈ lines, ∃ out, throughLine decoded line = .ok out := by
    intro line hline
    have hsegments : ∀ s ∈ line, ∃ found, s.through decoded = .ok found := by
      intro s hs
      obtain ⟨chain, hchain, hdecoded⟩ :=
        forall₂_getElem? (mapM_eq_ok.mp hdecoded) (List.getElem?_eq_getElem (hlines line hline s hs))
      obtain ⟨chain', hdecoded', hsource⟩ := hchains _ (List.getElem_mem (hlines line hline s hs))
      obtain rfl := Except.ok.inj (hdecoded.symm.trans hdecoded')
      -- no search meets a second source, the only thing that it can fail at
      obtain ⟨found, hfound⟩ :=
        exists_placeThrough (fun l hl => hsource l (List.mem_reverse.mp hl)) (s.sourceLine, s.sourceColumn)
      exact ⟨_, through_eq hchain hfound⟩
    obtain ⟨found, hfound⟩ := exists_mapM hsegments
    exact ⟨_, bind_eq_ok.mpr ⟨found, hfound, rfl⟩⟩
  obtain ⟨out, hout⟩ := exists_mapM hthrough
  exact ⟨_, collapse_eq_ok.mpr ⟨decoded, lines, out, hdecoded, hm, mapM_eq_ok.mp hout, rfl⟩⟩

end SourceMap

namespace Assembly

open Draft

theorem decoded_map (a : Assembly) (o : MapOptions) : (a.map o).decoded = .ok (layout 0 (a.marked o.hires)) := by
  refine decoded_encodeMappings ?_ (layout_ne_nil 0 _)
  rw [map, lines_eq_layout]

theorem source_lt {a : Assembly} {hires : Bool} {line : List Segment} (hline : line ∈ layout 0 (a.marked hires))
    {s : Segment} (hs : s ∈ line) : s.source.toNat < a.filenames.length := by
  obtain ⟨x, hx, t, at_, ht, rfl⟩ := mem_layout hline hs
  obtain ⟨stretch, -, hx⟩ := List.mem_flatMap.mp hx
  have hunmarked : ∀ text : String, x ∉ unmarked text := by
    intro text hx
    obtain ⟨c, -, rfl⟩ := List.mem_map.mp hx
    cases ht
  cases stretch with
  | bare text => exact absurd hx (hunmarked text)
  | part p =>
    simp only [Stretch.marked] at hx
    split at hx
    · next index hindex =>
      obtain ⟨f, -, hindex⟩ := Option.bind_eq_some_iff.mp hindex
      have hsource : t.source = index.toUInt32 := Legend.source_marks hx ht
      have hlt : index < a.filenames.length := (List.findIdx?_eq_some_iff_getElem.mp hindex).1
      have hle := Nat.mod_le index (2 ^ 32)
      change t.source.toNat < a.filenames.length
      rw [hsource, Nat.toUInt32_eq, UInt32.toNat_ofNat']
      omega
    · exact absurd hx (hunmarked p.draft.text)

end Assembly

section

variable {p : Pipeline} {text last : String} {drafts : List Draft}

/-- A text that the pipeline gives for a module whose transforms edit it. -/
theorem Pipeline.Gives.delivers {T : List Texts} (hT : p.Gives T) {t : Texts} (ht : t ∈ T)
    (h : p.Delivers t.id text drafts last) :
    t.first = text ∧ t.last = last ∧ t.chain.decoded = .ok (drafts.map Draft.detail) := by
  obtain ⟨source, hsource, heq⟩ := hT.source t ht
  obtain ⟨tree, maps, hfetch, hdecoded⟩ := h.fetch
  obtain rfl := Except.ok.inj (hsource.symm.trans hfetch)
  rw [heq]
  exact ⟨rfl, rfl, hdecoded⟩

namespace SourceMap

/-- The segments of a source that stand at characters which drafts carried there from a text are still there, at
the places of those characters in that text. -/
def Traces (lines out : Lines) (source : Nat) (text : String) (drafts : List Draft) (last : String) : Prop :=
  ∀ (row : Nat) (line : List Segment) (s : Segment), lines[row]? = some line → s ∈ line → s.source.toNat = source →
    ∀ (x y : List Char) (c : Char) (a b : List Char) (d : Char), last.toList = x ++ c :: y →
      text.toList = a ++ d :: b → Behind (s.sourceLine, s.sourceColumn) x →
      Draft.carried? drafts (Text.size a) = some (Text.size x) →
      c = d ∧ ∃ (line' : List Segment) (t : Segment), out[row]? = some line' ∧ t ∈ line' ∧
        t.column = s.column ∧ t.source = s.source ∧ Behind (t.sourceLine, t.sourceColumn) a

theorem traces_self (lines : Lines) (source : Nat) (text : String) : Traces lines lines source text [] text := by
  intro row line s hline hs _ x y c a b d hlast htext hbehind hcarried
  obtain ⟨rfl, rfl⟩ := Text.split_unique (hlast.symm.trans htext) (Option.some.inj hcarried).symm
  exact ⟨rfl, line, s, hline, hs, rfl, rfl, hbehind⟩

/-- Following the segments through the detailed maps of the drafts leads to the places of the characters. -/
theorem traces_throughLine {chains : List (List Lines)} {lines out : Lines} {source : Nat}
    (hout : List.Forall₂ (fun line o => throughLine chains line = .ok o) lines out)
    (hchain : chains[source]? = some (drafts.map Draft.detail)) (hrevises : Draft.Revises text drafts last)
    (hsize : ∀ d ∈ drafts, Text.size d.source.toList < 2 ^ 32 ∧ Text.size d.text.toList < 2 ^ 32) :
    Traces lines out source text drafts last := by
  intro row line s hline hs hsource x y c a b d hlast htext hbehind hcarried
  obtain ⟨x', y', hlast', hplace, hthrough⟩ := hrevises.placeThrough hsize htext hcarried
  obtain ⟨rfl, rfl⟩ := Text.split_unique (hlast.symm.trans hlast') hplace
  obtain ⟨at_, hat, hbehind⟩ := hthrough _ hbehind
  obtain ⟨line', hline', hrow⟩ := forall₂_getElem? hout hline
  have ht := through_eq (hsource ▸ hchain) hat
  exact ⟨rfl, line', _, hline', mem_throughLine hrow hs ht, rfl, rfl, hbehind⟩

end SourceMap

end

namespace Bundle

variable {b : Bundle} {p : Pipeline} {options : OutputOptions} {a : Assembly} {ts : List Texts}

theorem decoded_directMap (o : OutputOptions) (a : Assembly) :
    (directMap o a).decoded = .ok (layout 0 (a.marked false)) := a.decoded_map _

theorem exists_mapThrough (options : OutputOptions) (hts : p.Gives ts)
    (hsources : a.sources = ts.map fun t => (t.id, t.last))
    (hdelivers : ∀ id ∈ a.filenames, ∃ text drafts last, p.Delivers id text drafts last) :
    ∃ m, mapThrough options a ts = .ok m := by
  have hfilenames : a.filenames = ts.map (·.id) := by
    rw [Assembly.filenames, hsources, List.map_map]
    rfl
  rw [mapThrough]
  split
  · have hchains : ∀ c ∈ ts.map (·.chain), ∃ decoded, c.decoded = .ok decoded ∧
        ∀ lines ∈ decoded, ∀ line ∈ lines, ∀ s ∈ line, s.source = 0 := by
      intro c hc
      obtain ⟨t, ht, rfl⟩ := List.mem_map.mp hc
      obtain ⟨text, drafts, last, hdelivered⟩ := hdelivers t.id (hfilenames ▸ List.mem_map_of_mem ht)
      obtain ⟨-, -, hdecoded⟩ := hts.delivers ht hdelivered
      refine ⟨_, hdecoded, fun lines hlines line hline s hs => ?_⟩
      obtain ⟨d, -, rfl⟩ := List.mem_map.mp hlines
      exact Draft.source_detail hline hs
    have hlines : ∀ line ∈ layout 0 (a.marked false), ∀ s ∈ line, s.source.toNat < (ts.map (·.chain)).length := by
      intro line hline s hs
      have hlt := Assembly.source_lt hline hs
      rwa [hfilenames, List.length_map, ← List.length_map (f := Texts.chain)] at hlt
    obtain ⟨m, hm⟩ := exists_collapse (decoded_directMap options a) hchains hlines
    exact ⟨m, mapError_eq_ok.mpr hm⟩
  · exact ⟨_, rfl⟩

section

variable {text last : String} {drafts : List Draft} {k : Nat} {t : Texts}

theorem traces_collapsed (hts : p.Gives ts) {decoded : List (List Lines)} {lines out : Lines}
    (hdecoded : (ts.map (·.chain)).mapM Chain.decoded = .ok decoded)
    (hout : List.Forall₂ (fun line o => throughLine decoded line = .ok o) lines out) (ht : ts[k]? = some t)
    (h : p.Delivers t.id text drafts last)
    (hsize : ∀ d ∈ drafts, Text.size d.source.toList < 2 ^ 32 ∧ Text.size d.text.toList < 2 ^ 32) :
    ((ts.map (·.chain)).map fun c => some c.code)[k]? = some (some text) ∧ Traces lines out k text drafts last := by
  obtain ⟨hfirst, -, hchain⟩ := hts.delivers (List.mem_of_getElem? ht) h
  have hk : (ts.map (·.chain))[k]? = some t.chain := by
    rw [List.getElem?_map, ht]
    rfl
  obtain ⟨chain, hget, hchain'⟩ := forall₂_getElem? (mapM_eq_ok.mp hdecoded) hk
  obtain rfl := Except.ok.inj (hchain.symm.trans hchain')
  refine ⟨?_, traces_throughLine hout hget h.edited.revises hsize⟩
  rw [List.getElem?_map, hk, ← hfirst]
  rfl

/-- So does a map where no module has maps, since nothing was edited. -/
theorem traces_direct (hts : p.Gives ts) (hsources : a.sources = ts.map fun t => (t.id, t.last)) (lines : Lines)
    (ht : ts[k]? = some t) (hmaps : t.maps = []) (h : p.Delivers t.id text drafts last) :
    (directMap options a).sourcesContent[k]? = some (some text) ∧ Traces lines lines k text drafts last := by
  obtain ⟨-, hlast, hchain⟩ := hts.delivers (List.mem_of_getElem? ht) h
  -- every edit leaves a map, so there was none
  have hdrafts : drafts = [] := by
    rw [Texts.chain, hmaps] at hchain
    exact List.map_eq_nil_iff.mp (Except.ok.inj hchain).symm
  subst hdrafts
  cases h.edited.revises
  refine ⟨?_, traces_self lines k text⟩
  rw [directMap, Assembly.map]
  dsimp only
  rw [hsources, List.map_map, List.getElem?_map, ht, ← hlast]
  rfl

end

theorem traces_mapThrough {m : SourceMap} (hts : p.Gives ts) (hsources : a.sources = ts.map fun t => (t.id, t.last))
    (hm : mapThrough options a ts = .ok m) : ∃ lines out, (directMap options a).decoded = .ok lines ∧
      m.decoded = .ok out ∧ ∀ (k : Nat) id text drafts last, a.filenames[k]? = some id → p.Delivers id text drafts last →
        (∀ d ∈ drafts, Text.size d.source.toList < 2 ^ 32 ∧ Text.size d.text.toList < 2 ^ 32) →
        m.sourcesContent[k]? = some (some text) ∧ Traces lines out k text drafts last := by
  have hget : ∀ (k : Nat) (id : String), a.filenames[k]? = some id → ∃ t : Texts, ts[k]? = some t ∧ t.id = id := by
    intro k id hk
    rw [Assembly.filenames, hsources, List.map_map, List.getElem?_map] at hk
    exact Option.map_eq_some_iff.mp hk
  rw [mapThrough] at hm
  split at hm
  · obtain ⟨decoded, lines, out, hdecoded, hlines, hout, rfl⟩ := collapse_eq_ok.mp (mapError_eq_ok.mp hm)
    refine ⟨lines, out, hlines, ?_, fun k id text drafts last hk hdelivered hsize => ?_⟩
    · refine decoded_encodeMappings rfl fun hnil => decoded_ne_nil hlines ?_
      exact List.length_eq_zero_iff.mp (hout.length_eq.trans (congrArg List.length hnil))
    · obtain ⟨t, ht, rfl⟩ := hget k id hk
      exact traces_collapsed hts hdecoded hout ht hdelivered hsize
  · next hnone =>
    obtain rfl := Except.ok.inj hm
    have hdirect := decoded_directMap options a
    refine ⟨_, _, hdirect, hdirect, fun k id text drafts last hk hdelivered _ => ?_⟩
    obtain ⟨t, ht, rfl⟩ := hget k id hk
    have hmaps : t.maps = [] := by
      by_contra hne
      refine hnone (List.any_eq_true.mpr ⟨t, List.mem_of_getElem? ht, ?_⟩)
      rwa [Bool.not_eq_true', List.isEmpty_eq_false_iff]
    exact traces_direct hts hsources _ ht hmaps hdelivered

end Bundle

/-- Where every module of an output has a text that its transforms edit, the output has a map. The map of an
output records the text that the loader of such a module found, and each of its segments at a character that
survives all transforms leads back to where that character stood. -/
theorem map_traces_transforms {grammar : Grammar} {s : Storage} {o : BuildOptions} {b : Bundle}
    (hb : Bundle.build grammar s o = .ok b) {options : OutputOptions} (hmap : options.wantsMap = true)
    {a : Assembly} (ha : b.assembled options = .ok a) :
    let p := o.pipeline.withStorage s o.packages
    ((∀ id ∈ a.filenames, ∃ text drafts last, p.Delivers id text drafts last) →
      ∃ output, b.generate options = .ok output) ∧
    ∀ output, b.generate options = .ok output → ∃ m lines out, output = ⟨a.text, some m⟩ ∧
      (Bundle.directMap options a).decoded = .ok lines ∧ m.decoded = .ok out ∧
      ∀ (k : Nat) id text drafts last, a.filenames[k]? = some id → p.Delivers id text drafts last →
        (∀ d ∈ drafts, d.source.utf8ByteSize < 2 ^ 32 ∧ d.text.utf8ByteSize < 2 ^ 32) →
        m.sourcesContent[k]? = some (some text) ∧ Traces lines out k text drafts last := by
  intro p
  obtain ⟨ts, hts, hsources, hgenerate⟩ := Bundle.generate_build hb ha hmap
  rw [hgenerate]
  constructor
  · intro hdelivers
    obtain ⟨m, hm⟩ := Bundle.exists_mapThrough options hts hsources hdelivers
    exact ⟨_, bind_eq_ok.mpr ⟨m, hm, rfl⟩⟩
  · intro output houtput
    obtain ⟨m, hm, houtput⟩ := bind_eq_ok.mp houtput
    obtain rfl := Except.ok.inj houtput
    obtain ⟨lines, out, hlines, hout, htraces⟩ := Bundle.traces_mapThrough hts hsources hm
    refine ⟨_, lines, out, rfl, hlines, hout, fun k id text drafts last hk hdelivered hsize => ?_⟩
    simp only [Text.utf8ByteSize_eq] at hsize
    exact htraces k id text drafts last hk hdelivered hsize

deriving instance DecidableEq for LinkedModule, Graph

def movedCallGrammar : Grammar := fun text =>
  some (.of text (.mk { kind := "program", start := 0, stop := Text.size text.toList }
    (if text.isEmpty then [] else [
      .mk { kind := "import_statement", start := 1, stop := 11 } [
        .mk { kind := "string", start := 7, stop := 10, field := "source" } []],
      .mk { kind := "expression_statement", start := 12, stop := 16 } [
        .mk { kind := "call_expression", start := 12, stop := 15 } [
          .mk { kind := "identifier", start := 12, stop := 13, field := "function" } []]]])))

/-- A module with a call, which one transform moves to the next line and another one puts in front of a semicolon,
and behind it a module that leaves no text. -/
def movedCall : BuildOptions where
  entry := "a"
  packages := { cwd := "/" }
  pipeline := {
    loaders := [fun id => .ok (some { code := if id == "a" then "import'b';\nf()" else "" })]
    resolvers := [fun importee _ => .ok (some (.module importee))]
    transforms := [.only ["a"] (.prepend "\n" .hires), .only ["a"] (.append ";" .hires)] }

def movedCallDrafts : List Draft :=
  [(Draft.ofText "import'b';\nf()").edit [.prepend "\n"], (Draft.ofText "\nimport'b';\nf()").edit [.append ";"]]

theorem delivers_movedCall : (movedCall.pipeline.withStorage {} movedCall.packages).Delivers "a" "import'b';\nf()"
    movedCallDrafts "\nimport'b';\nf();" where
  loaded := ⟨none, rfl⟩
  edited := .edit (o := { hires := true }) rfl [.prepend "\n"] rfl rfl
    (.edit (o := { hires := true }) rfl [.append ";"] rfl rfl (.nil _))

def emptyModule : Module where
  id := "b"
  code := []
  firstCode := ""
  maps := []
  draft := { Draft.ofText "" with anchors := [0, 0] }
  statements := []
  scopes := {}
  imports := []
  exports := []
  reexports := []
  starSources := []
  sources := []
  bindings := []

def movedCallModule : Module where
  id := "a"
  code := "\nimport'b';\nf();".toList
  firstCode := "import'b';\nf()"
  maps := movedCallDrafts.map fun d => some (d.map { hires := true })
  draft := { Draft.ofText "\nimport'b';\nf();" with anchors := [13, 12, 15, 12, 16, 12, 10, 7, 11, 1, 16, 0] }
  statements := [
    { kind := .importing, start := 1, stop := 11, next := 12, nodeStart := 1 },
    { kind := .other, start := 12, stop := 16, next := 16, nodeStart := 12, scope := some 0
      references := [{ name := "f", start := 12, stop := 13, scope := 0 }]
      effects := { calls := true } }]
  scopes := { scopes := [{ parent := none, kind := .statement, names := [] }] }
  imports := []
  exports := []
  reexports := []
  starSources := []
  sources := ["b"]
  bindings := []

def movedCallGraph : Graph := .ofModules [(movedCallModule, [("b", .inside 1)]), (emptyModule, [])] []

theorem assembled_movedCall : ∃ b a, Bundle.build movedCallGrammar {} movedCall = .ok b ∧
    b.assembled { map := .file } = .ok a ∧ b.order = [1, 0] ∧ a.filenames = ["a"] ∧
    (Bundle.directMap { map := .file } a).decoded =
      .ok [[⟨0, 0, 2, 0, none⟩, ⟨1, 0, 2, 1, none⟩, ⟨3, 0, 2, 3, none⟩]] := by
  have hfetch : (fetchGraph movedCallGrammar (movedCall.pipeline.withStorage {} movedCall.packages) "a").toOption =
      some movedCallGraph := by
    decide +kernel
  have hrun : (Bundle.ofGraph movedCallGraph).toOption.bind (fun b =>
      (b.assembled { map := .file }).toOption.map fun a =>
        (b.order, a.filenames, (Bundle.directMap { map := .file } a).decoded.toOption)) =
      some ([1, 0], ["a"], some [[⟨0, 0, 2, 0, none⟩, ⟨1, 0, 2, 1, none⟩, ⟨3, 0, 2, 3, none⟩]]) := by
    cbv
  obtain ⟨b, hb, hrun⟩ := Option.bind_eq_some_iff.mp hrun
  obtain ⟨a, ha, hvalue⟩ := Option.map_eq_some_iff.mp hrun
  simp only [Prod.mk.injEq] at hvalue
  obtain ⟨horder, hfilenames, hlines⟩ := hvalue
  have hbuild : Bundle.build movedCallGrammar {} movedCall = .ok b := by
    rw [Bundle.build]
    exact bind_eq_ok.mpr ⟨_, ok_of_toOption hfetch, ok_of_toOption hb⟩
  exact ⟨b, a, hbuild, ok_of_toOption ha, horder, hfilenames, ok_of_toOption hlines⟩

theorem map_traces_transforms_moved_call : ∃ b a m out line t,
    Bundle.build movedCallGrammar {} movedCall = .ok b ∧ b.assembled { map := .file } = .ok a ∧
      b.generate { map := .file } = .ok ⟨a.text, some m⟩ ∧ m.sourcesContent[0]? = some (some "import'b';\nf()") ∧
      m.decoded = .ok out ∧ out[0]? = some line ∧ t ∈ line ∧ t.column = 0 ∧ t.source = 0 ∧
      t.sourceLine.toNat = 1 ∧ t.sourceColumn.toNat = 0 := by
  obtain ⟨b, a, hb, ha, -, hfilenames, hlines⟩ := assembled_movedCall
  obtain ⟨hgenerate, htraces⟩ := map_traces_transforms hb rfl ha
  obtain ⟨output, houtput⟩ := hgenerate fun id hid => by
    rw [hfilenames] at hid
    obtain rfl := List.mem_singleton.mp hid
    exact ⟨_, _, _, delivers_movedCall⟩
  obtain ⟨m, lines, out, rfl, hdirect, hdecoded, htraces⟩ := htraces output houtput
  obtain rfl := Except.ok.inj (hdirect.symm.trans hlines)
  obtain ⟨hcontent, htraces⟩ := htraces 0 "a" "import'b';\nf()" movedCallDrafts "\nimport'b';\nf();"
    (by rw [hfilenames]; rfl) delivers_movedCall (by decide +kernel)
  obtain ⟨-, line, t, hline, ht, hcolumn, hsource, hrow, hcol⟩ := htraces 0 _ ⟨0, 0, 2, 0, none⟩ rfl
    (by decide) rfl "\nimport'b';\n".toList "();".toList 'f' "import'b';\n".toList "()".toList 'f' (by decide)
    (by decide) ⟨by decide, by decide⟩ (by decide +kernel)
  exact ⟨b, a, m, out, line, t, hb, ha, houtput, hcontent, hdecoded, hline, ht, hcolumn, hsource, hrow, hcol⟩

end Treeshake
