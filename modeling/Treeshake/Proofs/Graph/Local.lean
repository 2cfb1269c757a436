import Mathlib
import Treeshake.Proofs.Graph.Contribution
import Treeshake.Proofs.Module.Layout
/-!
The text of a rendered module. Main statement: it is what stood in front of the statements, what each statement adds
by itself, and the object of the module, so statements that are dropped leave nothing and take nothing with them.
-/
set_option autoImplicit false

namespace Treeshake

theorem Reference.Within.rebound {start stop : Nat} {r r' : Reference} (h : r.Within start stop)
    (hr : r.Rebound r') : r'.Within start stop := by
  cases hr with
  | bound b => exact ⟨h.first, h.last, h.accesses⟩
  | narrowed hn =>
    cases hn with
    | whole id => exact ⟨h.first, h.last, h.accesses⟩
    | member a rest id ha hrest => exact ⟨h.first, h.accesses a ha, fun b hb => h.accesses b (hrest hb)⟩

theorem Reference.Within.rebounds {start stop : Nat} {r r' : Reference} (h : r.Within start stop)
    (hr : Relation.ReflTransGen Rebound r r') : r'.Within start stop := by
  induction hr with
  | refl => exact h
  | tail _ hstep ih => exact ih.rebound hstep

theorem Statement.Relinked.place {s t : Statement} (hst : s.Relinked t) {α : Type} (f : Statement → α)
    (hf : ∀ s : Statement, f s.unlinked = f s) : f t = f s := by
  rw [← hf t, hst.same, hf s]

theorem Statement.Contained.relinked {s t : Statement} (h : s.Contained) (hst : s.Relinked t) : t.Contained := by
  have hstart := hst.place (·.start) fun _ => rfl
  have hnext := hst.place (·.next) fun _ => rfl
  refine ⟨?_, ?_, ?_, fun r hr => ?_⟩
  · rw [hstart, hst.place (·.nodeStart) fun _ => rfl]
    exact h.node
  · rw [hstart, hst.place (·.stop) fun _ => rfl, hnext]
    exact h.stop
  · rw [hst.place (·.kind) fun _ => rfl, hnext]
    exact h.offsets
  · obtain ⟨j, hj⟩ := List.mem_iff_getElem?.mp hr
    obtain ⟨r₀, hr₀, hbound⟩ := forall₂_getElem? hst.references.flip hj
    rw [hstart, hnext]
    exact (h.references r₀ (List.mem_of_getElem? hr₀)).rebounds hbound

theorem Statement.Tile.disjoint {length start : Nat} {ss : List Statement} {s t : Statement} (h : Tile length start ss)
    (hc : ∀ s ∈ ss, s.Contained) (hs : s ∈ ss) (ht : t ∈ ss) (hne : s ≠ t) : s.next ≤ t.start ∨ t.next ≤ s.start := by
  have hsymm : Std.Symm fun s t : Statement => s.next ≤ t.start ∨ t.next ≤ s.start := ⟨fun _ _ => Or.symm⟩
  have hapart : ss.Pairwise fun s t => s.next ≤ t.start ∨ t.next ≤ s.start := (h.apart hc).imp fun h => .inl h
  exact hapart.forall hs ht hne

theorem Statement.Tile.relinked {length start : Nat} {ss ts : List Statement} (h : Tile length start ss)
    (hst : List.Forall₂ Statement.Relinked ss ts) : Tile length start ts := by
  induction hst generalizing start with
  | nil => exact h
  | cons hfirst _ ih =>
    refine ⟨(hfirst.place (·.start) fun _ => rfl).trans h.1, ?_⟩
    rw [hfirst.place (·.next) fun _ => rfl]
    exact ih h.2

theorem Module.LaidOut.relinked {m n : LinkedModule} (h : m.toModule.LaidOut) (hmn : m.Relinked n) :
    n.toModule.LaidOut := by
  have hdraft : n.unlinked.draft = m.unlinked.draft := by rw [hmn.same]
  change n.draft = m.draft at hdraft
  have hback : ∀ t ∈ n.statements, ∃ s ∈ m.statements, s.Relinked t := by
    intro t ht
    obtain ⟨j, hj⟩ := List.mem_iff_getElem?.mp ht
    obtain ⟨s, hs, hst⟩ := forall₂_getElem? hmn.statements.flip hj
    exact ⟨s, List.mem_of_getElem? hs, hst⟩
  obtain ⟨start, htile⟩ := h.tiles
  refine ⟨hdraft ▸ h.bare, ⟨start, hdraft ▸ htile.relinked hmn.statements⟩, fun t ht => ?_, fun t ht => ?_⟩
  · obtain ⟨s, hs, hst⟩ := hback t ht
    exact (h.contained s hs).relinked hst
  · obtain ⟨s, hs, hst⟩ := hback t ht
    rw [hst.place (·.start) fun _ => rfl, hdraft]
    exact h.usable s hs

def LinkedModule.opening (m : LinkedModule) : Nat := (m.statements.head?.map (·.start)).getD m.draft.length

def LinkedModule.marked (m : LinkedModule) (S : Nat → Bool) : LinkedModule :=
  { m with statements := m.statements.mapIdx fun j s => { s with included := S j } }

/-- What stands in front of the statements of a module. -/
def LinkedModule.front (m : LinkedModule) : String := String.ofList (Cell.text (m.draft.ahead m.opening))

theorem Module.LaidOut.opening {m : LinkedModule} (h : m.toModule.LaidOut) :
    Statement.Tile m.draft.length m.opening m.statements := by
  obtain ⟨start, htile⟩ := h.tiles
  rw [LinkedModule.opening]
  generalize m.statements = ss at htile
  cases ss with
  | nil => exact rfl
  | cons s ss => exact ⟨rfl, htile.2⟩

namespace Draft

theorem text_trim (d : Draft) : d.trim.text = Text.trimEndBlank (Text.trimStartBlank d.text) := by
  have hchar : (fun c : Cell => Text.isBlank c.char) = Text.isBlank ∘ Cell.char := rfl
  rw [trim, trimEnd, trimStart, text, text, Text.trimEndBlank, Text.trimStartBlank, Text.trimEnd, Text.trimStart,
    String.toList_ofList, String.toList_ofList]
  simp only [Cell.text, ← List.map_reverse, List.dropWhile_map, hchar]

theorem mem_trim {d : Draft} {c : Cell} (hc : c ∈ d.trim.cells) : c ∈ d.cells := by
  have hend := (List.dropWhile_sublist _).subset (List.mem_reverse.mp hc)
  exact (List.dropWhile_sublist _).subset (List.mem_reverse.mp hend)

end Draft

namespace Graph

variable {g h : Graph} {m n : LinkedModule} {es6 : Bool} {s : Statement} {d : Draft} {i : Nat}

theorem inside_replacements {references : List Reference} {start stop : Nat}
    (hr : ∀ r ∈ references, r.Within start stop) : ∀ e ∈ g.replacements m es6 references, e.Inside start stop := by
  intro e he
  obtain ⟨r, hmem, rfl⟩ := List.mem_map.mp he
  have hwithin : r.Within start stop := by
    rcases List.mem_append.mp hmem with h | h <;> exact hr r (List.mem_filter.mp h).1
  rw [substitution]
  split
  · exact hwithin.last
  · exact ⟨hwithin.first, hwithin.last.2⟩

theorem inside_defaultEdits {declarationStart : Nat} {form : DefaultForm} (hs : s.Contained)
    (hkind : s.kind = .exportDefault declarationStart form) :
    ∀ e ∈ g.defaultEdits m es6 s declarationStart form, e.Inside s.start s.next := by
  have hoffsets := hs.offsets
  rw [hkind] at hoffsets
  have hdeclaration : declarationStart ≤ s.next := by
    cases form <;> exact hoffsets _ List.mem_cons_self
  rw [defaultEdits]
  split
  · exact List.forall_mem_singleton.mpr ⟨hs.node, hdeclaration⟩
  · split
    · exact List.forall_mem_nil _
    · split
      · exact List.forall_mem_singleton.mpr ⟨Nat.le_refl _, hdeclaration⟩
      · cases form with
        | anonymousFunction headEnd =>
          have hhead : headEnd ≤ s.next := hoffsets headEnd (List.mem_cons_of_mem _ List.mem_cons_self)
          exact List.forall_mem_singleton.mpr ⟨hs.node, hhead⟩
        | declaration => exact List.forall_mem_singleton.mpr ⟨hs.node, hdeclaration⟩
        | expression => exact List.forall_mem_singleton.mpr ⟨hs.node, hdeclaration⟩

theorem inside_declaratorEdits {keyword : Option String} {separatorEnd : Nat} {last : Bool} (hs : s.Contained)
    (hend : separatorEnd ≤ s.next) :
    ∀ e ∈ declaratorEdits s keyword separatorEnd last, e.Inside s.start s.next := by
  intro e he
  rcases List.mem_append.mp he with he | he
  · obtain ⟨word, -, rfl⟩ := Option.map_eq_some_iff.mp (Option.mem_toList.mp he)
    exact ⟨Nat.le_refl _, hs.le⟩
  · obtain rfl := List.mem_singleton.mp he
    split
    · exact hs.stop
    · exact ⟨hs.stop.1, hend⟩

theorem removed_mem_offsets (g : Graph) (m : LinkedModule) (es6 : Bool) (declarationStart : Nat)
    (declaratorStart : Option Nat) (name : Option String) :
    (declaratorStart.filter fun _ => g.exportsBinding m name es6).getD declarationStart ∈
      (StatementKind.exportDeclaration declarationStart declaratorStart name).offsets := by
  cases hbare : declaratorStart.filter fun _ => g.exportsBinding m name es6 with
  | none => exact List.mem_cons_self
  | some offset =>
    exact List.mem_cons_of_mem _ (Option.mem_toList.mpr (Option.filter_eq_some_iff.mp hbare).1)

theorem inside_statementEdits (hs : s.Contained) : ∀ e ∈ g.statementEdits m es6 s, e.Inside s.start s.next := by
  have hreplacements : ∀ e ∈ g.replacements m es6 s.references, e.Inside s.start s.next :=
    inside_replacements hs.references
  have hremove : ∀ e ∈ [Edit.remove s.start s.next], e.Inside s.start s.next :=
    List.forall_mem_singleton.mpr ⟨Nat.le_refl _, Nat.le_refl _⟩
  have hoffsets := hs.offsets
  rw [statementEdits]
  split
  · exact hremove
  · refine List.forall_mem_append.mpr ⟨fun e he => ?_, ?_⟩
    · obtain ⟨r, -, rfl⟩ := List.mem_map.mp he
      trivial
    · rw [kindEdits]
      cases hkind : s.kind with
      | importing => exact hremove
      | exportClause => exact hremove
      | reexport => exact hremove
      | declarator keyword name separatorEnd last =>
        rw [hkind] at hoffsets
        have hend : separatorEnd ≤ s.next := hoffsets _ List.mem_cons_self
        exact List.forall_mem_append.mpr ⟨inside_declaratorEdits hs hend, hreplacements⟩
      | exportDeclaration declarationStart declaratorStart name =>
        rw [hkind] at hoffsets
        have hend := hoffsets _ (removed_mem_offsets g m es6 declarationStart declaratorStart name)
        exact List.forall_mem_append.mpr ⟨hreplacements, List.forall_mem_singleton.mpr ⟨hs.node, hend⟩⟩
      | exportDefault declarationStart form =>
        exact List.forall_mem_append.mpr ⟨hreplacements, inside_defaultEdits hs hkind⟩
      | «variable» => exact hreplacements
      | other => exact hreplacements

theorem length_eq {d d' : Draft} (h : d'.source = d.source) : d'.length = d.length := by
  rw [Draft.length, Draft.length, h]

/-- Rendering the rest of the statements leaves what stands in front of them, and adds what each of them leaves. -/
theorem cells_statements (hbare : m.draft.Bare) {start : Nat} {ss : List Statement} {a : List Cell} {d' : Draft}
    (htile : Statement.Tile m.draft.length start ss) (hc : ∀ s ∈ ss, s.Contained)
    (hu : ∀ s ∈ ss, Text.usable s.start m.draft.source.toList = true) (ha : Cell.EndBy start a)
    (hcells : d.cells = a ++ m.draft.onward start) (hsource : d.source = m.draft.source)
    (hrun : ss.foldlM (fun d s => d.revise (g.statementEdits m es6 s)) d = .ok d') :
    d'.cells = a ++ ss.flatMap (g.remains m es6) := by
  induction ss generalizing d a start with
  | nil =>
    obtain rfl := Except.ok.inj hrun
    have hnone : m.draft.onward start = [] := by
      refine List.eq_nil_iff_forall_not_mem.mpr fun c hmem => ?_
      obtain ⟨o, -, hle, hlt⟩ := (hbare.comeFrom start).origin c hmem
      obtain rfl : start = m.draft.length := htile
      omega
    rw [hcells, hnone, List.flatMap_nil]
  | cons s ss ih =>
    obtain ⟨rfl, htile⟩ := htile
    obtain ⟨hs, hrest⟩ := List.forall_mem_cons.mp hc
    have hu' : ∀ t ∈ ss, Text.usable t.start m.draft.source.toList = true := fun t ht =>
      hu t (List.mem_cons_of_mem s ht)
    have hnext : Text.usable s.next m.draft.source.toList = true := htile.usable hu'
    rw [List.foldlM_cons] at hrun
    obtain ⟨d₁, hfirst, hrun⟩ := bind_eq_ok.mp hrun
    have hends : s.next ≤ d.length := by
      rw [length_eq hsource]
      exact (htile.bounds hrest).1
    have hbehind : Cell.ComeFrom s.next d.length (m.draft.onward s.next) := by
      rw [length_eq hsource]
      exact hbare.comeFrom s.next
    have hsplit : d.cells = a ++ m.draft.stretch s.start s.next ++ m.draft.onward s.next := by
      rw [hcells, ← hbare.stretch_append_onward hs.le, List.append_assoc]
    obtain ⟨haround, hsource₁⟩ :=
      Draft.revise_stretch ⟨hsplit, hends, ha, hbare.endBy_stretch hnext, hbehind⟩ (inside_statementEdits hs) hfirst
    have hfront : Cell.EndBy s.next (a ++ g.remains m es6 s) := (ha.mono hs.le).append haround.within
    rw [ih htile hrest hu' hfront haround.split (hsource₁.trans hsource) hrun, List.append_assoc, List.flatMap_cons]

/-- The text of a rendered module before it is trimmed. -/
theorem renderModule_parts (hm : g.modules[i]? = some m) (hl : m.toModule.LaidOut)
    (hrun : g.renderModule i es6 = .ok d) : ∃ d₁ : Draft, d = d₁.trim ∧
      d₁.cells = m.draft.ahead m.opening ++ m.statements.flatMap (g.remains m es6) ++
        Cell.fresh ((g.renderObject? m es6).getD "").toList := by
  have hu : Text.usable m.opening m.draft.source.toList = true := hl.opening.usable hl.usable
  rw [renderModule_revise hm] at hrun
  obtain ⟨d₀, hrun, hd⟩ := bind_eq_ok.mp hrun
  have hcells := cells_statements hl.bare hl.opening hl.contained hl.usable (hl.bare.endBy_ahead hu)
    (hl.bare.ahead_append_onward m.opening).symm rfl hrun
  refine ⟨_, (Except.ok.inj hd).symm, ?_⟩
  cases g.renderObject? m es6 with
  | none => exact hcells.trans (List.append_nil _).symm
  | some text => exact congrArg (· ++ Cell.fresh text.toList) hcells

theorem text_parts (g : Graph) (m : LinkedModule) (es6 : Bool) (object : String) :
    String.ofList (Cell.text (m.draft.ahead m.opening ++ m.statements.flatMap (g.remains m es6) ++
        Cell.fresh object.toList)) =
      m.front ++ String.join (m.statements.map (g.contribution m es6)) ++ object := by
  refine String.toList_injective ?_
  simp only [String.toList_ofList, String.toList_append, String.toList_join, LinkedModule.front, contribution,
    Cell.text, List.map_append, List.map_flatMap, List.flatMap_map, Cell.fresh, List.map_map, Function.comp_def,
    List.map_id']

theorem text_renderModule (hm : g.modules[i]? = some m) (hl : m.toModule.LaidOut)
    (hrun : g.renderModule i es6 = .ok d) : d.text = Text.trimEndBlank (Text.trimStartBlank
      (m.front ++ String.join (m.statements.map (g.contribution m es6)) ++ (g.renderObject? m es6).getD "")) := by
  obtain ⟨d₁, rfl, hcells⟩ := renderModule_parts hm hl hrun
  rw [Draft.text_trim, Draft.text, hcells, text_parts]

theorem locate?_of_dropped (hm : g.modules[i]? = some m) (hl : m.toModule.LaidOut)
    (hrun : g.renderModule i es6 = .ok d) (hs : s ∈ m.statements) (hdropped : g.isDropped m s = true) {offset : Nat}
    (hstart : s.start ≤ offset) (hnext : offset < s.next) : d.locate? offset = none := by
  obtain ⟨d₁, rfl, hcells⟩ := renderModule_parts hm hl hrun
  have hu : ∀ start, Text.usable start m.draft.source.toList = true → Cell.EndBy start (m.draft.ahead start) :=
    fun _ => hl.bare.endBy_ahead
  have hfirst : m.opening ≤ s.start := (hl.opening.bounds hl.contained).2 s hs |>.1
  refine Cell.locate?_eq_none_iff.mpr fun c hc => Bool.eq_false_iff.mpr fun hcovers => ?_
  have hmem := Draft.mem_trim hc
  rw [hcells] at hmem
  rcases List.mem_append.mp hmem with hmem | hmem
  · rcases List.mem_append.mp hmem with hmem | hmem
    · have hnone := (hu m.opening (hl.opening.usable hl.usable)).covers (Nat.le_trans hfirst hstart) c hmem
      rw [hnone] at hcovers
      cases hcovers
    · obtain ⟨t, ht, hct⟩ := List.mem_flatMap.mp hmem
      have hne : s ≠ t := by
        rintro rfl
        rw [remains_of_dropped hdropped] at hct
        cases hct
      obtain ⟨o, ho, hle, hlt⟩ := Cell.covers_iff.mp hcovers
      obtain ⟨hcm, hwithin⟩ := List.mem_filter.mp (Edit.mem_cuts hct (Option.isSome_of_eq_some ho))
      obtain ⟨o', ho', hfrom, hto⟩ := Cell.within_iff.mp hwithin
      obtain rfl := Option.some.inj (ho.symm.trans ho')
      rcases Statement.Tile.disjoint hl.opening hl.contained hs ht hne with hbefore | hbehind
      · omega
      · -- a character of a statement in front ends no later than where the dropped one starts
        have := hl.bare.intact.origin_usable hcm ho (hl.usable s hs) (Nat.lt_of_lt_of_le hto hbehind)
        omega
  · obtain ⟨x, -, rfl⟩ := List.mem_map.mp hmem
    cases hcovers

theorem laidOut_marked (hl : m.toModule.LaidOut) (S : Nat → Bool) : (m.marked S).toModule.LaidOut := by
  refine hl.relinked ⟨rfl, List.forall₂_iff_get.mpr ⟨List.length_mapIdx.symm, fun j hj hj' => ?_⟩⟩
  have hget : (m.marked S).statements.get ⟨j, hj'⟩ = { m.statements.get ⟨j, hj⟩ with included := S j } :=
    List.getElem_mapIdx ..
  rw [hget]
  exact ⟨rfl, List.forall₂_same.mpr fun _ _ => .refl⟩

theorem front_marked (m : LinkedModule) (S : Nat → Bool) : (m.marked S).front = m.front := by
  have hopening : (m.marked S).opening = m.opening := by
    rw [LinkedModule.opening, LinkedModule.opening, LinkedModule.marked, List.head?_mapIdx]
    cases m.statements.head? <;> rfl
  rw [LinkedModule.front, LinkedModule.front, hopening]
  rfl

theorem renderObject?_withIncluded (g : Graph) (S : StatementRef → Bool) (S' : Nat → Bool) (m : LinkedModule)
    (es6 : Bool) : (g.withIncluded S).renderObject? (m.marked S') es6 = g.renderObject? m es6 := by
  have hname : ∀ id, (g.withIncluded S).renderName id es6 = g.renderName id es6 := fun id =>
    nameWithin_congr (g := g) (h := g.withIncluded S) rfl rfl _ _ _
  have hmember : (g.withIncluded S).renderMember es6 m.draft.indentUnit = g.renderMember es6 m.draft.indentUnit := by
    funext member
    rw [renderMember, renderMember, hname]
    rfl
  unfold renderObject?
  simp only [LinkedModule.marked, hmember]
  rfl

/-- Modules whose texts are divided among their statements. -/
def LaidModules (modules : List (Module × Table Target)) : Prop := ∀ e ∈ modules, e.1.LaidOut

theorem Built.fetched {modules : List (Module × Table Target)} {externals : List External}
    (hf : Fetched modules externals) (hg : Built modules externals g) (hm : g.modules[i]? = some m) :
    ∃ l : LinkedModule, l.Relinked m ∧ ∃ e ∈ modules, e.1 = l.toModule := by
  obtain ⟨l, hlinked, hlm⟩ := forall₂_getElem? (hg.relinked hf).flip hm
  obtain ⟨e, he, hmodule, -⟩ := (linking 0 0 modules hf.fresh).modules i l hlinked
  exact ⟨l, hlm, e, List.mem_of_getElem? he, hmodule.symm⟩

theorem Built.laidOut {modules : List (Module × Table Target)} {externals : List External}
    (hf : Fetched modules externals) (hl : LaidModules modules) (hg : Built modules externals g)
    (hm : g.modules[i]? = some m) : m.toModule.LaidOut := by
  obtain ⟨l, hlm, e, he, hmodule⟩ := hg.fetched hf hm
  exact (hmodule ▸ hl e he : l.toModule.LaidOut).relinked hlm

/-- In a build, a rendered module is what stood in front of its statements, what each of them adds, and its object.
Whatever statements are included, each adds the same; one that is dropped adds nothing, and nothing of its first text
is left; and what one adds is the same in any two modules that it is the same to. -/
theorem statements_rendered_apart {modules : List (Module × Table Target)} {externals : List External}
    (hf : Fetched modules externals) (hl : LaidModules modules) (hg : Built modules externals g) (es6 : Bool)
    (hm : g.modules[i]? = some m) :
    (∀ d, g.renderModule i es6 = .ok d → d.text = Text.trimEndBlank (Text.trimStartBlank
        (m.front ++ String.join (m.statements.map (g.contribution m es6)) ++ (g.renderObject? m es6).getD "")) ∧
      ∀ s ∈ m.statements, g.isDropped m s = true → g.contribution m es6 s = "" ∧
        ∀ offset, s.start ≤ offset → offset < s.next → d.locate? offset = none) ∧
    (∀ S d, (g.withIncluded S).renderModule i es6 = .ok d → d.text = Text.trimEndBlank (Text.trimStartBlank
        (m.front ++ String.join (m.statements.mapIdx fun j s => g.contribution m es6 { s with included := S ⟨i, j⟩ }) ++
          (g.renderObject? m es6).getD ""))) ∧
    ∀ h n s, Agrees g h m n es6 s → h.contribution n es6 s = g.contribution m es6 s := by
  have hlaid := hg.laidOut hf hl hm
  refine ⟨fun d hrun => ⟨text_renderModule hm hlaid hrun, fun s hs hdropped => ⟨?_, fun offset hstart hnext => ?_⟩⟩,
    fun S d hrun => ?_, fun h n s ha => ha.contribution⟩
  · rw [contribution, remains_of_dropped hdropped]
    rfl
  · exact locate?_of_dropped hm hlaid hrun hs hdropped hstart hnext
  · have hm' : (g.withIncluded S).modules[i]? = some (m.marked fun j => S ⟨i, j⟩) := by
      rw [withIncluded, List.getElem?_mapIdx, hm]
      rfl
    have hparts : (m.marked fun j => S ⟨i, j⟩).statements.map
          ((g.withIncluded S).contribution (m.marked fun j => S ⟨i, j⟩) es6) =
        m.statements.mapIdx fun j s => g.contribution m es6 { s with included := S ⟨i, j⟩ } := by
      refine List.ext_getElem? fun j => ?_
      rw [List.getElem?_map, LinkedModule.marked, List.getElem?_mapIdx, List.getElem?_mapIdx, Option.map_map]
      exact congrArg (m.statements[j]?.map ·) (funext fun s => contribution_withIncluded ..)
    rw [text_renderModule hm' (laidOut_marked hlaid _) hrun, front_marked, renderObject?_withIncluded, hparts]

def alone (modules : List (Module × Table Target)) : Option (Graph × LinkedModule) := do
  let (_, g) ← (bind.run (ofModules modules [])).toOption
  let (_, h) ← (mark.run g).toOption
  let k := (h.deconflict [0]).1
  let m ← k.modules[0]?
  return (k, m)

theorem built_alone {modules : List (Module × Table Target)} (h : alone modules = some (g, m)) :
    Built modules [] g ∧ g.modules[0]? = some m := by
  simp only [alone, Option.bind_eq_bind, Option.bind_eq_some_iff] at h
  obtain ⟨⟨stats, l⟩, hbind, ⟨passes, k⟩, hmark, m', hm, heq⟩ := h
  obtain ⟨rfl, rfl⟩ : _ ∧ _ := by simpa using heq
  exact ⟨⟨stats, l, passes, k, [0], ok_of_toOption hbind, ok_of_toOption hmark, rfl⟩, hm⟩

theorem fetched_alone {m : Module} (hm : m.Fresh) : Fetched [(m, [])] [] := by
  refine ⟨List.forall_mem_singleton.mpr hm, fun e he s t h => ?_, fun e he s j h => ?_, fun e he s j h => ?_, nofun⟩
  all_goals
    obtain rfl := List.mem_singleton.mp he
    cases h

theorem Built.kept {e : Module} (he : e.Fresh) (hg : Built [(e, [])] [] g) (hm : g.modules[0]? = some m) :
    m.draft = e.draft ∧ m.code = e.code ∧ m.scopes = e.scopes := by
  obtain ⟨l, hl, hlm⟩ := forall₂_getElem? (hg.relinked (fetched_alone he)).flip hm
  obtain rfl := Option.some.inj hl
  have hsame := hlm.same
  exact ⟨congrArg (·.draft) hsame, congrArg (·.code) hsame, congrArg (·.scopes) hsame⟩

def idle (draft : Draft) : Module :=
  { wholeModule "0" .other [] [] [] [⟨"x", "x", some 1⟩] with
    draft
    statements := [
      { kind := .other, start := 0, stop := 4, next := 5, nodeStart := 0, effects := { calls := true } },
      { kind := .variable, start := 5, stop := 11, next := 11, nodeStart := 5 }] }

theorem fresh_idle (draft : Draft) : (idle draft).Fresh := by
  refine ⟨by simp [idle], by simp [idle], fun b hb j hj => ?_⟩
  obtain rfl := List.mem_singleton.mp hb
  obtain rfl := Option.some.inj hj
  exact Nat.lt_succ_self 1

theorem laidOut_idle : (idle (Draft.ofText "f();\nvar x;")).LaidOut where
  bare := List.Sublist.refl _
  tiles := ⟨0, rfl, rfl, (by decide +kernel : 11 = Text.size "f();\nvar x;".toList)⟩
  contained := by
    intro s hs
    fin_cases hs
    · exact ⟨by decide, by decide, by decide, List.forall_mem_nil _⟩
    · exact ⟨by decide, by decide, by decide, List.forall_mem_nil _⟩
  usable := by decide +kernel

theorem statements_rendered_apart_idle : ∃ g m d, Built [(idle (Draft.ofText "f();\nvar x;"), [])] [] g ∧
    g.modules[0]? = some m ∧ g.renderModule 0 true = .ok d ∧ d.text = "f();" ∧
    ∀ offset, 5 ≤ offset → offset < 11 → d.locate? offset = none := by
  have hrun : (alone [(idle (Draft.ofText "f();\nvar x;"), [])]).map (fun p => (p.2.statements, p.2.object)) =
      some ([⟨.other, 0, 4, 5, 0, none, [], [], { calls := true }, true⟩,
        ⟨.variable, 5, 11, 11, 5, none, [], [], {}, false⟩], none) := by
    cbv
  obtain ⟨⟨g, m⟩, halone, hvalue⟩ := Option.map_eq_some_iff.mp hrun
  obtain ⟨hstatements, hobject⟩ := Prod.mk.inj hvalue
  obtain ⟨hg, hm⟩ := built_alone halone
  obtain ⟨hdraft, -, -⟩ := hg.kept (fresh_idle _) hm
  have hl : LaidModules [(idle (Draft.ofText "f();\nvar x;"), [])] := List.forall_mem_singleton.mpr laidOut_idle
  obtain ⟨htext, -, -⟩ := statements_rendered_apart (fetched_alone (fresh_idle _)) hl hg true hm
  have hobject' : g.renderObject? m true = none := by
    rw [renderObject?, hobject]
    rfl
  have hfront : m.front = "" := by
    rw [LinkedModule.front, LinkedModule.opening, hstatements, hdraft]
    decide +kernel
  have hcontributions : m.statements.map (g.contribution m true) = ["f();\n", ""] := by
    have hcalled : g.contribution m true ⟨.other, 0, 4, 5, 0, none, [], [], { calls := true }, true⟩ = "f();\n" := by
      change String.ofList (Cell.text (Edit.cuts 5 (m.draft.stretch 0 5) [])) = _
      rw [hdraft]
      decide +kernel
    rw [hstatements, List.map_cons, List.map_singleton, hcalled, contribution, remains_of_dropped rfl]
    rfl
  have hrender : ∃ d, g.renderModule 0 true = .ok d := by
    have hremove : ((Draft.ofText "f();\nvar x;").remove 5 11).isOk = true := by decide +kernel
    rw [renderModule_revise hm, hstatements, hdraft]
    change ∃ d, (((Draft.ofText "f();\nvar x;").remove 5 11 >>= pure) >>= fun d => _) = .ok d
    cases hok : (Draft.ofText "f();\nvar x;").remove 5 11 with
    | error e => simp [hok, Except.isOk, Except.toBool] at hremove
    | ok d => exact ⟨_, rfl⟩
  obtain ⟨d, hd⟩ := hrender
  obtain ⟨hwhole, hgone⟩ := htext d hd
  refine ⟨g, m, d, hg, hm, hd, ?_, ?_⟩
  · rw [hwhole, hfront, hcontributions, hobject']
    decide +kernel
  · exact (hgone ⟨.variable, 5, 11, 11, 5, none, [], [], {}, false⟩ (by rw [hstatements]; simp) rfl).2

def generator (code : List Char) (draft : Draft) : Module :=
  { wholeModule "lib" .other [] [] [("default", ⟨"default", none, 0⟩)] [⟨"default", "lib", some 0⟩] with
    code
    draft
    statements := [
      { kind := .exportDefault 15 (.anonymousFunction 48), start := 0, stop := 54, next := 54, nodeStart := 0 }] }

theorem fresh_generator (code : List Char) (draft : Draft) : (generator code draft).Fresh := by
  refine ⟨by simp [generator], by simp [generator], fun b hb j hj => ?_⟩
  obtain rfl := List.mem_singleton.mp hb
  obtain rfl := Option.some.inj hj
  exact Nat.zero_lt_one

/-- The text of a generator; a comment that names a source map stands in front of its star. -/
def generatorText (map : String) : String := "export default function //# sourceMappingURL=" ++ map ++ "\n* () {}"

def generatorDraft (map : String) : Draft :=
  ((Draft.ofText (generatorText map)).remove 24 47).toOption.getD (Draft.ofText "")

theorem exists_generator (code : List Char) (draft : Draft) : ∃ g m, Built [(generator code draft, [])] [] g ∧
    g.modules[0]? = some m ∧ m.draft = draft ∧ m.code = code ∧ m.scopes = ScopeForest.mk [] ∧
    m.statements = [⟨.exportDefault 15 (.anonymousFunction 48), 0, 54, 54, 0, none, [], [], {}, true⟩] ∧
    (m.declarations.get? "default").map (g.bearing true) = some ("lib", true, false, true, false) := by
  have hrun : (alone [(generator code draft, [])]).map (fun p =>
      (p.2.statements, (p.2.declarations.get? "default").map (p.1.bearing true))) =
      some ([⟨.exportDefault 15 (.anonymousFunction 48), 0, 54, 54, 0, none, [], [], {}, true⟩],
        some ("lib", true, false, true, false)) := by
    cbv
  obtain ⟨⟨g, m⟩, halone, hvalue⟩ := Option.map_eq_some_iff.mp hrun
  obtain ⟨hstatements, hbearing⟩ := Prod.mk.inj hvalue
  obtain ⟨hg, hm⟩ := built_alone halone
  obtain ⟨hdraft, hcode, hscopes⟩ := hg.kept (fresh_generator code draft) hm
  exact ⟨g, m, hg, hm, hdraft, hcode, hscopes, hstatements, hbearing⟩

theorem contribution_generator (hs : s.kind = .exportDefault 15 (.anonymousFunction 48)) (hincluded : s.included = true)
    (hreferences : s.references = [])
    (hbearing : (m.declarations.get? "default").map (g.bearing es6) = some ("lib", true, false, true, false)) :
    g.contribution m es6 s = String.ofList (Cell.text (Edit.cuts s.next (m.draft.stretch s.start s.next)
      [.overwrite s.nodeStart 48 (Text.slice 15 48 m.code ++ " " ++ "lib") false])) := by
  have hredundant : g.isRedundant m s = false := by
    rw [isRedundant_eq g m es6 hs, hbearing]
    rfl
  obtain ⟨id, hid, hvalue⟩ := Option.map_eq_some_iff.mp hbearing
  simp only [bearing, Prod.mk.injEq] at hvalue
  have hused : ((g.declaration? id).any fun x => x.exported || x.used) = true := by
    have hexported := hvalue.2.1
    rw [isExported] at hexported
    rw [declaration?]
    cases hd : g.declarations[id]? with
    | none => simp [hd] at hexported
    | some d => simp_all
  have hedits : g.kindEdits m es6 s =
      [.overwrite s.nodeStart 48 (Text.slice 15 48 m.code ++ " " ++ "lib") false] := by
    rw [kindEdits, hs, hreferences]
    change g.defaultEdits m es6 s 15 (.anonymousFunction 48) = _
    rw [defaultEdits, hid]
    simp [hused, hvalue.1]
  rw [contribution, remains, statementEdits, hincluded, hredundant, hedits]
  exact congrArg (fun cells => String.ofList (Cell.text cells)) (cuts_protect ..)

/-- The comment is in the output, although it was taken from the text: so the output of two modules differs that the
same text was left of. -/
theorem comment_in_head_rendered : ∃ g h m n s,
    Built [(generator (generatorText "a").toList (generatorDraft "a"), [])] [] g ∧
    Built [(generator (generatorText "b").toList (generatorDraft "b"), [])] [] h ∧
    g.modules[0]? = some m ∧ h.modules[0]? = some n ∧ s ∈ m.statements ∧ s ∈ n.statements ∧
    Agrees g h m { n with code := m.code } true s ∧
    m.draft.text = "export default function * () {}" ∧
    g.contribution m true s = "function //# sourceMappingURL=a\n* lib () {}" ∧
    h.contribution n true s = "function //# sourceMappingURL=b\n* lib () {}" := by
  obtain ⟨g, m, hg, hm, hmdraft, hmcode, hmscopes, hmstatements, hmbearing⟩ :=
    exists_generator (generatorText "a").toList (generatorDraft "a")
  obtain ⟨h, n, hh, hn, hndraft, hncode, hnscopes, hnstatements, hnbearing⟩ :=
    exists_generator (generatorText "b").toList (generatorDraft "b")
  refine ⟨g, h, m, n, ⟨.exportDefault 15 (.anonymousFunction 48), 0, 54, 54, 0, none, [], [], {}, true⟩, hg, hh, hm, hn,
    hmstatements ▸ List.mem_singleton.mpr rfl, hnstatements ▸ List.mem_singleton.mpr rfl, ?_, ?_, ?_, ?_⟩
  · refine ⟨?_, hnscopes.trans hmscopes.symm, List.forall_mem_nil _, fun key hkey => ?_, fun _ _ => rfl⟩
    · rw [hmdraft, hndraft]
      decide +kernel
    · obtain rfl := Option.some.inj hkey
      exact hnbearing.trans hmbearing.symm
  · rw [hmdraft]
    decide +kernel
  · rw [contribution_generator rfl rfl rfl hmbearing, hmdraft, hmcode]
    decide +kernel
  · rw [contribution_generator rfl rfl rfl hnbearing, hndraft, hncode]
    decide +kernel

end Graph

end Treeshake
