import Mathlib
import Treeshake.Proofs.Graph.Local
/-!
How declarations of exports that are assigned to are written. Main statement: a declarator of one name has its keyword
if and only if its name stays, as an export that is assigned to is called by a property; every other declaration keeps
its keyword, whatever its names become.
-/
set_option autoImplicit false

namespace Treeshake

def StatementKind.fronts : StatementKind → List Nat
  | .exportDeclaration declarationStart declaratorStart _ => declarationStart :: declaratorStart.toList
  | .exportDefault declarationStart _ => [declarationStart]
  | _ => []

/-- A reference is a name in the text of a statement that no other reference stands in front of. -/
structure LinkedModule.Names (m : LinkedModule) (s : Statement) (r : Reference) : Prop where
  mem : r ∈ s.references
  long : r.shorthand = false
  whole : r.name ≠ "" ∧ r.IsWhole
  range : s.start ≤ r.start ∧ r.stop ≤ s.stop
  usable : Text.usable r.start m.draft.source.toList = true
  text : m.draft.stretch r.start r.stop = Cell.settled r.start r.name.toList
  first : ∀ x ∈ s.references, x = r ∨ r.stop ≤ x.start ∧ r.stop ≤ x.stop
  fronts : ∀ offset ∈ s.kind.fronts, s.nodeStart ≤ offset ∧ offset ≤ r.start
  live : (m.draft.locate? s.start).isSome = true

namespace Graph

variable {g : Graph} {m : LinkedModule} {s : Statement} {r : Reference} {es6 : Bool} {i id : Nat} {d : Declaration}

/-- What stays in front of the name of a statement. -/
def lead (g : Graph) (m : LinkedModule) (es6 : Bool) (s : Statement) (r : Reference) : List Cell :=
  match s.kind with
  | .declarator keyword name _ _ =>
    Cell.fresh (if g.exportsBinding m name es6 then "" else keyword ++ " ").toList ++ m.draft.stretch s.start r.start
  | .exportDeclaration declarationStart declaratorStart name =>
    m.draft.stretch s.start s.nodeStart ++ m.draft.stretch
      ((declaratorStart.filter fun _ => g.exportsBinding m name es6).getD declarationStart) r.start
  | .exportDefault declarationStart _ =>
    m.draft.stretch s.start s.nodeStart ++ m.draft.stretch declarationStart r.start
  | _ => m.draft.stretch s.start r.start

theorem mem_of_changed {references : List Reference} {x : Reference} (hx : x ∈ g.changed m es6 references) :
    x ∈ references := by
  rcases List.mem_append.mp hx with hx | hx <;> exact (List.mem_filter.mp hx).1

theorem stop_names (hn : m.Names s r) : r.stop = r.start + Text.size r.name.toList ∧ r.name.toList ≠ [] := by
  obtain ⟨hname, hwhole⟩ := hn.whole
  have hne : r.name.toList ≠ [] := fun h => hname (String.toList_eq_nil_iff.mp h)
  have hsize : Text.size r.name.toList = r.stop - r.start := (Text.utf8ByteSize_eq r.name).symm.trans hwhole
  refine ⟨?_, hne⟩
  obtain ⟨c, cs, hc⟩ := List.exists_cons_of_ne_nil hne
  have hpos := c.utf8Size_pos
  rw [hc, Text.size] at hsize ⊢
  omega

theorem lt_names (hn : m.Names s r) : r.start < r.stop := by
  obtain ⟨hstop, hne⟩ := stop_names hn
  obtain ⟨c, cs, hc⟩ := List.exists_cons_of_ne_nil hne
  have hpos := c.utf8Size_pos
  rw [hstop, hc, Text.size]
  omega

theorem replacements_names (hn : m.Names s r) (hs : s.Contained) (g : Graph) (es6 : Bool) :
    ∀ e ∈ g.replacements m es6 s.references,
      e = .overwrite r.start r.stop (g.emitted m es6 s.references r) true ∨ e.Inside r.stop s.next := by
  intro e he
  obtain ⟨x, hx, rfl⟩ := List.mem_map.mp he
  rcases hn.first x (mem_of_changed hx) with rfl | ⟨hstart, hstop⟩
  · left
    rw [substitution, hn.long]
    rfl
  · right
    have hwithin := hs.references x (mem_of_changed hx)
    rw [substitution]
    split
    · exact ⟨hstop, hwithin.last.2⟩
    · exact ⟨hstart, hwithin.last.2⟩

theorem overwrite_mem_replacements (hn : m.Names s r) (g : Graph) (es6 : Bool) :
    .overwrite r.start r.stop (g.emitted m es6 s.references r) true ∈ g.replacements m es6 s.references ↔
      r ∈ g.changed m es6 s.references := by
  have hsubstitution : substitution r (g.emitted m es6 s.references r) =
      .overwrite r.start r.stop (g.emitted m es6 s.references r) true := by
    rw [substitution, hn.long]
    rfl
  refine ⟨fun he => ?_, fun hr => List.mem_map.mpr ⟨r, hr, hsubstitution⟩⟩
  obtain ⟨x, hx, heq⟩ := List.mem_map.mp he
  rcases hn.first x (mem_of_changed hx) with rfl | ⟨hstart, -⟩
  · exact hx
  · -- an edit of another reference starts behind the name
    have hlt := lt_names hn
    rw [substitution] at heq
    split at heq
    · cases heq
    · simp only [Edit.overwrite.injEq] at heq
      omega

theorem cuts_replacements (hn : m.Names s r) (hs : s.Contained) {a b : List Cell} (ha : Cell.EndBy r.start a)
    (hb : Cell.StartFrom r.stop b) : ∃ x b', Cell.text x = (g.emitted m es6 s.references r).toList ∧
      Cell.StartFrom r.start (x ++ b') ∧
      Edit.cuts s.next (a ++ Cell.settled r.start r.name.toList ++ b) (g.replacements m es6 s.references) =
        a ++ x ++ b' := by
  obtain ⟨hstop, hne⟩ := stop_names hn
  have hes := replacements_names hn hs g es6
  have hmem := overwrite_mem_replacements hn g es6
  rw [hstop] at hes hmem hb
  obtain ⟨b', hb', heq⟩ := Edit.cuts_name hne ha hb hes
  have hbehind : Cell.StartFrom r.start b' := fun c hc o ho => Nat.le_trans (Nat.le_add_right ..) (hb' c hc o ho)
  have hx : Cell.StartFrom r.start (if .overwrite r.start (r.start + Text.size r.name.toList)
      (g.emitted m es6 s.references r) true ∈ g.replacements m es6 s.references then
        Cell.fresh (g.emitted m es6 s.references r).toList else Cell.settled r.start r.name.toList) := by
    split
    · exact Cell.startFrom_fresh _
    · exact Cell.startFrom_settled _
  refine ⟨_, b', ?_, hx.append hbehind, heq⟩
  · by_cases hr : r ∈ g.changed m es6 s.references
    · rw [if_pos (hmem.mpr hr), Cell.text_fresh]
    · rw [if_neg fun h => hr (hmem.mp h), Cell.text_settled, emitted_of_notMem_changed hn.mem hr]

/-- The text of a statement around the name. -/
theorem stretch_names (hbare : m.draft.Bare) (hn : m.Names s r) (hs : s.Contained) : m.draft.stretch s.start s.next =
    m.draft.stretch s.start r.start ++ Cell.settled r.start r.name.toList ++ m.draft.stretch r.stop s.next := by
  obtain ⟨hstop, -⟩ := stop_names hn
  have hlast : r.stop ≤ s.next := Nat.le_trans hn.range.2 hs.stop.2
  rw [← hn.text, hbare.stretch_append_stretch hn.range.1 (by omega),
    hbare.stretch_append_stretch (Nat.le_trans hn.range.1 (by omega)) hlast]

theorem cut_remove_stretch (hbare : m.draft.Bare) {start first last stop next : Nat} {b : List Cell}
    (hfirst : start ≤ first) (hlast : first ≤ last) (hstop : last ≤ stop) (hb : Cell.StartFrom stop b) :
    (Edit.remove first last).cut next (m.draft.stretch start stop ++ b) =
      m.draft.stretch start first ++ m.draft.stretch last stop ++ b := by
  have hfront : ∀ c ∈ m.draft.stretch start first, c.within first last = false := by
    intro c hc
    obtain ⟨o, ho, -, hlt⟩ := Cell.within_iff.mp (List.mem_filter.mp hc).2
    simp only [Cell.within, ho, Option.any_some, Bool.and_eq_false_iff, decide_eq_false_iff_not]
    omega
  have hrest : Cell.StartFrom last (m.draft.stretch last stop ++ b) :=
    (m.draft.startFrom_stretch last stop).append fun c hc o ho => Nat.le_trans hstop (hb c hc o ho)
  have hbehind := hrest.within (Nat.le_refl last) first
  have hsplit : m.draft.stretch start stop ++ b =
      m.draft.stretch start first ++ m.draft.stretch first last ++ (m.draft.stretch last stop ++ b) := by
    rw [← hbare.stretch_append_stretch hfirst (Nat.le_trans hlast hstop), ← hbare.stretch_append_stretch hlast hstop]
    simp only [List.append_assoc]
  rw [hsplit, List.append_assoc (m.draft.stretch start first) (m.draft.stretch last stop) b, Edit.cut]
  cases hgone : m.draft.stretch first last with
  | nil =>
    have hnone : ∀ c ∈ m.draft.stretch start first ++ [] ++ (m.draft.stretch last stop ++ b),
        c.within first last = false := by
      rw [List.append_nil]
      exact List.forall_mem_append.mpr ⟨hfront, hbehind⟩
    rw [if_neg fun hany => ?_, List.append_nil]
    obtain ⟨c, hc, hwithin⟩ := List.any_eq_true.mp hany
    rw [hnone c hc] at hwithin
    cases hwithin
  | cons c cells =>
    have hall : ∀ x ∈ c :: cells, x.within first last = true := fun x hx =>
      (List.mem_filter.mp (hgone ▸ hx : x ∈ m.draft.stretch first last)).2
    have hc := hall c List.mem_cons_self
    have hany : (c :: cells).any (·.within first last) = true := List.any_eq_true.mpr ⟨c, List.mem_cons_self, hc⟩
    rw [if_pos (by simp [hc]), Cell.behind_append_of_none hbehind, Cell.behind_append_of_any hany,
      Cell.behind_of_all hall, List.append_assoc, List.cons_append, Cell.upTo_eq hfront hc, List.nil_append]

theorem cuts_declaratorEdits (hl : m.toModule.LaidOut) (hmem : s ∈ m.statements) (hn : m.Names s r)
    {bare : Bool} {keyword : String} {separatorEnd : Nat} (hend : separatorEnd ≤ s.next) {last : Bool} :
    Edit.cuts s.next (m.draft.stretch s.start r.start ++ Cell.settled r.start r.name.toList ++
        m.draft.stretch r.stop s.next)
        (declaratorEdits s (if bare then none else some keyword) separatorEnd last) =
      Cell.fresh (if bare then "" else keyword ++ " ").toList ++ m.draft.stretch s.start r.start ++
        Cell.settled r.start r.name.toList ++ Edit.cut s.next (m.draft.stretch r.stop s.next)
          (if s.stop = separatorEnd then .insert s.stop (if last then ";" else ";\n")
            else .overwrite s.stop separatorEnd (if last then ";" else ";\n") false) := by
  have hs := hl.contained s hmem
  obtain ⟨hstop, hne⟩ := stop_names hn
  have hlt : s.start < s.next := Nat.lt_of_le_of_lt hn.range.1
    (Nat.lt_of_lt_of_le (lt_names hn) (Nat.le_trans hn.range.2 hs.stop.2))
  have hkeyword : Edit.cuts s.next (m.draft.stretch s.start r.start ++ Cell.settled r.start r.name.toList ++
        m.draft.stretch r.stop s.next)
        ((if bare then none else some keyword).map fun keyword => Edit.insert s.start (keyword ++ " ")).toList =
      Cell.fresh (if bare then "" else keyword ++ " ").toList ++ (m.draft.stretch s.start r.start ++
        Cell.settled r.start r.name.toList ++ m.draft.stretch r.stop s.next) := by
    cases bare with
    | true => rfl
    | false =>
      rw [← stretch_names hl.bare hn hs]
      obtain ⟨hnil, hself⟩ := (hl.bare.comeFrom_stretch hs.le).upTo_eq_nil
        (hl.bare.any_stretch (hl.usable s hmem) hlt hn.live)
      change Edit.cut s.next _ (.insert s.start (keyword ++ " ")) = _
      rw [Edit.cut, if_neg (Nat.ne_of_lt hlt), hnil, hself, List.nil_append]
      rfl
  have hfront : Cell.EndBy r.stop (Cell.fresh (if bare then "" else keyword ++ " ").toList ++
      (m.draft.stretch s.start r.start ++ Cell.settled r.start r.name.toList)) := by
    refine (Cell.endBy_fresh _).append (Cell.EndBy.append ?_ ?_)
    · exact (hl.bare.endBy_stretch hn.usable).mono (by omega)
    · rw [hstop]
      exact Cell.endBy_settled _
  rw [declaratorEdits, Edit.cuts_append, hkeyword]
  change Edit.cut s.next _ _ = _
  rw [← List.append_assoc, Edit.cut_behind hfront ?_]
  · simp only [List.append_assoc]
  · split
    · exact ⟨hn.range.2, hs.stop.2⟩
    · exact ⟨hn.range.2, hend⟩

/-- What a statement adds begins with what stays in front of its name, and with the new name. -/
theorem contribution_names (hl : m.toModule.LaidOut) (hmem : s ∈ m.statements) (hn : m.Names s r)
    (hstays : g.isDropped m s = false) (hform : ∀ declarationStart form, s.kind = .exportDefault declarationStart form →
      form = .declaration) :
    ∃ rest, g.contribution m es6 s =
      String.ofList (Cell.text (g.lead m es6 s r)) ++ g.emitted m es6 s.references r ++ rest := by
  have hs := hl.contained s hmem
  have hfront : Cell.EndBy r.start (m.draft.stretch s.start r.start) := hl.bare.endBy_stretch hn.usable
  obtain ⟨hkept, hlink⟩ : (!s.included || g.isRedundant m s) = false ∧ s.isLink = false := by
    rwa [isDropped, Bool.or_eq_false_iff] at hstays
  -- it is enough to find the new name between what leads to it and what follows
  suffices h : ∃ x b, Cell.text x = (g.emitted m es6 s.references r).toList ∧
      Edit.cuts s.next (m.draft.stretch s.start s.next) (g.kindEdits m es6 s) = g.lead m es6 s r ++ x ++ b by
    obtain ⟨x, b, hx, heq⟩ := h
    refine ⟨String.ofList (Cell.text b), String.toList_injective ?_⟩
    rw [contribution, remains, statementEdits, if_neg (by rw [hkept]; exact Bool.false_ne_true), cuts_protect, heq]
    simp only [String.toList_append, String.toList_ofList, ← hx, Cell.text, List.map_append]
  rw [stretch_names hl.bare hn hs, kindEdits, lead]
  cases hkind : s.kind with
  | importing => simp [Statement.isLink, hkind] at hlink
  | exportClause => simp [Statement.isLink, hkind] at hlink
  | reexport => simp [Statement.isLink, hkind] at hlink
  | «variable» =>
    obtain ⟨x, b, hx, -, heq⟩ := cuts_replacements (g := g) hn hs hfront (m.draft.startFrom_stretch r.stop s.next)
    exact ⟨x, b, hx, heq⟩
  | other =>
    obtain ⟨x, b, hx, -, heq⟩ := cuts_replacements (g := g) hn hs hfront (m.draft.startFrom_stretch r.stop s.next)
    exact ⟨x, b, hx, heq⟩
  | declarator keyword name separatorEnd last =>
    obtain ⟨hstop, hne⟩ := stop_names hn
    have hend : separatorEnd ≤ s.next := hs.offsets separatorEnd (by rw [hkind]; exact List.mem_cons_self)
    obtain ⟨x, b, hx, -, heq⟩ := cuts_replacements (g := g) hn hs
      ((Cell.endBy_fresh (if g.exportsBinding m name es6 then "" else keyword ++ " ").toList).append hfront)
      (Edit.startFrom_cut (m.draft.startFrom_stretch r.stop s.next))
    refine ⟨x, b, hx, ?_⟩
    rw [Edit.cuts_append, cuts_declaratorEdits hl hmem hn hend]
    exact heq
  | exportDeclaration declarationStart declaratorStart name =>
    obtain ⟨x, b, hx, hstart, heq⟩ :=
      cuts_replacements (g := g) hn hs hfront (m.draft.startFrom_stretch r.stop s.next)
    have hfronts := hn.fronts
    rw [hkind] at hfronts
    obtain ⟨hnode, hname⟩ := hfronts _ (removed_mem_offsets g m es6 declarationStart declaratorStart name)
    refine ⟨x, b, hx, ?_⟩
    rw [Edit.cuts_append, heq]
    change Edit.cut s.next _ (.remove s.nodeStart _) = _
    rw [List.append_assoc, cut_remove_stretch hl.bare hs.node hnode hname hstart]
    simp only [List.append_assoc]
  | exportDefault declarationStart form =>
    obtain rfl := hform declarationStart form hkind
    obtain ⟨x, b, hx, hstart, heq⟩ :=
      cuts_replacements (g := g) hn hs hfront (m.draft.startFrom_stretch r.stop s.next)
    obtain ⟨hnode, hname⟩ := hn.fronts declarationStart (by rw [hkind]; exact List.mem_cons_self)
    refine ⟨x, b, hx, ?_⟩
    rw [Edit.cuts_append, heq]
    change Edit.cut s.next _ (.remove s.nodeStart declarationStart) = _
    rw [List.append_assoc, cut_remove_stretch hl.bare hs.node hnode hname hstart]
    simp only [List.append_assoc]

theorem exportsBinding_writesThrough {key : String} (hkey : m.declarations.get? key = some id)
    (hd : g.declaration? id = some d) (hkind : d.kind = .binding) :
    g.exportsBinding m (some key) false = d.writesThrough false := by
  rw [exportsBinding, Option.bind_some, hkey, Option.bind_some, hd]
  simp [Declaration.writesThrough, hkind]

theorem emitted_plain {references : List Reference} (hid : r.declaration? = some id) (hd : g.declaration? id = some d)
    (hkind : d.kind = .binding) (hplain : d.writesThrough false = false) :
    g.emitted m false references r = d.name ∨ g.emitted m false references r = d.name ++ "$$" := by
  have hname : g.renderName id false = d.name := by
    have hflags : (d.exported && d.reassigned) = false := by simpa [Declaration.writesThrough, hkind] using hplain
    rw [renderName, nameWithin, hd]
    simp [hkind, hflags]
  rw [emitted]
  cases hnew : g.newName? false r with
  | some name =>
    obtain ⟨id', hid', rfl⟩ := newName?_eq_some hnew
    obtain rfl := Option.some.inj (hid.symm.trans hid')
    exact .inl hname
  | none =>
    rw [Option.getD_none, (newName?_eq_none hid hnew).1, hname, displaced]
    split
    · exact .inr rfl
    · exact .inl rfl

/-- In a build, a name that a statement declares stands behind what leads to it. Outside the module format it is the
property of the exports if it is exported and assigned to, and a plain name otherwise; the declarator of a single name
has a keyword, its own or the one in front of it, if and only if its name is plain. What every other statement declares
has all in front that it had. -/
theorem declarators_written {modules : List (Module × Table Target)} {externals : List External}
    (hf : Fetched modules externals) (hp : PlainModules modules) (hl : LaidModules modules)
    (hg : Built modules externals g) (hm : g.modules[i]? = some m) (hs : s ∈ m.statements)
    (hstays : g.isDropped m s = false)
    (hform : ∀ declarationStart form, s.kind = .exportDefault declarationStart form → form = .declaration)
    (hn : m.Names s r) (hid : r.declaration? = some id) (hd : g.declaration? id = some d) (hkind : d.kind = .binding) :
    (∃ rest, g.contribution m false s =
      String.ofList (Cell.text (g.lead m false s r)) ++ g.emitted m false s.references r ++ rest) ∧
    (d.writesThrough false = true → g.emitted m false s.references r = "exports." ++ d.name) ∧
    (d.writesThrough false = false → g.emitted m false s.references r = d.name ∨
      g.emitted m false s.references r = d.name ++ "$$") ∧
    (∀ keyword key separatorEnd last, s.kind = .declarator keyword (some key) separatorEnd last →
      m.declarations.get? key = some id → r.start = s.start → String.ofList (Cell.text (g.lead m false s r)) =
        if d.writesThrough false then "" else keyword ++ " ") ∧
    ∀ declarationStart key, s.kind = .exportDeclaration declarationStart (some r.start) (some key) →
      m.declarations.get? key = some id → g.lead m false s r = m.draft.stretch s.start s.nodeStart ++
        if d.writesThrough false then [] else m.draft.stretch declarationStart r.start := by
  have hempty : m.draft.stretch r.start r.start = [] := by
    refine List.filter_eq_nil_iff.mpr fun c _ hwithin => ?_
    obtain ⟨o, -, hle, hlt⟩ := Cell.within_iff.mp hwithin
    omega
  refine ⟨contribution_names (hg.laidOut hf hl hm) hs hn hstays hform,
    fun hthrough => ((hg.through hf hp hd hthrough).references i m s r hm hs hn.mem hid).2,
    emitted_plain hid hd hkind, fun keyword key separatorEnd last hdeclarator hkey hstart => ?_,
    fun declarationStart key hexport hkey => ?_⟩
  · rw [lead, hdeclarator]
    dsimp only
    rw [exportsBinding_writesThrough hkey hd hkind, ← hstart, hempty, List.append_nil, Cell.text_fresh,
      String.ofList_toList]
  · rw [lead, hexport]
    dsimp only
    rw [exportsBinding_writesThrough hkey hd hkind]
    cases d.writesThrough false with
    | true => exact congrArg (m.draft.stretch s.start s.nodeStart ++ ·) hempty
    | false => rfl

def counter (draft : Draft) (statements : List Statement) : Module :=
  { wholeModule "0" .other [] [] [("a", ⟨"a", none, 0⟩)] [⟨"a", "a", some 0⟩] with
    draft
    statements
    scopes := ⟨[⟨none, .statement, ["a"]⟩, ⟨none, .statement, []⟩, ⟨none, .statement, []⟩]⟩ }

theorem fresh_counter {statements : List Statement} (draft : Draft) (hne : statements ≠ [])
    (hread : ∀ s ∈ statements, s.included = false ∧ ∀ r ∈ s.references, r.binding = .unbound) :
    (counter draft statements).Fresh := by
  refine ⟨fun s hs => (hread s hs).1, fun s hs => (hread s hs).2, fun b hb j hj => ?_⟩
  obtain rfl := List.mem_singleton.mp hb
  obtain rfl := Option.some.inj hj
  exact List.length_pos_iff.mpr hne

def exportedVariable : List Statement :=
  [{ kind := .exportDeclaration 7 (some 11) (some "a"), start := 0, stop := 17, next := 18, nodeStart := 0,
      scope := some 0, references := [{ name := "a", start := 11, stop := 12, scope := 0 }] },
    { kind := .other, start := 18, stop := 24, next := 24, nodeStart := 18, scope := some 1
      references := [{ name := "a", start := 18, stop := 19, scope := 1, reassigns := true }]
      effects := { targets := [some "a"] } }]

theorem declarators_written_exported : ∃ g m d s, Built [(counter (Draft.ofText "export var a = 0;\na = 1;")
      exportedVariable, [])] [] g ∧ g.modules[0]? = some m ∧ g.declaration? 0 = some d ∧ d.writesThrough false = true ∧
    s ∈ m.statements ∧ ∃ rest, g.contribution m false s = "exports.a" ++ rest := by
  have hrun : ∀ draft, (alone [(counter draft exportedVariable, [])]).map (fun p =>
      (p.2.statements.head?, p.2.declarations.get? "a", p.1.declaration? 0)) =
      some (some ⟨.exportDeclaration 7 (some 11) (some "a"), 0, 17, 18, 0, some 0,
          [⟨"a", 11, 12, 0, [], .declared 0, true, false, false⟩], [], {}, true⟩, some 0,
        some ⟨"a", .binding, some ⟨0, 0⟩, true, true, true, []⟩) := by
    intro draft
    cbv
  have hfresh : (counter (Draft.ofText "export var a = 0;\na = 1;") exportedVariable).Fresh :=
    fresh_counter _ (List.cons_ne_nil _ _) (by decide)
  obtain ⟨⟨g, m⟩, halone, hvalue⟩ := Option.map_eq_some_iff.mp (hrun (Draft.ofText "export var a = 0;\na = 1;"))
  simp only [Prod.mk.injEq] at hvalue
  obtain ⟨hstatement, hkey, hd⟩ := hvalue
  obtain ⟨hg, hm⟩ := built_alone halone
  obtain ⟨hdraft, -, -⟩ := hg.kept hfresh hm
  have hl : LaidModules [(counter (Draft.ofText "export var a = 0;\na = 1;") exportedVariable, [])] := by
    refine List.forall_mem_singleton.mpr ⟨List.Sublist.refl _, ⟨0, rfl, rfl,
      (by decide +kernel : 24 = Text.size "export var a = 0;\na = 1;".toList)⟩, fun s hs => ?_, by decide +kernel⟩
    fin_cases hs
    · exact ⟨by decide, by decide, by decide, List.forall_mem_singleton.mpr ⟨by decide, by decide, by decide⟩⟩
    · exact ⟨by decide, by decide, by decide, List.forall_mem_singleton.mpr ⟨by decide, by decide, by decide⟩⟩
  have hp : PlainModules [(counter (Draft.ofText "export var a = 0;\na = 1;") exportedVariable, [])] := by
    refine List.forall_mem_singleton.mpr fun s hs => ?_
    fin_cases hs
    · exact Reference.Plain.of_bare _ (by decide)
    · exact Reference.Plain.of_bare _ (by decide)
  have hs := List.mem_of_mem_head? (Option.mem_def.mpr hstatement)
  have hn : m.Names ⟨.exportDeclaration 7 (some 11) (some "a"), 0, 17, 18, 0, some 0,
      [⟨"a", 11, 12, 0, [], .declared 0, true, false, false⟩], [], {}, true⟩
      ⟨"a", 11, 12, 0, [], .declared 0, true, false, false⟩ := by
    refine ⟨List.mem_cons_self, rfl, ⟨by decide, rfl⟩, by decide, ?_, ?_, by decide, by decide, ?_⟩
    · rw [hdraft]
      decide +kernel
    · rw [hdraft]
      decide +kernel
    · rw [hdraft]
      decide +kernel
  obtain ⟨⟨rest, hcontribution⟩, hthrough, -, -, hlead⟩ :=
    declarators_written (fetched_alone hfresh) hp hl hg hm hs rfl (fun _ _ h => by cases h) hn rfl hd rfl
  refine ⟨g, m, _, _, hg, hm, hd, rfl, hs, rest, ?_⟩
  have hstart : m.draft.stretch 0 0 = [] := by
    rw [hdraft]
    decide +kernel
  rw [hcontribution, hlead 7 "a" rfl hkey, hthrough rfl, hstart]
  rfl

def clausedVariable : List Statement :=
  [{ kind := .variable, start := 0, stop := 10, next := 11, nodeStart := 0, scope := some 0,
      references := [{ name := "a", start := 4, stop := 5, scope := 0 }] },
    { kind := .exportClause, start := 11, stop := 24, next := 25, nodeStart := 11, scope := some 1
      references := [{ name := "a", start := 20, stop := 21, scope := 1 }] },
    { kind := .other, start := 25, stop := 31, next := 31, nodeStart := 25, scope := some 2
      references := [{ name := "a", start := 25, stop := 26, scope := 2, reassigns := true }]
      effects := { targets := [some "a"] } }]

/-- A variable that is not exported with its declaration keeps its keyword in front of the property. -/
theorem property_declared : ∃ g m d s rendered, Built [(counter
      (Draft.ofText "var a = 0;\nexport { a };\na = 1;") clausedVariable, [])] [] g ∧
    g.modules[0]? = some m ∧ g.entryExports.get? "a" = some 0 ∧ g.declaration? 0 = some d ∧
    d.exported = true ∧ d.reassigned = true ∧ s ∈ m.statements ∧ s.kind = .variable ∧ s.included = true ∧
    g.contribution m false s = "var exports.a = 0;\n" ∧ g.renderModule 0 false = .ok rendered ∧
    rendered.text = "var exports.a = 0;\nexports.a = 1;" := by
  have hrun : ∀ draft, (alone [(counter draft clausedVariable, [])]).map (fun p =>
      (p.2.statements.head?, p.2.statements.map (p.1.statementEdits p.2 false), p.2.object, p.1.declaration? 0,
        p.1.entryExports.get? "a")) =
      some (some ⟨.variable, 0, 10, 11, 0, some 0, [⟨"a", 4, 5, 0, [], .declared 0, true, false, false⟩], [], {}, true⟩,
        [[.overwrite 4 5 "exports.a" true], [.remove 11 25], [.overwrite 25 26 "exports.a" true]], none,
        some ⟨"a", .binding, some ⟨0, 0⟩, true, true, true, []⟩, some 0) := by
    intro draft
    cbv
  have hfresh : (counter (Draft.ofText "var a = 0;\nexport { a };\na = 1;") clausedVariable).Fresh :=
    fresh_counter _ (List.cons_ne_nil _ _) (by decide)
  obtain ⟨⟨g, m⟩, halone, hvalue⟩ :=
    Option.map_eq_some_iff.mp (hrun (Draft.ofText "var a = 0;\nexport { a };\na = 1;"))
  simp only [Prod.mk.injEq] at hvalue
  obtain ⟨hstatement, hedits, hobject, hd, hexport⟩ := hvalue
  obtain ⟨hg, hm⟩ := built_alone halone
  have hdraft : m.draft = Draft.ofText "var a = 0;\nexport { a };\na = 1;" := (hg.kept hfresh hm).1
  have hs := List.mem_of_mem_head? (Option.mem_def.mpr hstatement)
  have hfirst : g.statementEdits m false ⟨.variable, 0, 10, 11, 0, some 0,
      [⟨"a", 4, 5, 0, [], .declared 0, true, false, false⟩], [], {}, true⟩ = [.overwrite 4 5 "exports.a" true] := by
    have hhead := congrArg List.head? hedits
    rw [List.head?_map, hstatement] at hhead
    exact Option.some.inj hhead
  have hnone : g.renderObject? m false = none := by
    rw [renderObject?, hobject]
    rfl
  have hrender : ∃ rendered, g.renderModule 0 false = .ok rendered ∧
      rendered.text = "var exports.a = 0;\nexports.a = 1;" := by
    have htext : (([[Edit.overwrite 4 5 "exports.a" true], [.remove 11 25], [.overwrite 25 26 "exports.a" true]].foldlM
        Draft.revise (Draft.ofText "var a = 0;\nexport { a };\na = 1;")).toOption.map (·.trim.text)) =
        some "var exports.a = 0;\nexports.a = 1;" := by
      decide +kernel
    obtain ⟨d, hrevised, htext⟩ := Option.map_eq_some_iff.mp htext
    have hfold : m.statements.foldlM (fun d s => d.revise (g.statementEdits m false s)) m.draft =
        (m.statements.map (g.statementEdits m false)).foldlM Draft.revise m.draft := List.foldlM_map.symm
    rw [renderModule_revise hm, hfold, hedits, hdraft, hnone, ok_of_toOption hrevised]
    exact ⟨d.trim, rfl, htext⟩
  obtain ⟨rendered, hrendered, htext⟩ := hrender
  refine ⟨g, m, _, _, rendered, hg, hm, hexport, hd, rfl, rfl, hs, rfl, rfl, ?_, hrendered, htext⟩
  rw [contribution, remains, hfirst, hdraft]
  decide +kernel

end Graph

end Treeshake
