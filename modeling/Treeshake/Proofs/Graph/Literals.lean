import Treeshake.Proofs.Draft.Whole
import Treeshake.Proofs.Graph.Accepted
import Treeshake.Proofs.Module.Quoted
/-!
Literals in the text of a rendered module. Main statement: the edits of a statement that stays take place in front of
what the statement leaves out and behind it, so that the module holds it as it was.
-/
set_option autoImplicit false

namespace Treeshake

theorem Statement.Quotes.relinked {code : List Char} {t : SyntaxTree} {s s' : Statement} (h : s.Quotes code t)
    (hs : s.Relinked s') : s'.Quotes code t := by
  have hkind : s'.kind = s.kind := hs.place (·.kind) fun _ => rfl
  have hnode : s'.nodeStart = s.nodeStart := hs.place (·.nodeStart) fun _ => rfl
  have hstop : s'.stop = s.stop := hs.place (·.stop) fun _ => rfl
  have hliterals : s'.literals = s.literals := hs.place (·.literals) fun _ => rfl
  have hstays : List.Forall₂ Reference.Stays s.references s'.references :=
    hs.references.imp fun _ _ hr => Reference.stays_of_rebounds hr
  rw [Quotes, hkind, hnode, hstop, hliterals]
  refine h.imp_right fun hquotes n hn k hk hfirst hlast hbehind => ?_
  obtain ⟨hskips, hnoted⟩ := hquotes n hn k hk hfirst hlast hbehind
  refine ⟨⟨⟨hnode ▸ hfirst, hstop ▸ hlast⟩, fun q' hq' => ?_, hkind ▸ hskips.cuts⟩, hnoted⟩
  obtain ⟨q, hq, hqq'⟩ := forall₂_mem hstays hq'
  exact (hskips.references q hq).imp (fun hends i hi => hends i (hqq'.ends hi)) fun hlt => hqq'.start ▸ hlt

structure Module.Quotes (code : List Char) (t : SyntaxTree) (m : Module) : Prop where
  text : m.code = code
  statements : ∀ s ∈ m.statements, s.Quotes code t

theorem Module.Quotes.relinked {code : List Char} {t : SyntaxTree} {m n : LinkedModule}
    (h : m.toModule.Quotes code t) (hmn : m.Relinked n) : n.toModule.Quotes code t := by
  have hcode : n.unlinked.code = m.unlinked.code := by rw [hmn.same]
  change n.code = m.code at hcode
  refine ⟨hcode.trans h.text, fun s' hs' => ?_⟩
  obtain ⟨s, hs, hss'⟩ := forall₂_mem hmn.statements hs'
  exact (h.statements s hs).relinked hss'

namespace Graph

variable {g : Graph} {m : LinkedModule} {es6 : Bool} {s : Statement} {source : String} {start stop : Nat}

theorem not_isLink (hstays : g.isDropped m s = false) : ¬s.kind.IsLink := by
  rw [isDropped, Bool.or_eq_false_iff, Statement.isLink] at hstays
  rintro (h | h | h)
  · rw [h] at hstays
    exact Bool.noConfusion hstays.2
  · rw [h] at hstays
    exact Bool.noConfusion hstays.2
  · rw [h] at hstays
    exact Bool.noConfusion hstays.2

theorem avoids_substitution {r : Reference} {first last : Nat} (hsited : r.Sited source.toList s.nodeStart s.stop)
    (hwithin : r.Within first last) (h : (∀ k ∈ r.ends, k < start) ∨ stop < r.start) (name : String) :
    (substitution r name).Avoids first (start - 1) (stop + 1) last := by
  have hlt := (hsited.ends r.stop List.mem_cons_self).1
  have hfirst := hwithin.first
  have hlast := hwithin.last
  rcases h with hends | hbehind
  · have hend := hends r.stop List.mem_cons_self
    refine .inl ?_
    rw [substitution]
    split
    · exact ⟨by omega, by omega⟩
    · exact ⟨by omega, by omega⟩
  · refine .inr ?_
    rw [substitution]
    split
    · exact ⟨by omega, by omega⟩
    · exact ⟨by omega, by omega⟩

theorem avoids_cut {first offset : Nat} (hk : s.Skips start stop) (hoffset : offset ∈ s.kind.cuts)
    (hfirst : s.start ≤ first) : (Edit.remove first offset).Avoids s.start (start - 1) (stop + 1) s.next ∧
      ∀ text, (Edit.overwrite first offset text false).Avoids s.start (start - 1) (stop + 1) s.next := by
  have hlt := hk.cuts offset hoffset
  exact ⟨.inl ⟨hfirst, by omega⟩, fun _ => .inl ⟨hfirst, by omega⟩⟩

section
variable (hs : Standing source s) (hk : s.Skips start stop)
include hs hk

theorem avoids_replacements (g : Graph) (m : LinkedModule) (es6 : Bool) :
    ∀ e ∈ g.replacements m es6 s.references, e.Avoids s.start (start - 1) (stop + 1) s.next := by
  intro e he
  obtain ⟨r, hmem, rfl⟩ := List.mem_map.mp he
  have hr : r ∈ s.references := by
    rcases List.mem_append.mp hmem with h | h <;> exact (List.mem_filter.mp h).1
  exact avoids_substitution (hs.sited.references r hr) (hs.contained.references r hr) (hk.references r hr) _

theorem avoids_defaultEdits (g : Graph) (m : LinkedModule) (es6 : Bool) {declarationStart : Nat} {form : DefaultForm}
    (hkind : s.kind = .exportDefault declarationStart form) :
    ∀ e ∈ g.defaultEdits m es6 s declarationStart form, e.Avoids s.start (start - 1) (stop + 1) s.next := by
  have hnode : s.start ≤ s.nodeStart := hs.contained.node
  have hcut : declarationStart ∈ s.kind.cuts := by
    rw [hkind]
    cases form <;> exact List.mem_cons_self
  rw [defaultEdits]
  split
  · exact List.forall_mem_singleton.mpr (avoids_cut hk hcut hnode).1
  · split
    · exact List.forall_mem_nil _
    · split
      · exact List.forall_mem_singleton.mpr (avoids_cut hk hcut (Nat.le_refl _)).1
      · cases form with
        | anonymousFunction headEnd =>
          have hhead : headEnd ∈ s.kind.cuts := by
            rw [hkind]
            exact List.mem_cons_of_mem _ List.mem_cons_self
          exact List.forall_mem_singleton.mpr ((avoids_cut hk hhead hnode).2 _)
        | declaration | expression => exact List.forall_mem_singleton.mpr ((avoids_cut hk hcut hnode).2 _)

theorem avoids_declaratorEdits (keyword : Option String) {separatorEnd : Nat} {last : Bool}
    (hend : separatorEnd ≤ s.next) :
    ∀ e ∈ declaratorEdits s keyword separatorEnd last, e.Avoids s.start (start - 1) (stop + 1) s.next := by
  have hnode : s.start ≤ s.nodeStart := hs.contained.node
  have hnext : s.stop ≤ s.next := hs.contained.stop.2
  have hwithin := hk.within
  intro e he
  rcases List.mem_append.mp he with he | he
  · obtain ⟨word, -, rfl⟩ := Option.map_eq_some_iff.mp (Option.mem_toList.mp he)
    exact .inl ⟨Nat.le_refl _, by omega⟩
  · obtain rfl := List.mem_singleton.mp he
    split
    · exact .inr ⟨by omega, hnext⟩
    · exact .inr ⟨by omega, hend⟩

theorem avoids_statementEdits (hstays : g.isDropped m s = false) (es6 : Bool) :
    ∀ e ∈ g.statementEdits m es6 s, e.Avoids s.start (start - 1) (stop + 1) s.next := by
  rw [isDropped, Bool.or_eq_false_iff] at hstays
  obtain ⟨hkept, hlink⟩ := hstays
  have hreplacements := avoids_replacements hs hk g m es6
  have hoffsets := hs.contained.offsets
  rw [statementEdits, if_neg (Bool.eq_false_iff.mp hkept)]
  refine List.forall_mem_append.mpr ⟨fun e he => ?_, ?_⟩
  · obtain ⟨r, -, rfl⟩ := List.mem_map.mp he
    exact .inl trivial
  · rw [kindEdits]
    rw [Statement.isLink] at hlink
    cases hkind : s.kind with
    | importing | exportClause | reexport =>
      rw [hkind] at hlink
      cases hlink
    | declarator keyword name separatorEnd last =>
      rw [hkind] at hoffsets
      have hend : separatorEnd ≤ s.next := hoffsets _ List.mem_cons_self
      exact List.forall_mem_append.mpr ⟨avoids_declaratorEdits hs hk _ hend, hreplacements⟩
    | exportDeclaration declarationStart declaratorStart name =>
      refine List.forall_mem_append.mpr ⟨hreplacements, List.forall_mem_singleton.mpr ?_⟩
      refine (avoids_cut hk ?_ hs.contained.node).1
      rw [hkind]
      exact removed_mem_offsets g m es6 declarationStart declaratorStart name
    | exportDefault declarationStart form =>
      exact List.forall_mem_append.mpr ⟨hreplacements, avoids_defaultEdits hs hk g m es6 hkind⟩
    | «variable» | other => exact hreplacements

end

variable {i : Nat} {d : Draft} {x inner y : List Char} {first last : Char}

/-- What a statement that stays leaves out is among what remains of the statement, as it was. -/
theorem whole_remains (hl : m.toModule.LaidOut) (hs : Standing m.draft.source s) (hstays : g.isDropped m s = false)
    (es6 : Bool) (hsource : m.draft.source.toList = x ++ (first :: inner ++ [last]) ++ y)
    (hmarks : Text.IsMark first ∧ Text.IsMark last) (hk : s.Skips (Text.size x + 1) (Text.size x + 1 + Text.size inner))
    (hlive : ∀ k, Text.size x ≤ k → k ≤ Text.size x + 1 + Text.size inner → m.draft.Live k) :
    Cell.settled (Text.size x) (first :: inner ++ [last]) <:+: g.remains m es6 s := by
  have hsize : Text.size (first :: inner ++ [last]) = 1 + Text.size inner + 1 := by
    rw [Text.size_append, Text.size, Text.size, Text.size, hmarks.1.1, hmarks.2.1]
  have hnode := hs.contained.node
  have hnext := hs.contained.stop.2
  have hwithin := hk.within
  have hend : Text.size x + Text.size (first :: inner ++ [last]) = Text.size x + 1 + Text.size inner + 1 := by omega
  have husable : Text.usable (Text.size x) m.draft.source.toList = true := by
    rw [hsource, List.append_assoc]
    exact Text.usable_size_append _ _
  have hstretch : m.draft.stretch s.start s.next = m.draft.stretch s.start (Text.size x) ++
      Cell.settled (Text.size x) (first :: inner ++ [last]) ++
      m.draft.stretch (Text.size x + Text.size (first :: inner ++ [last])) s.next := by
    rw [← hl.bare.stretch_of_live hsource fun k hle hlt => hlive k hle (by omega),
      hl.bare.stretch_append_stretch (by omega) (by omega), hl.bare.stretch_append_stretch (by omega) (by omega)]
  have havoids := avoids_statementEdits hs hk hstays es6
  rw [Nat.add_sub_cancel, ← hend] at havoids
  have hframed : Cell.Framed (Text.size x) (first :: inner ++ [last]) (m.draft.stretch s.start s.next) :=
    ⟨_, _, hl.bare.endBy_stretch husable, Draft.startFrom_stretch m.draft _ _, hstretch⟩
  rw [remains]
  exact (Edit.framed_cuts (List.cons_ne_nil _ _) hframed havoids).whole

theorem protects_renderModule (hm : g.modules[i]? = some m) (hl : m.toModule.LaidOut) (hs : s ∈ m.statements)
    (hstays : g.isDropped m s = false) (hrun : g.renderModule i es6 = .ok d) :
    d.Intact ∧ ∀ r ∈ s.literals, r ∈ d.protectedRanges := by
  rw [renderModule_revise hm, Draft.revise_flatMap] at hrun
  obtain ⟨d₀, hrevise, h⟩ := bind_eq_ok.mp hrun
  obtain ⟨hintact, -, hprotects⟩ := Draft.protects_revise hl.bare.intact hrevise
  obtain rfl := Except.ok.inj h
  have happended : (((g.renderObject? m es6).map d₀.append).getD d₀).Intact ∧
      (((g.renderObject? m es6).map d₀.append).getD d₀).protectedRanges = d₀.protectedRanges := by
    cases g.renderObject? m es6 with
    | none => exact ⟨hintact, rfl⟩
    | some text => exact ⟨Draft.intact_apply (e := .append text) hintact rfl, rfl⟩
  refine ⟨Draft.intact_trimEnd _ (Draft.intact_trimStart _ happended.1), fun r hr => ?_⟩
  have hkept : (!s.included || g.isRedundant m s) = false := (Bool.or_eq_false_iff.mp hstays).1
  have hprotect : .protect r.1 r.2 ∈ m.statements.flatMap (g.statementEdits m es6) := by
    refine List.mem_flatMap.mpr ⟨s, hs, ?_⟩
    rw [statementEdits, if_neg (Bool.eq_false_iff.mp hkept)]
    exact List.mem_append_left _ (List.mem_map_of_mem hr)
  exact happended.2 ▸ hprotects _ _ hprotect

theorem guards_renderModule {unit : String} (hm : g.modules[i]? = some m) (hl : m.toModule.LaidOut)
    (hsited : m.toModule.Sited) (hs : s ∈ m.statements) (hstays : g.isDropped m s = false)
    (hcode : m.code = x ++ (first :: inner ++ [last]) ++ y) (hmarks : Text.IsMark first ∧ Text.IsMark last)
    (hk : s.Skips (Text.size x + 1) (Text.size x + 1 + Text.size inner))
    (hcomment : ∀ k, Text.size x ≤ k → k ≤ Text.size x + 1 + Text.size inner → ¬Module.InMapComment m.code k)
    (hnoted : unit ≠ "" → (∃ c ∈ inner, Text.isBreak c = true) →
      (Text.size x + 1, Text.size x + 1 + Text.size inner) ∈ s.literals)
    (hrun : g.renderModule i es6 = .ok d) : d.Guards unit (Text.size x) first inner last := by
  have hstanding := standing hl hsited s hs
  have hwithin := hk.within
  have hlive : ∀ k, Text.size x ≤ k → k ≤ Text.size x + 1 + Text.size inner → m.draft.Live k := by
    intro k hle hlt
    have hreach := s.le_reach
    exact (hsited.keeps s hs k (by omega) (by omega)).mpr (hcomment k hle hlt)
  have hremains := whole_remains hl hstanding hstays es6 (hsited.source.trans hcode) hmarks hk hlive
  have hfront : Cell.settled (Text.size x) (first :: inner ++ [last]) <:+: d.cells := by
    obtain ⟨d₁, rfl, hcells⟩ := renderModule_parts hm hl hrun
    have hwhole : Cell.settled (Text.size x) (first :: inner ++ [last]) <:+: d₁.cells := by
      rw [hcells]
      refine hremains.trans (List.IsInfix.trans ?_ (List.infix_append _ _ _))
      obtain ⟨u, v, huv⟩ := List.append_of_mem hs
      rw [huv, List.flatMap_append, List.flatMap_cons, ← List.append_assoc]
      exact List.infix_append _ _ _
    exact Draft.whole_trimEnd hmarks.2.2 (Draft.whole_trimStart hmarks.1.2 hwhole)
  obtain ⟨hintact, hprotected⟩ := protects_renderModule hm hl hs hstays hrun
  exact ⟨hintact, hfront, ⟨hmarks.1.1, hmarks.1.2, hmarks.2.2⟩, fun hunit hbreak =>
    hprotected _ (hnoted hunit hbreak)⟩

end Graph

end Treeshake
