import Treeshake.Proofs.Graph.Local
import Treeshake.Proofs.Module.Sited
/-!
Which modules can be rendered. Main statement: a module can be rendered if and only if no edit of a statement holds on
to a byte of a comment that names a source map; whatever else is removed or replaced is never in the way.
-/
set_option autoImplicit false

namespace Treeshake

/-- Edits that lie between characters, that hold on to bytes of a range alone, and of which none takes away what a later
one holds on to. -/
structure Edit.Compatible (source : String) (start stop : Nat) (es : List Edit) : Prop where
  placed : ∀ e ∈ es, e.Placed source
  holds : ∀ e ∈ es, ∀ k ∈ e.holds, start ≤ k ∧ k < stop
  spares : es.Pairwise Edit.Spares

namespace Edit.Compatible

variable {source : String} {start stop : Nat} {e : Edit} {es fs : List Edit}

theorem nil : Compatible source start stop [] := ⟨List.forall_mem_nil _, List.forall_mem_nil _, .nil⟩

theorem mono {start' stop' : Nat} (h : Compatible source start stop es) (hstart : start' ≤ start)
    (hstop : stop ≤ stop') : Compatible source start' stop' es where
  placed := h.placed
  holds e he k hk := ⟨Nat.le_trans hstart (h.holds e he k hk).1, Nat.lt_of_lt_of_le (h.holds e he k hk).2 hstop⟩
  spares := h.spares

theorem singleton (hplaced : e.Placed source) (hholds : ∀ k ∈ e.holds, start ≤ k ∧ k < stop) :
    Compatible source start stop [e] :=
  ⟨List.forall_mem_singleton.mpr hplaced, List.forall_mem_singleton.mpr hholds, List.pairwise_singleton ..⟩

theorem append (hes : Compatible source start stop es) (hfs : Compatible source start stop fs)
    (hspares : ∀ e ∈ es, ∀ f ∈ fs, e.Spares f) : Compatible source start stop (es ++ fs) :=
  ⟨List.forall_mem_append.mpr ⟨hes.placed, hfs.placed⟩, List.forall_mem_append.mpr ⟨hes.holds, hfs.holds⟩,
    List.pairwise_append.mpr ⟨hes.spares, hfs.spares, hspares⟩⟩

end Edit.Compatible

namespace Statement

variable {code : List Char} {s t : Statement}

theorem Sited.relinked (h : s.Sited code) (hst : s.Relinked t) : t.Sited code := by
  have hkind : t.kind = s.kind := hst.place (·.kind) fun _ => rfl
  have hstart : t.start = s.start := hst.place (·.start) fun _ => rfl
  have hnode : t.nodeStart = s.nodeStart := hst.place (·.nodeStart) fun _ => rfl
  have hstop : t.stop = s.stop := hst.place (·.stop) fun _ => rfl
  have hreach : t.reach = s.reach := by rw [reach, reach, hkind, hstop]
  have hstays : List.Forall₂ Reference.Stays s.references t.references :=
    hst.references.imp fun _ _ hr => Reference.stays_of_rebounds hr
  refine ⟨hnode ▸ h.first, ⟨hnode ▸ hstop ▸ h.last.1, hstop ▸ h.last.2⟩, ?_, fun r hr => ?_, ?_, ?_⟩
  · rw [hkind, hnode, hreach]
    exact h.offsets
  · obtain ⟨q, hq, hqr⟩ := forall₂_mem hstays hr
    rw [hnode, hstop]
    exact (h.references q hq).stays hqr
  · exact pairwise_of_forall₂ hstays h.ahead fun q hq q' _ r r' hahead hqr hqr' =>
      hahead.stays (h.references q hq) hqr hqr'
  · have hordered := h.ordered
    rw [Ordered] at hordered ⊢
    rw [hkind, hstart, hnode, hstop]
    cases hcase : s.kind with
    | exportDefault declarationStart form =>
      rw [hcase] at hordered
      refine ⟨hordered.1, hordered.2.1, fun r hr => ?_⟩
      obtain ⟨q, hq, hqr⟩ := forall₂_mem hstays hr
      obtain ⟨hfar, hapart⟩ := hordered.2.2 q hq
      rw [hqr.start]
      exact ⟨hfar, hapart.imp_left fun hends k hk => hends k (hqr.ends hk)⟩
    | declarator keyword name separatorEnd last =>
      rw [hcase] at hordered
      exact hordered
    | _ => trivial

end Statement

theorem Module.Sited.relinked {m n : LinkedModule} (h : m.toModule.Sited) (hmn : m.Relinked n) :
    n.toModule.Sited := by
  have hdraft : n.unlinked.draft = m.unlinked.draft := by rw [hmn.same]
  change n.draft = m.draft at hdraft
  have hcode : n.unlinked.code = m.unlinked.code := by rw [hmn.same]
  change n.code = m.code at hcode
  refine ⟨hdraft ▸ hcode ▸ h.source, fun t ht => ?_, fun t ht k hle hlt => ?_⟩
  · obtain ⟨s, hs, hst⟩ := forall₂_mem hmn.statements ht
    exact hcode ▸ (h.statements s hs).relinked hst
  · obtain ⟨s, hs, hst⟩ := forall₂_mem hmn.statements ht
    have hnode : t.nodeStart = s.nodeStart := hst.place (·.nodeStart) fun _ => rfl
    have hreach : t.reach = s.reach := hst.place (·.reach) fun _ => rfl
    rw [hdraft, hcode]
    exact h.keeps s hs k (hnode ▸ hle) (hreach ▸ hlt)

namespace Graph

variable {g : Graph} {m : LinkedModule} {es6 : Bool} {s : Statement} {source : String} {start stop : Nat}

theorem compatible_substitution {r : Reference} (hr : r.Sited source.toList start stop) (name : String) :
    (substitution r name).Placed source ∧
      (∀ k ∈ (substitution r name).holds, r.start ≤ k ∧ k < stop ∧ ∀ q, r.Ahead q → k < q.start) ∧
      ∀ k, (substitution r name).Takes k → r.start ≤ k ∧ k < r.stop := by
  obtain ⟨hlt, hle, husable⟩ := hr.ends r.stop List.mem_cons_self
  rw [substitution]
  split
  · next hshort =>
    have hbehind := (hr.shorthand hshort).2
    refine ⟨husable, List.forall_mem_singleton.mpr ⟨Nat.le_of_lt hlt, hbehind, fun q hq => ?_⟩, fun _ h => h.elim⟩
    exact Nat.lt_of_le_of_ne (hq.ends r.stop List.mem_cons_self) (hq.shorthand hshort)
  · refine ⟨⟨hr.usable, husable, hlt⟩, List.forall_mem_cons.mpr ⟨⟨Nat.le_refl _, ?_, fun q hq => ?_⟩,
      List.forall_mem_singleton.mpr ⟨?_, ?_, fun q hq => ?_⟩⟩, fun _ h => h⟩
    · omega
    · have := hq.ends r.stop List.mem_cons_self
      omega
    · omega
    · omega
    · have := hq.ends r.stop List.mem_cons_self
      omega

theorem spares_substitution {q r : Reference} (hq : q.Sited source.toList start stop)
    (hr : r.Sited source.toList start stop) (h : q.Ahead r ∨ r.Ahead q) (name name' : String) :
    (substitution q name).Spares (substitution r name') := by
  intro k hk htakes
  obtain ⟨hfirst, hlast⟩ := (compatible_substitution hq name).2.2 k htakes
  obtain ⟨hle, -, hfront⟩ := (compatible_substitution hr name').2.1 k hk
  rcases h with h | h
  · have := h.ends q.stop List.mem_cons_self
    omega
  · have := hfront q h
    omega

theorem pairwise_changed {R : Reference → Reference → Prop} (hR : ∀ q r, R q r → R r q) {references : List Reference}
    (h : references.Pairwise R) : (g.changed m es6 references).Pairwise R := by
  have hsplit : (g.changed m es6 references).Subperm references := by
    refine .trans ?_ (List.filter_append_perm (fun r => (g.newName? es6 r).isSome) references).subperm
    refine ((List.Sublist.refl _).append (List.monotone_filter_right _ fun r hr => ?_)).subperm
    rw [Bool.and_eq_true] at hr
    cases hname : g.newName? es6 r with
    | none => rfl
    | some name =>
      rw [hname] at hr
      cases hr.1
  obtain ⟨rs, hperm, hsub⟩ := hsplit
  exact (hperm.pairwise_iff fun h => hR _ _ h).mp (h.sublist hsub)

theorem compatible_replacements (g : Graph) (m : LinkedModule) (es6 : Bool) {references : List Reference}
    (hr : ∀ r ∈ references, r.Sited source.toList start stop) (hahead : references.Pairwise Reference.Ahead) :
    Edit.Compatible source start stop (g.replacements m es6 references) ∧
      ∀ e ∈ g.replacements m es6 references, ∀ k, e.Takes k → ∃ r ∈ references, r.start ≤ k ∧ k < r.stop := by
  have hmem : ∀ r ∈ g.changed m es6 references, r ∈ references := by
    intro r hr
    rcases List.mem_append.mp hr with h | h <;> exact (List.mem_filter.mp h).1
  have hapart : (g.changed m es6 references).Pairwise fun q r => q.Ahead r ∨ r.Ahead q :=
    pairwise_changed (fun _ _ => Or.symm) (hahead.imp .inl)
  refine ⟨⟨fun e he => ?_, fun e he k hk => ?_, List.pairwise_map.mpr (hapart.imp_of_mem fun hq hr' h => ?_)⟩,
    fun e he k hk => ?_⟩
  · obtain ⟨r, hmemr, rfl⟩ := List.mem_map.mp he
    exact (compatible_substitution (hr r (hmem r hmemr)) _).1
  · obtain ⟨r, hmemr, rfl⟩ := List.mem_map.mp he
    have hsited := hr r (hmem r hmemr)
    obtain ⟨hle, hlt, -⟩ := (compatible_substitution hsited _).2.1 k hk
    exact ⟨Nat.le_trans hsited.first hle, hlt⟩
  · exact spares_substitution (hr _ (hmem _ hq)) (hr _ (hmem _ hr')) h _ _
  · obtain ⟨r, hmemr, rfl⟩ := List.mem_map.mp he
    exact ⟨r, hmem r hmemr, (compatible_substitution (hr r (hmem r hmemr)) _).2.2 k hk⟩

/-- A statement of a module, where it stands in the text. -/
structure Standing (source : String) (s : Statement) : Prop where
  sited : s.Sited source.toList
  contained : s.Contained
  start : Text.usable s.start source.toList = true
  next : Text.usable s.next source.toList = true

section
variable (hs : Standing source s)
include hs

theorem compatible_declaratorEdits (keyword : Option String) {word : String} {name : Option String} {separatorEnd : Nat}
    {last : Bool} (hkind : s.kind = .declarator word name separatorEnd last) :
    Edit.Compatible source s.nodeStart s.reach (declaratorEdits s keyword separatorEnd last) ∧
      ∀ e ∈ declaratorEdits s keyword separatorEnd last, ∀ k, e.Takes k → s.stop ≤ k := by
  have hordered : s.start = s.nodeStart ∧ s.stop ≤ separatorEnd := by
    have h := hs.sited.ordered
    rwa [Statement.Ordered, hkind] at h
  have hreach : s.reach = max separatorEnd (s.stop + 1) := by rw [Statement.reach, hkind]
  obtain ⟨hle, hstop⟩ := hs.sited.last
  obtain ⟨hseparator, -, -⟩ := hs.sited.offsets separatorEnd (by rw [hkind]; exact List.mem_singleton_self _)
  have hterminated : Edit.Compatible source s.nodeStart s.reach
      [if s.stop = separatorEnd then .insert s.stop (if last then ";" else ";\n")
        else .overwrite s.stop separatorEnd (if last then ";" else ";\n") false] := by
    split
    · exact .singleton hstop (List.forall_mem_singleton.mpr ⟨hle, by omega⟩)
    · have hlt : s.stop < separatorEnd := by omega
      refine .singleton ⟨hstop, hseparator, hlt⟩ (List.forall_mem_cons.mpr ⟨⟨hle, by omega⟩,
        List.forall_mem_singleton.mpr ⟨by omega, by omega⟩⟩)
  have hword : Edit.Compatible source s.nodeStart s.reach
      (keyword.map fun keyword => Edit.insert s.start (keyword ++ " ")).toList := by
    cases keyword with
    | none => exact .nil
    | some keyword =>
      exact .singleton hs.start (List.forall_mem_singleton.mpr ⟨Nat.le_of_eq hordered.1.symm, by omega⟩)
  have hinsert : ∀ e ∈ (keyword.map fun keyword => Edit.insert s.start (keyword ++ " ")).toList, ∀ k, ¬e.Takes k := by
    intro e he k
    obtain ⟨_, -, rfl⟩ := Option.map_eq_some_iff.mp (Option.mem_toList.mp he)
    exact id
  refine ⟨hword.append hterminated fun e he f _ k _ => hinsert e he k, fun e he k hk => ?_⟩
  rcases List.mem_append.mp he with he | he
  · exact absurd hk (hinsert e he k)
  · obtain rfl := List.mem_singleton.mp he
    split at hk
    · exact hk.elim
    · exact hk.1

theorem compatible_defaultEdits (g : Graph) (m : LinkedModule) (es6 : Bool) {declarationStart : Nat}
    {form : DefaultForm} (hkind : s.kind = .exportDefault declarationStart form) :
    Edit.Compatible source s.nodeStart s.reach (g.defaultEdits m es6 s declarationStart form) ∧
      ∀ r ∈ s.references, ∀ e ∈ g.defaultEdits m es6 s declarationStart form, ∀ k ∈ e.holds,
        k < r.start ∨ r.stop ≤ k := by
  have hordered : s.nodeStart < declarationStart ∧ (∀ k, form = .anonymousFunction k → declarationStart ≤ k) ∧
      ∀ r ∈ s.references, s.nodeStart < r.start ∧ ((∀ k ∈ r.ends, k < declarationStart) ∨
        declarationStart ≤ r.start ∧ ∀ k, form = .anonymousFunction k → k ≤ r.start) := by
    have h := hs.sited.ordered
    rwa [Statement.Ordered, hkind] at h
  obtain ⟨hlt, hhead, hreferences⟩ := hordered
  have hoffsets := hs.sited.offsets
  rw [hkind] at hoffsets
  obtain ⟨hdeclaration, -, hdeclarationReach⟩ := hoffsets declarationStart (by cases form <;> exact List.mem_cons_self)
  have hfront : s.start ≤ s.nodeStart := hs.contained.node
  have hremoval : ∀ start, start ≤ s.nodeStart → Text.usable start source.toList = true →
      Edit.Compatible source s.nodeStart s.reach [.remove start declarationStart] := fun start hle husable =>
    .singleton ⟨husable, hdeclaration, by omega⟩ (List.forall_mem_nil _)
  have hrewrite : ∀ k text, declarationStart ≤ k → Text.usable k source.toList = true → k ≤ s.reach →
      (∀ r ∈ s.references, s.nodeStart < r.start ∧ (r.stop < declarationStart ∨ k ≤ r.start)) →
      Edit.Compatible source s.nodeStart s.reach [.overwrite s.nodeStart k text false] ∧
        ∀ r ∈ s.references, ∀ e ∈ [Edit.overwrite s.nodeStart k text false], ∀ i ∈ e.holds,
          i < r.start ∨ r.stop ≤ i := by
    intro k text hle husable hreach hr
    refine ⟨.singleton ⟨hs.sited.first, husable, by omega⟩ (List.forall_mem_cons.mpr ⟨⟨Nat.le_refl _, by omega⟩,
      List.forall_mem_singleton.mpr ⟨by omega, by omega⟩⟩), fun r hmem => List.forall_mem_singleton.mpr ?_⟩
    obtain ⟨hbefore, hapart⟩ := hr r hmem
    exact List.forall_mem_cons.mpr ⟨.inl hbefore, List.forall_mem_singleton.mpr (by omega)⟩
  have hnone : ∀ start, ∀ r ∈ s.references, ∀ e ∈ [Edit.remove start declarationStart], ∀ k ∈ e.holds,
      k < r.start ∨ r.stop ≤ k := fun _ _ _ => List.forall_mem_singleton.mpr (List.forall_mem_nil _)
  have hexpression : ∀ text, Edit.Compatible source s.nodeStart s.reach
      [.overwrite s.nodeStart declarationStart text false] ∧ ∀ r ∈ s.references,
        ∀ e ∈ [Edit.overwrite s.nodeStart declarationStart text false], ∀ i ∈ e.holds, i < r.start ∨ r.stop ≤ i := by
    refine fun text => hrewrite _ text (Nat.le_refl _) hdeclaration hdeclarationReach fun r hr => ?_
    obtain ⟨hbefore, hapart⟩ := hreferences r hr
    exact ⟨hbefore, hapart.imp (fun hends => hends r.stop List.mem_cons_self) And.left⟩
  rw [defaultEdits]
  split
  · exact ⟨hremoval _ (Nat.le_refl _) hs.sited.first, hnone _⟩
  · split
    · exact ⟨.nil, fun _ _ => List.forall_mem_nil _⟩
    · split
      · exact ⟨hremoval _ hfront hs.start, hnone _⟩
      · cases form with
        | anonymousFunction headEnd =>
          obtain ⟨husable, -, hreach⟩ := hoffsets headEnd (List.mem_cons_of_mem _ List.mem_cons_self)
          refine hrewrite _ _ (hhead headEnd rfl) husable hreach fun r hr => ?_
          obtain ⟨hbefore, hapart⟩ := hreferences r hr
          exact ⟨hbefore, hapart.imp (fun hends => hends r.stop List.mem_cons_self) fun hin => hin.2 headEnd rfl⟩
        | declaration => exact hexpression _
        | expression => exact hexpression _

theorem compatible_statementEdits (g : Graph) (m : LinkedModule) (es6 : Bool) :
    Edit.Compatible source s.nodeStart s.reach (g.statementEdits m es6 s) := by
  have hremove : Edit.Compatible source s.nodeStart s.reach [.remove s.start s.next] :=
    .singleton ⟨hs.start, hs.next, hs.contained.le⟩ (List.forall_mem_nil _)
  obtain ⟨hwithin, htakes⟩ := compatible_replacements g m es6 hs.sited.references hs.sited.ahead
  have hreplacements : Edit.Compatible source s.nodeStart s.reach (g.replacements m es6 s.references) :=
    hwithin.mono (Nat.le_refl _) s.le_reach
  rw [statementEdits]
  split
  · exact hremove
  · have hprotect : Edit.Compatible source s.nodeStart s.reach (s.literals.map fun r => Edit.protect r.1 r.2) := by
      refine ⟨fun e he => ?_, fun e he => ?_, List.pairwise_map.mpr (List.pairwise_of_forall fun _ _ _ _ => id)⟩
      · obtain ⟨_, -, rfl⟩ := List.mem_map.mp he
        trivial
      · obtain ⟨_, -, rfl⟩ := List.mem_map.mp he
        exact List.forall_mem_nil _
    refine hprotect.append ?_ fun e he f _ k _ => ?_
    · rw [kindEdits]
      cases hkind : s.kind with
      | importing => exact hremove
      | exportClause => exact hremove
      | reexport => exact hremove
      | declarator keyword name separatorEnd last =>
        obtain ⟨hdeclarator, hbehind⟩ := compatible_declaratorEdits hs
          (if g.exportsBinding m name es6 then none else some keyword) hkind
        refine hdeclarator.append hreplacements fun e he f hf k hk htake => ?_
        exact Nat.not_lt_of_le (hbehind e he k htake) (hwithin.holds f hf k hk).2
      | exportDeclaration declarationStart declaratorStart name =>
        have hoffsets := hs.sited.offsets
        rw [hkind] at hoffsets
        obtain ⟨husable, hle, -⟩ := hoffsets _ (removed_mem_offsets g m es6 declarationStart declaratorStart name)
        refine hreplacements.append (.singleton ⟨hs.sited.first, husable, hle⟩ (List.forall_mem_nil _))
          fun e he f hf k hk _ => ?_
        obtain rfl := List.mem_singleton.mp hf
        cases hk
      | exportDefault declarationStart form =>
        obtain ⟨hdefault, hapart⟩ := compatible_defaultEdits hs g m es6 hkind
        refine hreplacements.append hdefault fun e he f hf k hk htake => ?_
        obtain ⟨r, hr, hle, hlt⟩ := htakes e he k htake
        have := hapart r hr f hf k hk
        omega
      | «variable» => exact hreplacements
      | other => exact hreplacements
    · obtain ⟨_, -, rfl⟩ := List.mem_map.mp he
      exact id

end

theorem lt_of_takes {e : Edit} {k : Nat} (hinside : e.Inside start stop) (htakes : e.Takes k) : k < stop := by
  cases e with
  | overwrite | remove => exact Nat.lt_of_lt_of_le htakes.2 hinside.2
  | _ => exact htakes.elim

theorem usable_next {length start : Nat} {code : List Char} {ss : List Statement}
    (htile : Statement.Tile length start ss) (hlength : length = Text.size code)
    (hu : ∀ s ∈ ss, Text.usable s.start code = true) : ∀ s ∈ ss, Text.usable s.next code = true := by
  induction ss generalizing start with
  | nil => exact List.forall_mem_nil _
  | cons s ss ih =>
    obtain ⟨-, hrest⟩ := htile
    have hu' := (List.forall_mem_cons.mp hu).2
    exact List.forall_mem_cons.mpr ⟨(hlength ▸ hrest).usable hu', ih hrest hu'⟩

theorem standing (hl : m.toModule.LaidOut) (hs : m.toModule.Sited) : ∀ s ∈ m.statements, Standing m.draft.source s :=
  fun s hmem =>
    ⟨hs.source ▸ hs.statements s hmem, hl.contained s hmem, hl.usable s hmem,
      usable_next hl.opening rfl hl.usable s hmem⟩

variable {i : Nat}

/-- A module can be rendered if and only if what its edits hold on to is not in a comment that names a source map. -/
theorem exists_renderModule_iff (hm : g.modules[i]? = some m) (hl : m.toModule.LaidOut) (hs : m.toModule.Sited)
    (es6 : Bool) : (∃ d, g.renderModule i es6 = .ok d) ↔ ∀ s ∈ m.statements, ∀ e ∈ g.statementEdits m es6 s,
      ∀ k ∈ e.holds, ¬Module.InMapComment m.code k := by
  have htile := hl.opening
  have hcompatible := fun s hmem => compatible_statementEdits (standing hl hs s hmem) g m es6
  have hspares : (m.statements.flatMap (g.statementEdits m es6)).Pairwise Edit.Spares := by
    refine List.pairwise_flatMap.mpr ⟨fun s hmem => (hcompatible s hmem).spares, ?_⟩
    refine (htile.apart hl.contained).imp_of_mem fun {s t} hs ht hle e he f hf k hk htakes => ?_
    have hfront : k < s.next := lt_of_takes (inside_statementEdits (hl.contained s hs) e he) htakes
    have hbehind : t.nodeStart ≤ k := ((hcompatible t ht).holds f hf k hk).1
    have := (hl.contained t ht).node
    omega
  have hplaced : ∀ e ∈ m.statements.flatMap (g.statementEdits m es6), e.Placed m.draft.source := by
    intro e he
    obtain ⟨s, hmem, he⟩ := List.mem_flatMap.mp he
    exact (hcompatible s hmem).placed e he
  have hrun : (∃ d, g.renderModule i es6 = .ok d) ↔
      ∃ d, m.draft.revise (m.statements.flatMap (g.statementEdits m es6)) = .ok d := by
    rw [renderModule_revise hm, Draft.revise_flatMap]
    constructor
    · rintro ⟨_, h⟩
      obtain ⟨d, hd, -⟩ := bind_eq_ok.mp h
      exact ⟨d, hd⟩
    · rintro ⟨d, hd⟩
      exact ⟨_, bind_eq_ok.mpr ⟨d, hd, rfl⟩⟩
  rw [hrun, Draft.exists_revise_iff hl.bare.intact hplaced hspares]
  simp only [List.forall_mem_flatMap]
  refine forall₂_congr fun s hmem => forall₂_congr fun e he => forall₂_congr fun k hk => ?_
  obtain ⟨hle, hlt⟩ := (hcompatible s hmem).holds e he k hk
  exact hs.keeps s hmem k hle hlt

theorem Built.sited {modules : List (Module × Table Target)} {externals : List External}
    (hf : Fetched modules externals) (hs : ∀ e ∈ modules, e.1.Sited) (hg : Built modules externals g)
    (hm : g.modules[i]? = some m) : m.toModule.Sited := by
  obtain ⟨l, hlm, e, he, hmodule⟩ := hg.fetched hf hm
  exact (hmodule ▸ hs e he : l.toModule.Sited).relinked hlm

end Graph

end Treeshake
