import Treeshake.Proofs.Graph.Effects
/-!
Liveness in any order. Main statements: where scanning ends, what is included and used is closed, and it is
within all that is closed.
-/
set_option autoImplicit false

namespace Treeshake.Graph

/-- Sets of statements and of declarations that hold all that is live if they hold what makes it live. With a
declaration that is its statement, its aliases, what it stands for as a default export and, for a module as a
whole, all its members. -/
structure Closed (g : Graph) (S : StatementRef → Bool) (D : Nat → Prop) : Prop where
  exports : ∀ name ∈ g.exportNames entry, ∀ id h,
    (traceExport (.inside entry) name entry).run g = .ok (id, h) → h.isInternal id = true → D id
  statement : ∀ (id : Nat) (d : Declaration) (r : StatementRef), g.declarations[id]? = some d →
    D id → d.statement = some r → S r = true
  aliases : ∀ (id k : Nat) (d : Declaration), g.declarations[id]? = some d → D id → k ∈ d.aliases →
    g.isInternal k = true → D k
  underlying : ∀ (id k : Nat) (d : Declaration), g.declarations[id]? = some d → D id →
    d.kind = .defaultValue (some k) → g.isInternal k = true → D k
  members : ∀ (id k : Nat) (d : Declaration) (i : Nat) (members : Table Nat) (asValue : Bool) (name : String),
    g.declarations[id]? = some d → D id → d.kind = .object i members asValue → (name, k) ∈ members →
    g.isInternal k = true → D k
  references : ∀ (r : StatementRef) (s : Statement) (x : Reference) (k : Nat),
    g.statement? r = some s → S r = true → x ∈ s.references → x.binding = .declared k →
    g.isInternal k = true → D k
  effects : ∀ r h, (hasSideEffects r).run (g.withIncluded S) = .ok (true, h) → S r = true

def flagExport (g : Graph) (name : String) (id : Nat) : Graph :=
  ({ g with entryExports := g.entryExports.insert name id }.modifyDeclaration id fun d =>
    { d with exported := true }).useAsValue id

/-- One step of marking, whichever comes next: an export of the entry, any of the declarations that wait,
or any statement that is not included. -/
inductive Scan : Graph × List Nat → Graph × List Nat → Prop where
  | export_ {g h : Graph} {p : List Nat} {name : String} {id : Nat}
      (hname : name ∈ g.exportNames entry)
      (hrun : (traceExport (.inside entry) name entry).run g = .ok (id, h)) :
      Scan (g, p) (h.flagExport name id, id :: p)
  | use {g : Graph} {p q : List Nat} {id : Nat} {d : Declaration} (hd : g.declarations[id]? = some d)
      (hused : d.used = false) (hexternal : d.isExternal = false) :
      Scan (g, p ++ id :: q) (((g.flagUsed id).keepOf d.statement).1,
        needs d ++ ((g.flagUsed id).keepOf d.statement).2 ++ (p ++ q))
  | drop {g : Graph} {p q : List Nat} {id : Nat}
      (hd : ∀ d, g.declarations[id]? = some d → d.used = true ∨ d.isExternal = true) :
      Scan (g, p ++ id :: q) (g, p ++ q)
  | effect {g h : Graph} {p : List Nat} {r : StatementRef} (hr : g.isIncluded r = false)
      (hrun : (hasSideEffects r).run g = .ok (true, h)) : Scan (g, p) ((h.keep r).1, (h.keep r).2 ++ p)
  | idle {g h : Graph} {p : List Nat} {r : StatementRef} (hr : g.isIncluded r = false)
      (hrun : (hasSideEffects r).run g = .ok (false, h)) : Scan (g, p) (h, p)

/-- Nothing is left to scan: the exports of the entry are used, and no statement but the included ones has
effects. -/
structure Settled (g : Graph) : Prop where
  exports : ∀ name ∈ g.exportNames entry, ∃ id,
    (traceExport (.inside entry) name entry).run g = .ok (id, g) ∧
      (g.isInternal id = true → g.isUsed id = true)
  statements : ∀ (r : StatementRef) (s : Statement), g.statement? r = some s → s.included = false →
    (hasSideEffects r).run g = .ok (false, g)

/-- Why a declaration has to be used, if it is no export of the entry. -/
inductive Due (g : Graph) (k : Nat) : Prop where
  | needed (id : Nat) (d : Declaration) (hd : g.declarations[id]? = some d) (hused : d.used = true)
      (hk : k ∈ needs d)
  | referred (r : StatementRef) (s : Statement) (x : Reference) (hs : g.statement? r = some s)
      (hincluded : s.included = true) (hx : x ∈ s.references) (hk : x.declaration? = some k)

def Exports (g : Graph) (k : Nat) : Prop :=
  ∃ name ∈ g.exportNames entry, ∀ h, Later g h →
    (traceExport (.inside entry) name entry).run h = .ok (k, h)

/-- Why a statement has to be included, in the graph before that and the one after. -/
inductive Cause (g h : Graph) (r : StatementRef) : Prop where
  | declares (id : Nat) (d : Declaration) (hd : h.declarations[id]? = some d) (hused : d.used = true)
      (hr : d.statement = some r)
  | effects (k : Graph) (hrun : (hasSideEffects r).run g = .ok (true, k)) (hk : Grown k h)

structure Advances (g : Graph) (p : List Nat) (h : Graph) (q : List Nat) : Prop where
  grown : Grown g h
  used : ∀ (id : Nat) (d : Declaration), h.declarations[id]? = some d → d.used = true →
    g.isUsed id = true ∨ id ∈ p ∧ h.isInternal id = true ∧
      (∀ r, d.statement = some r → h.isIncluded r = true) ∧ ∀ k ∈ needs d, k ∈ q
  included : ∀ (r : StatementRef) (s : Statement), h.statement? r = some s → s.included = true →
    g.isIncluded r = true ∨ Cause g h r ∧
      ∀ x ∈ s.references, ∀ k, x.declaration? = some k → k ∈ q
  waiting : ∀ k ∈ p, k ∈ q ∨ h.isUsed k = true ∨ h.isInternal k = false
  due : ∀ k ∈ q, k ∈ p ∨ Exports h k ∨ Due h k

section
variable {R : List Routes} {n : Nat} {g₀ g h : Graph} {p q : List Nat}

theorem grown_useAsValue (g : Graph) (id : Nat) : Grown g (g.useAsValue id) := by
  rcases useAsValue_cases g id with h | ⟨d, module, members, hd, hkind, h⟩
  · rw [h]
    exact .refl g
  · rw [h]
    have hvalue : Grown g (g.modifyDeclaration id fun d => { d with kind := .object module members true }) := by
      refine grown_modifyDeclaration fun d' hd' => ?_
      obtain rfl := Option.some.inj (hd.symm.trans hd')
      exact ⟨.inr ⟨module, members, hkind, rfl⟩, rfl, rfl, fun hu => hu⟩
    exact hvalue.trans (grown_same rfl rfl rfl fun _ h => h)

theorem grown_flagExport (g : Graph) (name : String) (id : Nat) : Grown g (g.flagExport name id) := by
  have hentry : Grown g { g with entryExports := g.entryExports.insert name id } := grown_same rfl rfl rfl fun _ h => h
  refine (hentry.trans (grown_modifyDeclaration fun d _ => ?_)).trans (grown_useAsValue _ id)
  exact ⟨.inl rfl, rfl, rfl, fun hu => hu⟩

theorem isUsed_modifyDeclaration {id : Nat} {f : Declaration → Declaration}
    (hf : ∀ d, (f d).used = d.used) (k : Nat) : (g.modifyDeclaration id f).isUsed k = g.isUsed k := by
  rw [isUsed, isUsed, modifyDeclaration, getElem?_modify_eq]
  split
  · cases g.declarations[k]? <;> simp [hf]
  · rfl

theorem isUsed_flagExport (g : Graph) (name : String) (id k : Nat) :
    (g.flagExport name id).isUsed k = g.isUsed k := by
  have hmodify : ∀ (l : Graph) (f : Declaration → Declaration), (∀ d, (f d).used = d.used) →
      (l.modifyDeclaration id f).isUsed k = l.isUsed k := fun l f hf => isUsed_modifyDeclaration hf k
  have hexported := hmodify { g with entryExports := g.entryExports.insert name id }
    (fun d => { d with exported := true }) fun _ => rfl
  rw [flagExport]
  rcases useAsValue_cases ({ g with entryExports := g.entryExports.insert name id }.modifyDeclaration id
    fun d => { d with exported := true }) id with h | ⟨d, module, members, -, -, h⟩ <;> rw [h]
  · exact hexported
  · exact (hmodify _ (fun d => { d with kind := .object module members true }) fun _ => rfl).trans hexported

theorem statement?_flagExport (g : Graph) (name : String) (id : Nat) (r : StatementRef) :
    (g.flagExport name id).statement? r = g.statement? r := by
  rw [flagExport]
  rcases useAsValue_cases ({ g with entryExports := g.entryExports.insert name id }.modifyDeclaration id
    fun d => { d with exported := true }) id with h | ⟨d, module, members, -, -, h⟩ <;> rw [h] <;> rfl

theorem advances_export (hR : Ranged R n) (hg : Fits R n g) {name : String} {id : Nat}
    (hname : name ∈ g.exportNames entry)
    (hrun : (traceExport (.inside entry) name entry).run g = .ok (id, h)) :
    Advances g p (h.flagExport name id) (id :: p) := by
  obtain ⟨t, -⟩ := traces_traceExport hR entry name entry g id h hg hrun
  have hflag := grown_flagExport h name id
  have hG := t.grows.trans hflag
  refine ⟨hG, fun k d hd hu => .inl ?_, fun r s hs hi => .inl ?_, fun k hk => .inl ?_, fun k hk => ?_⟩
  · have hused : (h.flagExport name id).isUsed k = true := isUsed_iff.mpr ⟨d, hd, hu⟩
    rw [isUsed_flagExport] at hused
    exact t.isUsed hused
  · rw [statement?_flagExport] at hs
    rw [← t.isIncluded]
    exact isIncluded_iff.mpr ⟨s, hs, hi⟩
  · exact List.mem_cons_of_mem _ hk
  · rcases List.mem_cons.mp hk with rfl | hk
    · refine .inr (.inl ⟨name, ?_, fun l hl => t.again l (hflag.later.trans hl)⟩)
      rwa [exportNames_congr hG.later.routes]
    · exact .inl hk

theorem advances_use (hw : Wired R n g₀) (hG : Grown g₀ g) {id : Nat} {d : Declaration}
    (hd : g.declarations[id]? = some d) (hexternal : d.isExternal = false) :
    Advances g (p ++ id :: q) ((g.flagUsed id).keepOf d.statement).1
      (needs d ++ ((g.flagUsed id).keepOf d.statement).2 ++ (p ++ q)) := by
  have hflag := grown_flagUsed g id
  have hkeep := grown_keepOf (g.flagUsed id) d.statement
  have hnew : ((g.flagUsed id).keepOf d.statement).1.declarations[id]? = some { d with used := true } := by
    rw [declarations_keepOf, flagUsed, modifyDeclaration, getElem?_modify_eq, if_pos rfl, hd]
    rfl
  have hold : ∀ k, k ≠ id → ((g.flagUsed id).keepOf d.statement).1.declarations[k]? = g.declarations[k]? := by
    intro k hk
    rw [declarations_keepOf, flagUsed, modifyDeclaration, getElem?_modify_eq, if_neg (Ne.symm hk)]
  refine ⟨hflag.trans hkeep, fun k e he hu => ?_, fun r s hs hi => ?_, fun k hk => ?_, fun k hk => ?_⟩
  · by_cases hk : k = id
    · subst hk
      obtain rfl := Option.some.inj (hnew.symm.trans he)
      refine .inr ⟨by simp, ?_, fun r hr => ?_, fun k hk => ?_⟩
      · rw [isInternal_eq, hnew]
        exact congrArg (!·) hexternal
      · have hr' : d.statement = some r := hr
        obtain ⟨s, hs⟩ := known_statement hw hG hd hr'
        rw [hr']
        exact isIncluded_keepOf hs
      · exact List.mem_append_left _ (List.mem_append_left _ hk)
    · exact .inl (isUsed_iff.mpr ⟨e, (hold k hk).symm.trans he, hu⟩)
  · rcases included_keepOf hs hi with h | ⟨hr, hrefs⟩
    · exact .inl h
    · refine .inr ⟨.declares id _ hnew rfl hr, fun x hx k hk => ?_⟩
      exact List.mem_append_left _ (List.mem_append_right _ (hrefs x hx k hk))
  · by_cases hid : k = id
    · rw [hid]
      exact .inr (.inl (isUsed_iff.mpr ⟨_, hnew, rfl⟩))
    · refine .inl (List.mem_append_right _ ?_)
      simpa [hid] using hk
  · rcases List.mem_append.mp hk with hk | hk
    · rcases List.mem_append.mp hk with hk | hk
      · exact .inr (.inr (.needed id _ hnew rfl hk))
      · obtain ⟨r, s, x, hs, hi, hx, hxk⟩ := mem_keepOf hk
        exact .inr (.inr (.referred r s x hs hi hx hxk))
    · refine .inl ?_
      rcases List.mem_append.mp hk with hk | hk <;> simp [hk]

theorem advances_drop {id : Nat}
    (hd : ∀ d, g.declarations[id]? = some d → d.used = true ∨ d.isExternal = true) :
    Advances g (p ++ id :: q) g (p ++ q) := by
  refine ⟨.refl g, fun k e he hu => .inl (isUsed_iff.mpr ⟨e, he, hu⟩),
    fun r s hs hi => .inl (isIncluded_iff.mpr ⟨s, hs, hi⟩), fun k hk => ?_, fun k hk => .inl ?_⟩
  · by_cases hid : k = id
    · subst hid
      refine .inr ?_
      rw [isUsed, isInternal_eq]
      cases hget : g.declarations[k]? with
      | none => exact .inr rfl
      | some d => exact (hd d hget).imp (fun hu => hu) fun hx => by simp [hx]
    · exact .inl (by simpa [hid] using hk)
  · rcases List.mem_append.mp hk with hk | hk <;> simp [hk]

theorem advances_effect (hR : Ranged R n) (hg : Fits R n g) {r : StatementRef}
    (hrun : (hasSideEffects r).run g = .ok (true, h)) :
    Advances g p (h.keep r).1 ((h.keep r).2 ++ p) := by
  have t := hasSideEffects_explored hR hg hrun
  have hkeep := grown_keepOf h (some r)
  have hsame : h.keep r = h.keepOf (some r) := rfl
  rw [hsame]
  refine ⟨t.grows.trans hkeep, fun k e he hu => .inl ?_, fun r' s hs hi => ?_,
    fun k hk => .inl (List.mem_append_right _ hk), fun k hk => ?_⟩
  · rw [declarations_keepOf] at he
    exact t.isUsed (isUsed_iff.mpr ⟨e, he, hu⟩)
  · rcases included_keepOf hs hi with h | ⟨hr, hrefs⟩
    · exact .inl ((t.isIncluded r').symm.trans h)
    · obtain rfl := Option.some.inj hr
      refine .inr ⟨.effects h hrun hkeep, fun x hx k hk => ?_⟩
      exact List.mem_append_left _ (hrefs x hx k hk)
  · rcases List.mem_append.mp hk with hk | hk
    · obtain ⟨r', s, x, hs, hi, hx, hxk⟩ := mem_keepOf hk
      exact .inr (.inr (.referred r' s x hs hi hx hxk))
    · exact .inl hk

theorem advances_idle (hR : Ranged R n) (hg : Fits R n g) {r : StatementRef}
    (hrun : (hasSideEffects r).run g = .ok (false, h)) : Advances g p h p := by
  have t := hasSideEffects_explored hR hg hrun
  refine ⟨t.grows, fun k e he hu => .inl (t.isUsed (isUsed_iff.mpr ⟨e, he, hu⟩)),
    fun r s hs hi => .inl ?_, fun k hk => .inl hk, fun k hk => .inl hk⟩
  rw [← t.isIncluded]
  exact isIncluded_iff.mpr ⟨s, hs, hi⟩

theorem Scan.advances {a b : Graph × List Nat} (hR : Ranged R n) (hw : Wired R n g₀) (hG : Grown g₀ a.1)
    (hs : Scan a b) : Advances a.1 a.2 b.1 b.2 := by
  have hg := hG.fits hw.fits
  cases hs with
  | export_ hname hrun => exact advances_export hR hg hname hrun
  | use hd _ hexternal => exact advances_use hw hG hd hexternal
  | drop hd => exact advances_drop hd
  | effect _ hrun => exact advances_effect hR hg hrun
  | idle _ hrun => exact advances_idle hR hg hrun

/-- What is due is used or waits. -/
structure Owing (g : Graph) (p : List Nat) : Prop where
  known : ∀ k ∈ p, ∃ e, g.entity? k = some e
  statement : ∀ (id : Nat) (d : Declaration) (r : StatementRef), g.declarations[id]? = some d →
    d.used = true → d.statement = some r → g.isIncluded r = true
  due : ∀ k, Due g k → g.isInternal k = true → g.isUsed k = true ∨ k ∈ p

theorem Wired.owing (hw : Wired R n g₀) : Owing g₀ [] where
  known k hk := by cases hk
  statement id d r hd hu := by
    rw [hw.unused id d hd] at hu
    cases hu
  due k hk := by
    cases hk with
    | needed id d hd hu =>
      rw [hw.unused id d hd] at hu
      cases hu
    | referred r s x hs hi =>
      rw [hw.unmarked r s hs] at hi
      cases hi

theorem Due.known (hR : Ranged R n) (hw : Wired R n g₀) (hG : Grown g₀ g) {k : Nat} (hk : Due g k) :
    ∃ e, g.entity? k = some e := by
  cases hk with
  | needed id d hd _ hk => exact known_needs hR hw hG hd hk
  | referred r s x hs _ hx hk => exact known_references hw hG hs hx hk

theorem Exports.known (hR : Ranged R n) (hg : Fits R n g) {k : Nat} (hk : Exports g k) :
    ∃ e, g.entity? k = some e := by
  obtain ⟨name, -, hrun⟩ := hk
  obtain ⟨-, e, he, -⟩ := traces_traceExport hR entry name entry g k g hg (hrun g (.refl g))
  exact ⟨e, he⟩

theorem Advances.due_before (ha : Advances g p h q) {k : Nat} (hk : Due h k) : Due g k ∨ k ∈ q := by
  cases hk with
  | needed id d hd hu hk =>
    rcases ha.used id d hd hu with hused | ⟨-, -, -, hneeds⟩
    · obtain ⟨d', hd', hu'⟩ := isUsed_iff.mp hused
      obtain ⟨e, he, hkept⟩ := ha.grown.kept id d' hd'
      obtain rfl := Option.some.inj (hd.symm.trans he)
      exact .inl (.needed id d' hd' hu' (hkept.needs ▸ hk))
    · exact .inr (hneeds k hk)
  | referred r s x hs hi hx hk =>
    rcases ha.included r s hs hi with hincluded | ⟨-, hreferences⟩
    · obtain ⟨s', hs', hi'⟩ := isIncluded_iff.mp hincluded
      obtain ⟨s'', hs'', heq⟩ := ha.grown.statement? hs
      obtain rfl := Option.some.inj (hs'.symm.trans hs'')
      have hreferences : s.references = s'.references := congrArg (·.references) heq
      exact .inl (.referred r s' x hs' hi' (hreferences ▸ hx) hk)
    · exact .inr (hreferences x hx k hk)

theorem Owing.advances (hR : Ranged R n) (hw : Wired R n g₀) (hG : Grown g₀ g) (ho : Owing g p)
    (ha : Advances g p h q) : Owing h q where
  known k hk := by
    have hG' := hG.trans ha.grown
    rcases ha.due k hk with hp | hexport | hdue
    · exact (ho.known k hp).imp fun e he => ha.grown.later.entity k e he
    · exact hexport.known hR (hG'.fits hw.fits)
    · exact hdue.known hR hw hG'
  statement id d r hd hu hr := by
    rcases ha.used id d hd hu with hused | ⟨-, -, hincluded, -⟩
    · obtain ⟨d', hd', hu'⟩ := isUsed_iff.mp hused
      obtain ⟨e, he, hkept⟩ := ha.grown.kept id d' hd'
      obtain rfl := Option.some.inj (hd.symm.trans he)
      exact ha.grown.included r (ho.statement id d' r hd' hu' (hkept.statement ▸ hr))
    · exact hincluded r hr
  due k hk hinternal := by
    rcases ha.due_before hk with hdue | hq
    · obtain ⟨e, he⟩ := hdue.known hR hw hG
      rcases ho.due k hdue (ha.grown.later.isInternal_of_known he hinternal) with hused | hp
      · exact .inl (ha.grown.isUsed hused)
      · rcases ha.waiting k hp with hq | hused | hnot
        · exact .inr hq
        · exact .inl hused
        · rw [hnot] at hinternal
          cases hinternal
    · exact .inr hq

theorem withIncluded_self (g : Graph) : g.withIncluded g.isIncluded = g := by
  have hstatements : ∀ (i : Nat) (m : LinkedModule), g.modules[i]? = some m →
      m.statements.mapIdx (fun j s => { s with included := g.isIncluded ⟨i, j⟩ }) = m.statements := by
    intro i m hm
    refine List.ext_getElem? fun j => ?_
    rw [List.getElem?_mapIdx]
    cases hs : m.statements[j]? with
    | none => rfl
    | some s => simp [isIncluded, statement?, hm, hs]
  have hmodules : (g.withIncluded g.isIncluded).modules = g.modules := by
    refine List.ext_getElem? fun i => ?_
    rw [withIncluded, List.getElem?_mapIdx]
    cases hm : g.modules[i]? with
    | none => rfl
    | some m => simp [hstatements i m hm]
  exact congrArg (fun modules => { g with modules }) hmodules

theorem Closed.needs {S : StatementRef → Bool} {D : Nat → Prop} (hc : Closed g S D) {id k : Nat} {d : Declaration}
    (hd : g.declarations[id]? = some d) (hid : D id) (hk : k ∈ needs d) (hinternal : g.isInternal k = true) :
    D k := by
  rcases mem_needs.mp hk with (halias | hkind) | ⟨i, members, asValue, hkind, hmember⟩
  · exact hc.aliases id k d hd hid halias hinternal
  · exact hc.underlying id k d hd hid (standsFor_eq_some.mp hkind) hinternal
  · obtain ⟨⟨name, k⟩, hentry, rfl⟩ := List.mem_map.mp hmember
    exact hc.members id k d i members asValue name hd hid hkind hentry hinternal

theorem Owing.used (ho : Owing g []) {k : Nat} (hk : Due g k) (hinternal : g.isInternal k = true) :
    g.isUsed k = true :=
  (ho.due k hk hinternal).resolve_right List.not_mem_nil

theorem Owing.needed (ho : Owing g []) {id k : Nat} {d : Declaration} (hd : g.declarations[id]? = some d)
    (hu : g.isUsed id = true) (hk : k ∈ Graph.needs d) (hinternal : g.isInternal k = true) :
    g.isUsed k = true := by
  obtain ⟨d', hd', hu'⟩ := isUsed_iff.mp hu
  obtain rfl := Option.some.inj (hd.symm.trans hd')
  exact ho.used (.needed id d hd hu' hk) hinternal

/-- Where scanning ends, what is included and used is closed. -/
theorem Owing.closed (ho : Owing g []) (hs : Settled g) :
    Closed g g.isIncluded fun id => g.isUsed id = true where
  exports name hname id h hrun hinternal := by
    obtain ⟨id', hrun', hused⟩ := hs.exports name hname
    obtain ⟨rfl, rfl⟩ := Prod.mk.inj (Except.ok.inj (hrun.symm.trans hrun'))
    exact hused hinternal
  statement id d r hd hu hr := by
    obtain ⟨d', hd', hu'⟩ := isUsed_iff.mp hu
    obtain rfl := Option.some.inj (hd.symm.trans hd')
    exact ho.statement id d r hd hu' hr
  aliases id k d hd hu hk := ho.needed hd hu (mem_needs_of_alias hk)
  underlying id k d hd hu hkind := ho.needed hd hu (mem_needs_of_underlying hkind)
  members id k d i members asValue name hd hu hkind hk := ho.needed hd hu (mem_needs_of_member hkind hk)
  references r s x k hs' hi hx hk hinternal := by
    obtain ⟨s', hs'', hi'⟩ := isIncluded_iff.mp hi
    obtain rfl := Option.some.inj (hs'.symm.trans hs'')
    exact ho.used (.referred r s x hs' hi' hx (Reference.declaration?_eq_some.mpr hk)) hinternal
  effects r h hrun := by
    rw [withIncluded_self] at hrun
    cases hs' : g.statement? r with
    | none =>
      rw [hasSideEffects_none hs'] at hrun
      cases hrun
    | some s =>
      cases hi : s.included with
      | true => exact isIncluded_iff.mpr ⟨s, hs', hi⟩
      | false =>
        rw [hs.statements r s hs' hi] at hrun
        cases hrun

/-- What is marked and what waits is within given sets, as a later graph sees it. -/
structure Within (h : Graph) (S : StatementRef → Bool) (D : Nat → Prop) (g : Graph) (p : List Nat) :
    Prop where
  included : ∀ r, g.isIncluded r = true → S r = true
  used : ∀ id, g.isUsed id = true → D id
  waiting : ∀ k ∈ p, h.isInternal k = true → D k

theorem Wired.within (hw : Wired R n g₀) (h : Graph) (S : StatementRef → Bool) (D : Nat → Prop) :
    Within h S D g₀ [] where
  included r hr := by
    obtain ⟨s, hs, hi⟩ := isIncluded_iff.mp hr
    rw [hw.unmarked r s hs] at hi
    cases hi
  used id hid := by
    obtain ⟨d, hd, hu⟩ := isUsed_iff.mp hid
    rw [hw.unused id d hd] at hu
    cases hu
  waiting k hk := by cases hk

theorem Within.advances {k : Graph} {S : StatementRef → Bool} {D : Nat → Prop} (hR : Ranged R n)
    (hg : Fits R n g) (hc : Closed k S D) (hi : Within k S D g p) (ha : Advances g p h q)
    (hk : Grown h k) : Within k S D h q := by
  have hused : ∀ id, h.isUsed id = true → D id := by
    intro id hid
    obtain ⟨d, hd, hu⟩ := isUsed_iff.mp hid
    rcases ha.used id d hd hu with hold | ⟨hp, hinternal, -, -⟩
    · exact hi.used id hold
    · exact hi.waiting id hp (hk.isInternal hinternal)
  have hincluded : ∀ r, h.isIncluded r = true → S r = true := by
    intro r hr
    obtain ⟨s, hs, hi'⟩ := isIncluded_iff.mp hr
    rcases ha.included r s hs hi' with hold | ⟨hcause, -⟩
    · exact hi.included r hold
    · cases hcause with
      | declares id d hd hu hr =>
        obtain ⟨e, he, hkept⟩ := hk.kept id d hd
        exact hc.statement id e r he (hused id (isUsed_iff.mpr ⟨d, hd, hu⟩)) (hkept.statement.trans hr)
      | effects l hrun hl =>
        have t := hasSideEffects_explored hR hg hrun
        have hS : ∀ r, l.isIncluded r = true → S r = true := fun r hr =>
          hi.included r ((t.isIncluded r).symm.trans hr)
        exact hc.effects r _ (hasSideEffects_later hR hg hrun ((hl.trans hk).withIncluded hS) (.inl rfl))
  refine ⟨hincluded, hused, fun j hj hinternal => ?_⟩
  rcases ha.due j hj with hp | ⟨name, hname, hrun⟩ | hdue
  · exact hi.waiting j hp hinternal
  · rw [← exportNames_congr hk.later.routes] at hname
    exact hc.exports name hname j k (hrun k hk.later) hinternal
  · cases hdue with
    | needed id d hd hu hj =>
      obtain ⟨e, he, hkept⟩ := hk.kept id d hd
      exact hc.needs he (hused id (isUsed_iff.mpr ⟨d, hd, hu⟩)) (hkept.needs ▸ hj) hinternal
    | referred r s x hs hi' hx hj =>
      obtain ⟨s', hs', heq⟩ := hk.statement?_later hs
      have hreferences : s'.references = s.references := congrArg (·.references) heq
      exact hc.references r s' x j hs' (hincluded r (isIncluded_iff.mpr ⟨s, hs, hi'⟩)) (hreferences ▸ hx)
        (Reference.declaration?_eq_some.mp hj) hinternal

end

def Scans : Graph × List Nat → Graph × List Nat → Prop := Relation.ReflTransGen Scan

section
variable {R : List Routes} {n : Nat} {g₀ : Graph} {a b : Graph × List Nat} (hR : Ranged R n)
  (hw : Wired R n g₀)
include hR hw

theorem Scans.grown (hG : Grown g₀ a.1) (h : Scans a b) : Grown a.1 b.1 := by
  induction h with
  | refl => exact .refl a.1
  | tail _ hstep ih => exact ih.trans (hstep.advances hR hw (hG.trans ih)).grown

theorem Scans.owing (hG : Grown g₀ a.1) (ho : Owing a.1 a.2) (h : Scans a b) : Owing b.1 b.2 := by
  induction h with
  | refl => exact ho
  | tail hsteps hstep ih =>
    have hG' := hG.trans (Scans.grown hR hw hG hsteps)
    exact ih.advances hR hw hG' (hstep.advances hR hw hG')

theorem Scans.within {S : StatementRef → Bool} {D : Nat → Prop} (hG : Grown g₀ a.1)
    (hc : Closed b.1 S D) (hi : Within b.1 S D a.1 a.2) (h : Scans a b) : Within b.1 S D b.1 b.2 := by
  induction h using Relation.ReflTransGen.head_induction_on with
  | refl => exact hi
  | head hstep hsteps ih =>
    have ha := hstep.advances hR hw hG
    have hG' := hG.trans ha.grown
    exact ih hG' (hi.advances hR (hG.fits hw.fits) hc ha (Scans.grown hR hw hG' hsteps))

end

end Treeshake.Graph
