import Mathlib
import Treeshake.Graph.Names
import Treeshake.Proofs.Graph.Linked
import Treeshake.Proofs.Graph.Reach
/-!
Default exports that stand for one another. Main statement: the name of every declaration is found in finitely many
steps, also where default exports stand for each other in a circle; where they do not, it is the name of the first
declaration on the way that is not replaced by another.
-/
set_option autoImplicit false

namespace Treeshake.Graph

open Relation

/-- A default export stands for a declaration. -/
def Stands (g : Graph) (id k : Nat) : Prop := ∃ d, g.declaration? id = some d ∧ d.standsFor = some k

/-- A default export stands for a declaration that is never assigned to again, and is replaced by it. -/
def Replaced (g : Graph) (id k : Nat) : Prop := g.Stands id k ∧ g.isReassigned k = false

/-- A step of looking for a name: from a default export to what replaces it, unless that was passed already. -/
inductive Seeks (g : Graph) : List Nat × Nat → List Nat × Nat → Prop where
  | step {seen : List Nat} {id k : Nat} (h : g.Replaced id k) (hseen : k ∉ seen) : Seeks g (seen, id) (id :: seen, k)

/-- What a declaration is called itself, whatever it stands for. -/
inductive OwnName (g : Graph) (es6 : Bool) (d : Declaration) : String → Prop where
  | binding (hkind : d.kind = .binding) :
      OwnName g es6 d (if !es6 && d.exported && d.reassigned then "exports." ++ d.name else d.name)
  | value {underlying : Option Nat} (hkind : d.kind = .defaultValue underlying) : OwnName g es6 d d.name
  | object {module : Nat} {members : Table Nat} {asValue : Bool} (hkind : d.kind = .object module members asValue) :
      OwnName g es6 d d.name
  | external {module : Nat} {key : String} {e : External} (hkind : d.kind = .external module key)
      (he : g.externals[module]? = some e) : OwnName g es6 d (externalName e d key es6)

variable {g : Graph} {es6 : Bool} {d : Declaration} {seen : List Nat} {id k last : Nat}

theorem OwnName.unique {name name' : String} (h : g.OwnName es6 d name) (h' : g.OwnName es6 d name') : name = name' := by
  cases h <;> cases h' <;> simp_all

theorem Stands.unique {k' : Nat} (h : g.Stands id k) (h' : g.Stands id k') : k = k' := by
  obtain ⟨d, hd, hk⟩ := h
  obtain ⟨d', hd', hk'⟩ := h'
  obtain rfl := Option.some.inj (hd.symm.trans hd')
  exact Option.some.inj (hk.symm.trans hk')

theorem isReplaced_iff (hd : g.declaration? id = some d) : g.isReplaced d = true ↔ ∃ k, g.Replaced id k := by
  simp only [isReplaced, Option.any_eq_true, Bool.not_eq_true', Replaced, Stands]
  constructor
  · rintro ⟨k, hk, hnot⟩
    exact ⟨k, ⟨d, hd, hk⟩, hnot⟩
  · rintro ⟨k, ⟨d', hd', hk⟩, hnot⟩
    obtain rfl := Option.some.inj (hd.symm.trans hd')
    exact ⟨k, hk, hnot⟩

theorem nameWithin_of_replaced (h : g.Replaced id k) (hseen : k ∉ seen) (fuel : Nat) :
    g.nameWithin es6 (fuel + 1) seen id = g.nameWithin es6 fuel (id :: seen) k := by
  obtain ⟨⟨d, hd, hk⟩, hnot⟩ := h
  rw [Declaration.standsFor] at hk
  split at hk
  · next hkind =>
    subst hk
    rw [nameWithin, hd]
    dsimp only
    rw [hkind]
    simp [hnot, hseen]
  · cases hk

structure Nameable (g : Graph) : Prop where
  stands : ∀ id k, g.Stands id k → ∃ e, g.declaration? k = some e
  external : ∀ id d module key, g.declaration? id = some d → d.kind = .external module key →
    ∃ e, g.externals[module]? = some e

theorem Nameable.ownName (hg : g.Nameable) (hd : g.declaration? id = some d)
    (hend : ∀ k, g.Replaced id k → k ∈ seen) (fuel : Nat) : g.OwnName es6 d (g.nameWithin es6 (fuel + 1) seen id) := by
  rw [nameWithin, hd]
  dsimp only
  cases hkind : d.kind with
  | binding => exact .binding hkind
  | object module members asValue => exact .object hkind
  | external module key =>
    obtain ⟨e, he⟩ := hg.external id d module key hd hkind
    dsimp only
    rw [he]
    exact .external hkind he
  | defaultValue underlying =>
    cases underlying with
    | none => exact .value hkind
    | some k =>
      dsimp only
      split
      · next h =>
        simp only [Bool.and_eq_true, Bool.not_eq_true', List.contains_eq_mem, decide_eq_false_iff_not] at h
        have hstands : g.Stands id k := ⟨d, hd, by rw [Declaration.standsFor, hkind]⟩
        exact absurd (hend k ⟨hstands, h.1⟩) h.2
      · exact .value hkind

structure Fresh (g : Graph) (seen : List Nat) (id : Nat) : Prop where
  nodup : seen.Nodup
  range : ∀ i ∈ seen, i < g.declarations.length
  again : id ∈ seen → g.Stands id id

theorem Fresh.pass (hf : g.Fresh seen id) (h : g.Replaced id k) (hseen : k ∉ seen) : g.Fresh (id :: seen) k := by
  have hnew : id ∉ seen := by
    intro hid
    obtain rfl := (hf.again hid).unique h.1
    exact hseen hid
  have hid : id < g.declarations.length := by
    obtain ⟨d, hd, -⟩ := h.1
    exact (List.getElem?_eq_some_iff.mp hd).1
  refine ⟨List.nodup_cons.mpr ⟨hnew, hf.nodup⟩, ?_, fun hk => ?_⟩
  · rintro i (_ | ⟨_, hi⟩)
    · exact hid
    · exact hf.range i hi
  · rcases List.mem_cons.mp hk with rfl | hk
    · exact h.1
    · exact absurd hk hseen

/-- With more fuel than there are declarations left to pass, a name is found before the fuel ends. -/
theorem exists_end (hg : g.Nameable) (es6 : Bool) (hf : g.Fresh seen id) (hd : g.declaration? id = some d) {fuel : Nat}
    (hfuel : g.declarations.length < fuel + seen.length) :
    ∃ seen' last e, ReflTransGen g.Seeks (seen, id) (seen', last) ∧ (∀ s, ¬g.Seeks (seen', last) s) ∧
      g.declaration? last = some e ∧ g.OwnName es6 e (g.nameWithin es6 fuel seen id) := by
  induction fuel generalizing seen id d with
  | zero =>
    have hle : seen.length ≤ g.declarations.length := length_le_of_forall_lt hf.nodup hf.range
    omega
  | succ fuel ih =>
    by_cases hend : ∃ k, g.Replaced id k ∧ k ∉ seen
    · obtain ⟨k, hk, hseen⟩ := hend
      obtain ⟨e, he⟩ := hg.stands id k hk.1
      obtain ⟨seen', last, e', hway, hlast, he', hname⟩ :=
        ih (hf.pass hk hseen) he (by rw [List.length_cons]; omega)
      refine ⟨seen', last, e', .head (.step hk hseen) hway, hlast, he', ?_⟩
      rwa [nameWithin_of_replaced hk hseen]
    · refine ⟨seen, id, d, .refl, ?_, hd, hg.ownName hd (fun k hk => ?_) fuel⟩
      · rintro s ⟨hk, hseen⟩
        exact hend ⟨_, hk, hseen⟩
      · by_contra hseen
        exact hend ⟨k, hk, hseen⟩

theorem chain_of_seeks (h : ReflTransGen g.Seeks ([], id) (seen, last)) :
    ReflTransGen g.Replaced id last ∧ ∀ i ∈ seen, ReflTransGen g.Stands id i ∧ TransGen g.Stands i last := by
  generalize hs : (seen, last) = s at h
  induction h generalizing seen last with
  | refl =>
    obtain ⟨rfl, rfl⟩ := Prod.mk.inj hs
    exact ⟨.refl, by simp⟩
  | tail _ hstep ih =>
    cases hstep with
    | step hk hseen =>
      obtain ⟨rfl, rfl⟩ := Prod.mk.inj hs
      obtain ⟨hchain, hpassed⟩ := ih rfl
      refine ⟨hchain.tail hk, ?_⟩
      rintro i (_ | ⟨_, hi⟩)
      · exact ⟨ReflTransGen.mono (fun _ _ => And.left) _ _ hchain, .single hk.1⟩
      · exact ⟨(hpassed i hi).1, (hpassed i hi).2.tail hk.1⟩

theorem Linked.nameable (hg : g.Linked) : g.Nameable := by
  obtain ⟨R, n, -, hw⟩ := hg.wired
  refine ⟨fun id k ⟨d, hd, hk⟩ => ?_, fun id d module key hd hkind => ?_⟩
  · obtain ⟨e, he⟩ := hw.named id k d hd (.inr hk)
    obtain ⟨d', hd', -⟩ := Option.map_eq_some_iff.mp he
    exact ⟨d', hd'⟩
  · have hentity : g.entity? id = some (.outside module key) := by
      rw [entity?, show g.declarations[id]? = some d from hd, Option.map_some, Declaration.entity, hkind]
    have hexternal := (hw.fits.sound.external module key id).mpr hentity
    obtain ⟨e, he, -⟩ := Option.bind_eq_some_iff.mp hexternal
    exact ⟨e, he⟩

/-- Looking for the name of a declaration of a linked graph passes default exports up to a last one, and gives what
that is called itself. If the declarations that one stands for after the other close no circle, the last is
the first that is not replaced. -/
theorem default_chains_end (hg : g.Linked) (es6 : Bool) (hd : g.declaration? id = some d) :
    (∃ seen last e, ReflTransGen g.Seeks ([], id) (seen, last) ∧ (∀ s, ¬g.Seeks (seen, last) s) ∧
      g.declaration? last = some e ∧ g.OwnName es6 e (g.renderName id es6)) ∧
    ((∀ k, ReflTransGen g.Stands id k → ¬TransGen g.Stands k k) →
      ∃ last e, ReflTransGen g.Replaced id last ∧ g.declaration? last = some e ∧ g.isReplaced e = false ∧
        g.renderName id es6 = g.renderName last es6) := by
  have hn := hg.nameable
  obtain ⟨seen, last, e, hway, hend, he, hname⟩ := exists_end hn es6 ⟨List.nodup_nil, by simp, by simp⟩ hd
    (Nat.lt_succ_self g.declarations.length)
  refine ⟨⟨seen, last, e, hway, hend, he, hname⟩, fun hacyclic => ?_⟩
  obtain ⟨hchain, hpassed⟩ := chain_of_seeks hway
  -- a replacement of the last declaration was passed, and so would stand on a circle
  have hlast : ∀ k, ¬g.Replaced last k := by
    intro k hk
    have hseen : k ∈ seen := by
      by_contra hseen
      exact hend _ (.step hk hseen)
    obtain ⟨hto, hback⟩ := hpassed k hseen
    exact hacyclic k hto (hback.tail hk.1)
  refine ⟨last, e, hchain, he, ?_, ?_⟩
  · rw [Bool.eq_false_iff, ne_eq, isReplaced_iff he]
    rintro ⟨k, hk⟩
    exact hlast k hk
  · exact hname.unique (hn.ownName he (fun k hk => absurd hk (hlast k)) _)

/-- A chain that ends closes no circle. -/
theorem acyclic_of_ends (h : ReflTransGen g.Stands id last) (hlast : ∀ k, ¬g.Stands last k) :
    ∀ k, ReflTransGen g.Stands id k → ¬TransGen g.Stands k k := by
  induction h using ReflTransGen.head_induction_on with
  | refl =>
    intro k hk hcircle
    rcases hk.cases_head with rfl | ⟨k', hk', -⟩
    · obtain ⟨k', hk', -⟩ := TransGen.head'_iff.mp hcircle
      exact hlast k' hk'
    · exact hlast k' hk'
  | head hstep _ ih =>
    intro k hk hcircle
    rcases hk.cases_head with rfl | ⟨k', hk', hrest⟩
    · obtain ⟨k', hk', hback⟩ := TransGen.head'_iff.mp hcircle
      obtain rfl := hk'.unique hstep
      exact ih _ .refl (.tail' hback hstep)
    · obtain rfl := hk'.unique hstep
      exact ih k hrest hcircle

def passingDefault (id source : String) (other : Nat) : Module × Table Target :=
  (wholeModule id (.exportDefault 15 .expression) [{ name := "x", start := 15, stop := 16, scope := 0 }]
    [("x", ⟨source, "default", 0⟩)] [("default", ⟨"default", some "x", 0⟩)] [⟨"default", "d" ++ id, some 0⟩],
    [(source, .inside other)])

def passingDefaults : List (Module × Table Target) :=
  [passingDefault "0" "./1" 1, passingDefault "1" "./2" 2,
    (wholeModule "2" (.exportDefault 15 .declaration) [] [] [("default", ⟨"default", some "a", 0⟩)]
      [⟨"a", "a", some 0⟩, ⟨"default", "d2", some 0⟩], []),
    passingDefault "3" "./4" 4, passingDefault "4" "./3" 3]

theorem fetched_passingDefaults : Fetched passingDefaults [] := by
  refine .of_inside (fun e he => ?_) ?_
  · simp only [passingDefaults, List.mem_cons, List.not_mem_nil, or_false] at he
    rcases he with rfl | rfl | rfl | rfl | rfl <;>
      refine ⟨?_, ?_, ?_⟩ <;> simp [passingDefault, wholeModule]
  · simp [passingDefaults, passingDefault, wholeModule, Table.values]

theorem default_chains_end_passed_on : ∃ g : Graph, g.Linked ∧ g.Stands 4 5 ∧ g.Stands 5 4 ∧
    (∃ seen last e, ReflTransGen g.Seeks ([], 4) (seen, last) ∧ (∀ s, ¬g.Seeks (seen, last) s) ∧
      g.declaration? last = some e ∧ g.OwnName true e (g.renderName 4 true)) ∧
    ∃ last e, ReflTransGen g.Replaced 0 last ∧ g.declaration? last = some e ∧ g.isReplaced e = false ∧
      g.renderName 0 true = g.renderName last true := by
  have hrun : (bind.run (ofModules passingDefaults [])).toOption.map (fun p =>
      p.2.declarations.map (·.standsFor)) = some [some 1, some 3, none, some 2, some 5, some 4] := by
    cbv
  obtain ⟨⟨stats, g⟩, hbind, hvalue⟩ := Option.map_eq_some_iff.mp hrun
  have hg : g.Linked := ⟨_, _, stats, fetched_passingDefaults, ok_of_toOption hbind⟩
  have hdeclared : ∀ id o, [some 1, some 3, none, some 2, some 5, some 4][id]? = some o →
      ∃ d, g.declaration? id = some d ∧ d.standsFor = o := by
    intro id o h
    dsimp only at hvalue
    rw [← hvalue, List.getElem?_map] at h
    exact Option.map_eq_some_iff.mp h
  have hstands : ∀ id k, [some 1, some 3, none, some 2, some 5, some 4][id]? = some (some k) → g.Stands id k :=
    fun id k h => hdeclared id _ h
  have hends : ∀ k, ¬g.Stands 2 k := by
    rintro k ⟨d, hd, hk⟩
    obtain ⟨d', hd', hnone⟩ := hdeclared 2 none rfl
    obtain rfl := Option.some.inj (hd.symm.trans hd')
    cases hk.symm.trans hnone
  have hway : ReflTransGen g.Stands 0 2 := ((ReflTransGen.single (hstands 0 1 rfl)).tail (hstands 1 3 rfl)).tail
    (hstands 3 2 rfl)
  obtain ⟨first, hfirst, -⟩ := hdeclared 0 _ rfl
  obtain ⟨circular, hcircular, -⟩ := hdeclared 4 _ rfl
  exact ⟨g, hg, hstands 4 5 rfl, hstands 5 4 rfl, (default_chains_end hg true hcircular).1,
    (default_chains_end hg true hfirst).2 (acyclic_of_ends hway hends)⟩

end Treeshake.Graph
