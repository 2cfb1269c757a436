import Treeshake.Proofs.Graph.Exports
/-!
The search for an export. Main statement: the search for a name ends as following what some module has for the
name does, or at the name of an external module, or with nothing. To an external module it comes only after all
modules that star exports lead to from where it is passed on, other than through modules on the way there. So an
export that a module does not have is a name of an external module or missing.
-/
set_option autoImplicit false

namespace Treeshake

/-- Where a name leads: to a declaration, or to a name of a target, with a star to the target as a whole. -/
inductive Lead where
  | declaration (id : Nat)
  | target (t : Target) (name : String)

def Routes.binding? (m : Routes) (name : String) : Option Lead :=
  match m.declarations.get? name, m.imports.get? name with
  | some id, _ => some (.declaration id)
  | none, some s => (m.targets.get? s.source).map (.target · s.name)
  | none, none => none

def Routes.lead? (m : Routes) (name : String) : Option Lead :=
  match m.reexports.get? name, m.exports.get? name with
  | some r, _ => (m.targets.get? r.source).map (.target · r.localName)
  | none, some e => m.binding? e.localName
  | none, none => none

theorem Routes.lead?_of_notMem_own {m : Routes} {name : String} (h : name ∉ m.own) : m.lead? name = none := by
  obtain ⟨hreexports, hexports⟩ := m.get?_of_notMem_own h
  rw [lead?, hreexports, hexports]

theorem Routes.notMem_own {m : Routes} {name : String} (hr : m.reexports.get? name = none)
    (he : m.exports.get? name = none) : name ∉ m.own := by
  intro hown
  rcases List.mem_append.mp hown with hmem | hmem
  · obtain ⟨e, hsome⟩ := Table.mem_keys_iff.mp hmem
    cases he.symm.trans hsome
  · obtain ⟨r, hsome⟩ := Table.mem_keys_iff.mp hmem
    cases hr.symm.trans hsome

def Lead.within (fuel importer : Nat) : Lead → Build Nat
  | .declaration id => return id
  | .target t name => Graph.followWithin fuel t name importer

def Lead.follow (lead : Lead) (importer : Nat) : Build Nat := do
  lead.within (← get).traceBound importer

namespace Graph

open Relation (ReflTransGen)

/-- A module exports a name itself, and its tables lead somewhere from there. -/
def Answers (R : List Routes) (i : Nat) (name : String) : Prop :=
  ∃ m lead, R[i]? = some m ∧ m.lead? name = some lead

def DelegatesOut (R : List Routes) (name : String) (i e : Nat) : Prop :=
  ∃ m, R[i]? = some m ∧ m.reexports.get? name = none ∧ m.exports.get? name = none ∧ name ≠ "default" ∧
    .outside e ∈ m.stars

/-- The star exports that a search for a name follows from a module to another, none of them twice met; the list
has the modules on the way, the last one first. -/
inductive Way (R : List Routes) (name : String) (start : Nat) : List Nat → Nat → Prop
  | start : Way R name start [] start
  | step {path : List Nat} {i k : Nat} (h : Way R name start path i) (hk : Delegates R name i k)
      (hnew : k ∉ i :: path) : Way R name start (i :: path) k

/-- Star exports lead from a module to another without coming to some modules. -/
def Beyond (R : List Routes) (name : String) (path : List Nat) : Nat → Nat → Prop :=
  ReflTransGen fun i k => Delegates R name i k ∧ k ∉ path

/-- A module in which a search finds nothing, and where it visits all that star exports lead to. -/
structure Silent (R : List Routes) (name : String) (v : List Nat) (i : Nat) : Prop where
  answers : ¬Answers R i name
  outside : ∀ e, ¬DelegatesOut R name i e
  inside : ∀ k, Delegates R name i k → k ∈ v

/-- Whatever is visited more is silent. -/
structure Combs (R : List Routes) (name : String) (visited v : List Nat) : Prop where
  kept : visited ⊆ v
  silent : ∀ i ∈ v, i ∈ visited ∨ Silent R name v i

/-- All that was visited off the way is silent. -/
structure Ready (R : List Routes) (name : String) (path visited : List Nat) : Prop where
  kept : path ⊆ visited
  silent : ∀ i ∈ visited, i ∈ path ∨ Silent R name visited i

/-- How a search ends that has come from `start` and visits what is `due`. -/
inductive Searches (g : Graph) (name : String) (start fuel : Nat) (due : Nat → Prop) (visited : List Nat)
    (x : Build (Option Nat × List Nat)) : Prop
  | endless (h : Endless x g)
  | entry {path v : List Nat} {k f : Nat} {m : Routes} {lead : Lead} (hway : Way g.routes name start path k)
      (hm : g.routes[k]? = some m) (hlead : m.lead? name = some lead) (hf : f ≤ fuel)
      (hrun : x.run g = StateT.run (do return (some (← lead.within f k), v)) g)
  | outside {path v : List Nat} {k e : Nat} (hway : Way g.routes name start path k)
      (he : DelegatesOut g.routes name k e) (hlast : ∀ l, Beyond g.routes name path k l → ¬Answers g.routes l name)
      (hrun : x.run g = StateT.run (do return (some (← externalDeclaration e name), v)) g)
  | nothing {v : List Nat} (hdue : ∀ i, due i → i ∈ v) (hcombs : Combs g.routes name visited v)
      (hrun : x.run g = .ok ((none, v), g))

variable {R : List Routes} {g : Graph} {name : String} {path visited v w : List Nat} {start fuel i k : Nat}

theorem Silent.mono (hs : Silent R name v i) (h : v ⊆ w) : Silent R name w i :=
  ⟨hs.answers, hs.outside, fun k hk => h (hs.inside k hk)⟩

theorem Combs.refl (visited : List Nat) : Combs R name visited visited :=
  ⟨List.Subset.refl _, fun _ hi => .inl hi⟩

theorem Combs.trans (h₁ : Combs R name visited v) (h₂ : Combs R name v w) : Combs R name visited w where
  kept := List.Subset.trans h₁.kept h₂.kept
  silent i hi := by
    rcases h₂.silent i hi with hv | hs
    · exact (h₁.silent i hv).imp_right (·.mono h₂.kept)
    · exact .inr hs

theorem Combs.of_cons (hc : Combs R name (i :: visited) v) (hs : Silent R name v i) : Combs R name visited v where
  kept := List.Subset.trans (List.subset_cons_self i visited) hc.kept
  silent k hk := by
    rcases hc.silent k hk with hmem | hs'
    · rcases List.mem_cons.mp hmem with rfl | hmem
      · exact .inr hs
      · exact .inl hmem
    · exact .inr hs'

theorem Ready.combs (hr : Ready R name path visited) (hc : Combs R name visited v) : Ready R name path v where
  kept := List.Subset.trans hr.kept hc.kept
  silent i hi := by
    rcases hc.silent i hi with hmem | hs
    · exact (hr.silent i hmem).imp_right (·.mono hc.kept)
    · exact .inr hs

theorem Ready.cons (hr : Ready R name path visited) (i : Nat) : Ready R name (i :: path) (i :: visited) where
  kept := List.cons_subset_cons i hr.kept
  silent k hk := by
    rcases List.mem_cons.mp hk with rfl | hk
    · exact .inl List.mem_cons_self
    · exact (hr.silent k hk).imp (List.mem_cons_of_mem i) (·.mono (List.subset_cons_self i visited))

/-- Where all star exports of a module have been visited, what lies beyond it has been too, and is silent. -/
theorem Ready.not_answers (hr : Ready R name (i :: path) v) (hi : ¬Answers R i name)
    (hdue : ∀ k, Delegates R name i k → k ∈ v) (hnew : i ∉ path) {l : Nat} (hl : Beyond R name path i l) :
    ¬Answers R l name := by
  have hmem : l ∈ v ∧ l ∉ path := by
    induction hl with
    | refl => exact ⟨hr.kept List.mem_cons_self, hnew⟩
    | @tail a b _ hstep ih =>
      obtain ⟨hmem, hpath⟩ := ih
      refine ⟨?_, hstep.2⟩
      rcases hr.silent a hmem with ha | hs
      · rcases List.mem_cons.mp ha with rfl | ha
        · exact hdue b hstep.1
        · exact absurd ha hpath
      · exact hs.inside b hstep.1
  rcases hr.silent l hmem.1 with hl | hs
  · rcases List.mem_cons.mp hl with rfl | hl
    · exact hi
    · exact absurd hl hmem.2
  · exact hs.answers

theorem Way.delegates (hway : Way R name start path k) : ReflTransGen (Delegates R name) start k := by
  induction hway with
  | start => exact .refl
  | step _ hk _ ih => exact ih.tail hk

theorem run_bind_congr {α β : Type} {x y : Build α} {f : α → Build β} (h : x.run g = y.run g) :
    (x >>= f).run g = (y >>= f).run g := by
  rw [StateT.run_bind, h, ← StateT.run_bind]

section
variable {due due' : Nat → Prop} {visited' : List Nat} {x y : Build (Option Nat × List Nat)}

theorem Searches.congr (hx : Searches g name start fuel due visited x) (hrun : y.run g = x.run g) :
    Searches g name start fuel due visited y := by
  cases hx with
  | endless h => exact .endless ((Endless.congr hrun).mpr h)
  | entry hway hm hlead hf h => exact .entry hway hm hlead hf (hrun.trans h)
  | outside hway he hlast h => exact .outside hway he hlast (hrun.trans h)
  | nothing hdue hcombs h => exact .nothing hdue hcombs (hrun.trans h)

theorem Searches.mono (hx : Searches g name start fuel due v x) (hcombs : Combs g.routes name visited v)
    (hdue : ∀ w, v ⊆ w → (∀ i, due i → i ∈ w) → ∀ i, due' i → i ∈ w) :
    Searches g name start fuel due' visited x := by
  cases hx with
  | endless h => exact .endless h
  | entry hway hm hlead hf h => exact .entry hway hm hlead hf h
  | outside hway he hlast h => exact .outside hway he hlast h
  | nothing hv hmore h => exact .nothing (hdue _ hmore.kept hv) (hcombs.trans hmore) h

theorem Searches.bind {f : Option Nat × List Nat → Build (Option Nat × List Nat)}
    (hx : Searches g name start fuel due visited x) (hf : ∀ id v, f (some id, v) = return (some id, v))
    (hnone : ∀ v, (∀ i, due i → i ∈ v) → Combs g.routes name visited v →
      Searches g name start fuel due' visited' (f (none, v))) :
    Searches g name start fuel due' visited' (x >>= f) := by
  have hfound : ∀ (found : Build Nat) (v : List Nat), x.run g = StateT.run (do return (some (← found), v)) g →
      (x >>= f).run g = StateT.run (do return (some (← found), v)) g := by
    intro found v h
    rw [run_bind_congr h]
    simp only [bind_assoc, pure_bind, hf]
  cases hx with
  | endless h => exact .endless (h.bind f)
  | entry hway hm hlead hle h => exact .entry hway hm hlead hle (hfound _ _ h)
  | outside hway he hlast h => exact .outside hway he hlast (hfound _ _ h)
  | nothing hdue hcombs h => exact (hnone _ hdue hcombs).congr (run_bind_of_ok h)

end

theorem searches_seek {search : Nat → List Nat → Build (Option Nat × List Nat)} (stars : List Target)
    (hsearch : ∀ i visited, .inside i ∈ stars → Ready g.routes name path visited →
      Searches g name start fuel (· = i) visited (search i visited)) (visited : List Nat)
    (hready : Ready g.routes name path visited) :
    Searches g name start fuel (.inside · ∈ stars) visited (seek search stars visited) := by
  induction stars generalizing visited with
  | nil => exact .nothing nofun (.refl visited) rfl
  | cons t stars ih =>
    have hrest := ih fun i v hi => hsearch i v (List.mem_cons_of_mem t hi)
    cases t with
    | outside e =>
      refine (hrest visited hready).mono (.refl visited) fun w _ hw i hi => ?_
      exact hw i ((List.mem_cons.mp hi).resolve_left nofun)
    | inside j =>
      refine (hsearch j visited List.mem_cons_self hready).bind (fun _ _ => rfl) fun v hdue hcombs => ?_
      refine (hrest v (hready.combs hcombs)).mono hcombs fun w hsub hw i hi => ?_
      rcases List.mem_cons.mp hi with heq | hi
      · exact hsub (hdue i (Target.inside.inj heq))
      · exact hw i hi

theorem traceWithin_lead {m : Routes} (hm : g.routes[i]? = some m) (fuel : Nat) (name : String) :
    (traceWithin (fuel + 1) i name).run g = StateT.run (match m.binding? name with
      | none => return none
      | some lead => return some (← lead.within fuel i) : Build (Option Nat)) g := by
  rw [traceWithin_eq, hm, Routes.binding?]
  dsimp only
  cases m.declarations.get? name with
  | some id => rfl
  | none =>
    cases m.imports.get? name with
    | none => rfl
    | some s =>
      dsimp only
      cases m.targets.get? s.source with
      | none => rfl
      | some t => rfl

theorem findExportWithin_own {m : Routes} (hm : g.routes[i]? = some m) (hown : name ∈ m.own) (hnew : i ∉ visited)
    (fuel : Nat) : Endless (findExportWithin (fuel + 1) i name visited) g ∨
      ∃ f ≤ fuel, (findExportWithin (fuel + 1) i name visited).run g = StateT.run (match m.lead? name with
        | none => return (none, i :: visited)
        | some lead => return (some (← lead.within f i), i :: visited) : Build (Option Nat × List Nat)) g := by
  have hrun := findExportWithin_eq g fuel i name visited
  rw [if_neg (by simpa using hnew), hm] at hrun
  dsimp only at hrun
  rw [Routes.lead?]
  cases hr : m.reexports.get? name with
  | some r =>
    refine .inr ⟨fuel, Nat.le_refl fuel, hrun.trans ?_⟩
    rw [hr]
    dsimp only
    cases m.targets.get? r.source with
    | none => rfl
    | some t => rfl
  | none =>
    cases he : m.exports.get? name with
    | none => exact absurd hown (Routes.notMem_own hr he)
    | some e =>
      rw [hr, he] at hrun
      dsimp only at hrun ⊢
      cases fuel with
      | zero => exact .inl ((Endless.congr hrun).mpr ((endless_zero.1 g i e.localName).bind _))
      | succ f =>
        refine .inr ⟨f, Nat.le_succ f, hrun.trans ?_⟩
        rw [run_bind_congr (traceWithin_lead hm f e.localName)]
        cases m.binding? e.localName with
        | none => rfl
        | some lead => simp only [bind_assoc, pure_bind]

theorem not_answers {m : Routes} (hm : R[i]? = some m) (hlead : m.lead? name = none) : ¬Answers R i name := by
  rintro ⟨m', lead, hm', hsome⟩
  obtain rfl := Option.some.inj (hm.symm.trans hm')
  cases hlead.symm.trans hsome

theorem silent_of_lead {m : Routes} (hm : R[i]? = some m) (hlead : m.lead? name = none)
    (hstars : name ∉ m.own → name ≠ "default" →
      (∀ e, .outside e ∉ m.stars) ∧ ∀ k, .inside k ∈ m.stars → k ∈ v) : Silent R name v i where
  answers := not_answers hm hlead
  outside := by
    rintro e ⟨m', hm', hr, he, hne, hstar⟩
    obtain rfl := Option.some.inj (hm.symm.trans hm')
    exact (hstars (Routes.notMem_own hr he) hne).1 e hstar
  inside := by
    rintro k ⟨m', hm', hr, he, hne, hstar⟩
    obtain rfl := Option.some.inj (hm.symm.trans hm')
    exact (hstars (Routes.notMem_own hr he) hne).2 k hstar

theorem silent_of_none (hm : R[i]? = none) : Silent R name v i := by
  refine ⟨?_, fun e => ?_, fun k => ?_⟩
  · rintro ⟨m, _, hm', -⟩
    cases hm.symm.trans hm'
  · rintro ⟨m, hm', -⟩
    cases hm.symm.trans hm'
  · rintro ⟨m, hm', -⟩
    cases hm.symm.trans hm'

theorem Searches.of_silent {x : Build (Option Nat × List Nat)} (hs : Silent g.routes name (i :: visited) i)
    (hrun : x.run g = .ok ((none, i :: visited), g)) : Searches g name start fuel (· = i) visited x :=
  .nothing (fun _ hk => hk ▸ List.mem_cons_self) (.of_cons (.refl _) hs) hrun

theorem firstOutside?_eq_none {stars : List Target} : firstOutside? stars = none ↔ ∀ e, .outside e ∉ stars := by
  induction stars with
  | nil => simp [firstOutside?]
  | cons t stars ih =>
    cases t with
    | outside e => exact ⟨nofun, fun h => absurd List.mem_cons_self (h e)⟩
    | inside i => simp [firstOutside?, ih]

theorem searches_stars {m : Routes} {search : Nat → List Nat → Build (Option Nat × List Nat)}
    (hready : Ready g.routes name path visited) (hway : Way g.routes name start path i)
    (hm : g.routes[i]? = some m) (hown : name ∉ m.own) (hdefault : name ≠ "default") (hnew : i ∉ visited)
    (hsearch : ∀ k v, Ready g.routes name (i :: path) v → (k ∉ v → Way g.routes name start (i :: path) k) →
      Searches g name start fuel (· = k) v (search k v)) :
    Searches g name start fuel (· = i) visited (do
      match ← seek search m.stars (i :: visited) with
      | (some id, visited) => return (some id, visited)
      | (none, visited) =>
        match firstOutside? m.stars with
        | some external => return (some (← externalDeclaration external name), visited)
        | none => return (none, visited)) := by
  obtain ⟨hr, he⟩ := m.get?_of_notMem_own hown
  have hlead := Routes.lead?_of_notMem_own hown
  have hseek := searches_seek m.stars (fun k v hk hv => hsearch k v hv fun hnew =>
    .step hway ⟨m, hm, hr, he, hdefault, hk⟩ fun hmem => hnew (hv.kept hmem)) (i :: visited) (hready.cons i)
  refine hseek.bind (fun _ _ => rfl) fun v hdue hcombs => ?_
  dsimp only
  cases hout : firstOutside? m.stars with
  | none =>
    have hsilent : Silent g.routes name v i :=
      silent_of_lead hm hlead fun _ _ => ⟨firstOutside?_eq_none.mp hout, hdue⟩
    exact .nothing (fun k hk => hk ▸ hcombs.kept List.mem_cons_self) (hcombs.of_cons hsilent) rfl
  | some e =>
    refine .outside hway ⟨m, hm, hr, he, hdefault, firstOutside?_mem hout⟩ (fun l hl => ?_) rfl
    refine ((hready.cons i).combs hcombs).not_answers (not_answers hm hlead) ?_
      (fun hmem => hnew (hready.kept hmem)) hl
    rintro k ⟨m', hm', -, -, -, hk⟩
    obtain rfl := Option.some.inj (hm.symm.trans hm')
    exact hdue k hk

theorem searches_find {limit fuel : Nat} (hf : fuel ≤ limit) {path visited : List Nat} {i : Nat}
    (hready : Ready g.routes name path visited) (hway : i ∉ visited → Way g.routes name start path i) :
    Searches g name start limit (· = i) visited (findExportWithin fuel i name visited) := by
  -- what is visited and not on the way is done with, so only the way can be met again
  induction fuel generalizing path visited i with
  | zero => exact .endless ((rising_find i name visited).zero g)
  | succ fuel ih =>
    have hrun := findExportWithin_eq g fuel i name visited
    by_cases hv : i ∈ visited
    · rw [if_pos (by simpa using hv)] at hrun
      exact .nothing (fun k hk => hk ▸ hv) (.refl visited) hrun
    · rw [if_neg (by simpa using hv)] at hrun
      cases hm : g.routes[i]? with
      | none =>
        rw [hm] at hrun
        exact .of_silent (silent_of_none hm) hrun
      | some m =>
        by_cases hown : name ∈ m.own
        · rcases findExportWithin_own hm hown hv fuel with hend | ⟨f, hle, hrun⟩
          · exact .endless hend
          · cases hlead : m.lead? name with
            | none =>
              rw [hlead] at hrun
              exact .of_silent (silent_of_lead hm hlead fun hnew => absurd hown hnew) hrun
            | some lead =>
              rw [hlead] at hrun
              exact .entry (hway hv) hm hlead (by omega) hrun
        · obtain ⟨hr, he⟩ := m.get?_of_notMem_own hown
          rw [hm] at hrun
          dsimp only at hrun
          rw [hr, he] at hrun
          dsimp only at hrun
          by_cases hdefault : name = "default"
          · rw [if_pos (by simpa using hdefault)] at hrun
            exact .of_silent (silent_of_lead hm (Routes.lead?_of_notMem_own hown) fun _ hne =>
              absurd hdefault hne) hrun
          · rw [if_neg (by simpa using hdefault)] at hrun
            exact (searches_stars hready (hway hv) hm hown hdefault hv fun k v hr hk =>
              ih (by omega) hr hk).congr hrun

theorem below_lead (lead : Lead) (importer : Nat) {f limit : Nat} (hf : f ≤ limit) :
    Below (lead.within f importer) (lead.within limit importer) := by
  cases lead with
  | declaration id => exact .refl _
  | target t name => exact (rising_follow t name importer).le hf

theorem run_follow (lead : Lead) (importer : Nat) {f : Nat} (hf : f ≤ g.traceBound) :
    Endless (lead.within f importer) g ∨ (lead.follow importer).run g = (lead.within f importer).run g :=
  (below_lead lead importer hf g).imp_right Eq.symm

def Comes (g : Graph) (k : Nat) (name : String) (id : Nat) (h : Graph) : Prop :=
  ∃ m lead, g.routes[k]? = some m ∧ m.lead? name = some lead ∧ (lead.follow k).run g = .ok (id, h)

/-- How looking for an export ends: as what some module has for it does, at an external module, or with nothing
where no module has anything for it. -/
inductive Lookup (g : Graph) (i : Nat) (name : String) (limit : Nat) (x : Build Nat) : Prop
  | endless (h : Endless x g)
  | entry {k f : Nat} {m : Routes} {lead : Lead} (hk : ReflTransGen (Delegates g.routes name) i k)
      (hm : g.routes[k]? = some m) (hlead : m.lead? name = some lead) (hf : f < limit)
      (hrun : x.run g = (lead.within f k).run g)
  | outside {path : List Nat} {k e : Nat} (hway : Way g.routes name i path k) (he : DelegatesOut g.routes name k e)
      (hlast : ∀ l, Beyond g.routes name path k l → ¬Answers g.routes l name)
      (hrun : x.run g = (externalDeclaration e name).run g)
  | missing (hnone : ∀ k, ReflTransGen (Delegates g.routes name) i k →
      ¬Answers g.routes k name ∧ ∀ e, ¬DelegatesOut g.routes name k e) (h : Misses x g)

theorem Combs.reached (hc : Combs R name [] v) (hi : i ∈ v) (hk : ReflTransGen (Delegates R name) i k) :
    Silent R name v k := by
  refine (hc.silent k ?_).resolve_left List.not_mem_nil
  induction hk with
  | refl => exact hi
  | tail _ hstep ih => exact ((hc.silent _ ih).resolve_left List.not_mem_nil).inside _ hstep

theorem lookup (g : Graph) (i : Nat) (name : String) (fuel importer : Nat) :
    Lookup g i name fuel (exportWithin fuel i name importer) := by
  cases fuel with
  | zero => exact .endless ((rising_export i name importer).zero g)
  | succ fuel =>
    have hready : Ready g.routes name [] [] := ⟨List.Subset.refl _, nofun⟩
    rw [exportWithin]
    have hfound : ∀ (found : Build Nat) (v : List Nat),
        (findExportWithin fuel i name []).run g = StateT.run (do return (some (← found), v)) g →
        StateT.run (do
          match ← findExportWithin fuel i name [] with
          | (some id, _) => return id
          | (none, _) =>
            let g ← get
            throw (.missingExport name (g.moduleId i) (g.moduleId importer))) g = found.run g := by
      intro found v h
      rw [run_bind_congr h]
      simp only [bind_assoc, pure_bind, bind_pure]
    cases searches_find (Nat.le_refl fuel) hready fun _ => .start with
    | endless h => exact .endless (h.bind _)
    | entry hway hm hlead hf h => exact .entry hway.delegates hm hlead (Nat.lt_succ_of_le hf) (hfound _ _ h)
    | outside hway he hlast h => exact .outside hway he hlast (hfound _ _ h)
    | nothing hdue hcombs h =>
      refine .missing (fun k hk => ?_) ⟨_, _, _, run_bind_of_ok h⟩
      have hsilent := hcombs.reached (hdue i rfl) hk
      exact ⟨hsilent.answers, hsilent.outside⟩

section
variable {n : Nat}

theorem passes_of_delegates (h : ReflTransGen (Delegates R name) i k) : ReflTransGen (Passes R) i k := by
  induction h with
  | refl => exact .refl
  | tail _ hstep ih =>
    obtain ⟨m, hm, -, -, -, hk⟩ := hstep
    exact ih.tail ⟨m, hm, hk⟩

theorem delegates_of_passes (hname : name ≠ "default") (h : ReflTransGen (Passes R) i k) :
    ReflTransGen (Delegates R name) i k ∨
      ∃ l m, ReflTransGen (Delegates R name) i l ∧ R[l]? = some m ∧ name ∈ m.own := by
  induction h with
  | refl => exact .inl .refl
  | @tail j k _ hstep ih =>
    refine ih.elim (fun hj => ?_) .inr
    obtain ⟨m, hm, hk⟩ := hstep
    by_cases hown : name ∈ m.own
    · exact .inr ⟨j, m, hj, hm, hown⟩
    · obtain ⟨hr, he⟩ := m.get?_of_notMem_own hown
      exact .inl (hj.tail ⟨m, hm, hr, he, hname, hk⟩)

theorem provides_of_delegates {m : Routes} (hk : ReflTransGen (Delegates R name) i k) (hm : R[k]? = some m)
    (hown : name ∈ m.own) : Provides R i name := by
  refine ⟨k, m, passes_of_delegates hk, hm, hown, fun hname => ?_⟩
  rcases hk.cases_tail with rfl | ⟨j, -, _, _, _, _, hne, _⟩
  · rfl
  · exact absurd hname hne

theorem exists_own_of_passes (hname : name ≠ "default")
    (h : ∃ l m, ReflTransGen (Passes R) i l ∧ R[l]? = some m ∧ name ∈ m.own) :
    ∃ l m, ReflTransGen (Delegates R name) i l ∧ R[l]? = some m ∧ name ∈ m.own := by
  obtain ⟨l, m, hl, hm, hown⟩ := h
  exact (delegates_of_passes hname hl).elim (fun hl => ⟨l, m, hl, hm, hown⟩) id

theorem Provides.exists_own (h : Provides R i name) :
    ∃ k m, ReflTransGen (Delegates R name) i k ∧ R[k]? = some m ∧ name ∈ m.own := by
  obtain ⟨k, m, hk, hm, hown, hdefault⟩ := h
  by_cases hname : name = "default"
  · obtain rfl := hdefault hname
    exact ⟨k, m, .refl, hm, hown⟩
  · exact exists_own_of_passes hname ⟨k, m, hk, hm, hown⟩

theorem ok_externalDeclaration (g : Graph) (e : Nat) (name : String) :
    ∃ id h, (externalDeclaration e name).run g = .ok (id, h) := by
  have hrun := externalDeclaration_eq g e name
  split at hrun
  · exact ⟨_, _, hrun⟩
  · exact ⟨_, _, hrun⟩

theorem export_of_notMem (hR : Ranged R n) (hg : Fits R n g) (hname : ¬Provides R i name) (fuel importer : Nat) :
    Endless (exportWithin fuel i name importer) g ∨
      (LeadsOut R i name ∧ ∃ id h e, (exportWithin fuel i name importer).run g = .ok (id, h) ∧
        h.entity? id = some (.outside e name)) ∨
      ¬LeadsOut R i name ∧ Misses (exportWithin fuel i name importer) g := by
  obtain rfl := hg.routes
  cases lookup g i name fuel importer with
  | endless hend => exact .inl hend
  | entry hk hm hlead =>
    refine absurd (provides_of_delegates hk hm ?_) hname
    by_contra hown
    cases (Routes.lead?_of_notMem_own hown).symm.trans hlead
  | outside hway he _ hrun =>
    obtain ⟨m, hm, -, -, hdefault, hstar⟩ := he
    obtain ⟨s, hs⟩ := hR.stars m (List.mem_of_getElem? hm) _ hstar
    obtain ⟨id, h, hout⟩ := ok_externalDeclaration g _ name
    obtain ⟨-, hid⟩ := traces_externalDeclaration (hR.outside m (List.mem_of_getElem? hm) s _ hs) name g id h hg hout
    exact .inr (.inl ⟨⟨hdefault, _, m, _, passes_of_delegates hway.delegates, hm, hstar⟩, id, h, _,
      hrun.trans hout, hid⟩)
  | missing hnone hmiss =>
    refine .inr (.inr ⟨?_, hmiss⟩)
    rintro ⟨hdefault, k, m, e, hk, hm, he⟩
    have hnever : ∀ l m, ReflTransGen (Delegates g.routes name) i l → g.routes[l]? = some m → name ∉ m.own :=
      fun l m hl hm hown => hname (provides_of_delegates hl hm hown)
    rcases delegates_of_passes hdefault hk with hk | ⟨l, m, hl, hm, hown⟩
    · obtain ⟨hr, hx⟩ := m.get?_of_notMem_own (hnever k m hk hm)
      exact (hnone k hk).2 e ⟨m, hm, hr, hx, hdefault, he⟩
    · exact hnever l m hl hm hown

end

end Graph

end Treeshake
