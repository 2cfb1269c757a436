import Treeshake.Proofs.Graph.Circles
/-!
What a module exports. Main statement: the names that a module exports are its own and those, but for the
default, of all modules that star exports lead to.
-/
set_option autoImplicit false

namespace Treeshake

def Routes.own (m : Routes) : List String := m.exports.keys ++ m.reexports.keys

theorem Routes.get?_of_notMem_own {m : Routes} {name : String} (h : name ∉ m.own) :
    m.reexports.get? name = none ∧ m.exports.get? name = none := by
  obtain ⟨he, hr⟩ := not_or.mp (mt List.mem_append.mpr h)
  rw [Table.mem_keys_iff, not_exists] at he hr
  exact ⟨Option.eq_none_iff_forall_ne_some.mpr hr, Option.eq_none_iff_forall_ne_some.mpr he⟩

namespace Graph

open Relation (ReflTransGen)

def Passes (R : List Routes) (i k : Nat) : Prop := ∃ m, R[i]? = some m ∧ .inside k ∈ m.stars

/-- A module exports a name, itself or through star exports, which pass on no default. -/
def Provides (R : List Routes) (i : Nat) (name : String) : Prop :=
  ∃ k m, ReflTransGen (Passes R) i k ∧ R[k]? = some m ∧ name ∈ m.own ∧ (name = "default" → k = i)

/-- Star exports lead from a module to an external one, with a name that they pass on. -/
def LeadsOut (R : List Routes) (i : Nat) (name : String) : Prop :=
  name ≠ "default" ∧ ∃ k m e, ReflTransGen (Passes R) i k ∧ R[k]? = some m ∧ .outside e ∈ m.stars

variable {R : List Routes} {n : Nat} {g : Graph} {P Q : Routes → Prop} {visited v w : List Nat}

theorem Ranged.star (hR : Ranged R n) {i k : Nat} (h : Passes R i k) : k < R.length := by
  obtain ⟨m, hm, hk⟩ := h
  obtain ⟨s, hs⟩ := hR.stars m (List.mem_of_getElem? hm) _ hk
  exact hR.inside m (List.mem_of_getElem? hm) s k hs

/-- Whatever is visited more has a property, and where its star exports lead is visited too. -/
structure Sweeps (R : List Routes) (P : Routes → Prop) (visited v : List Nat) : Prop where
  kept : visited ⊆ v
  closed : ∀ k ∈ v, k ∈ visited ∨ ∃ m, R[k]? = some m ∧ P m ∧ ∀ j, .inside j ∈ m.stars → j ∈ v

theorem Sweeps.refl (visited : List Nat) : Sweeps R P visited visited :=
  ⟨List.Subset.refl _, fun _ hk => .inl hk⟩

theorem Sweeps.trans (h₁ : Sweeps R P visited v) (h₂ : Sweeps R P v w) : Sweeps R P visited w where
  kept := List.Subset.trans h₁.kept h₂.kept
  closed k hk := by
    rcases h₂.closed k hk with hv | hnew
    · refine (h₁.closed k hv).imp_right ?_
      rintro ⟨m, hm, hP, hstars⟩
      exact ⟨m, hm, hP, fun j hj => h₂.kept (hstars j hj)⟩
    · exact .inr hnew

theorem Sweeps.mono (hs : Sweeps R P visited v) (hPQ : ∀ m, P m → Q m) : Sweeps R Q visited v :=
  ⟨hs.kept, fun k hk => (hs.closed k hk).imp_right fun ⟨m, hm, hP, hstars⟩ => ⟨m, hm, hPQ m hP, hstars⟩⟩

theorem Sweeps.of_cons {i : Nat} {m : Routes} (hs : Sweeps R P (i :: visited) v) (hm : R[i]? = some m)
    (hP : P m) (hstars : ∀ j, .inside j ∈ m.stars → j ∈ v) : Sweeps R P visited v where
  kept := List.Subset.trans (List.subset_cons_self i visited) hs.kept
  closed k hk := by
    rcases hs.closed k hk with hmem | hnew
    · rcases List.mem_cons.mp hmem with rfl | hmem
      · exact .inr ⟨m, hm, hP, hstars⟩
      · exact .inl hmem
    · exact .inr hnew

theorem Sweeps.reached (hs : Sweeps R P [] v) {i k : Nat} (hi : i ∈ v) (hk : ReflTransGen (Passes R) i k) :
    ∃ m, R[k]? = some m ∧ P m := by
  have hmem : k ∈ v := by
    induction hk with
    | refl => exact hi
    | tail _ hstep ih =>
      obtain ⟨m, hm, hj⟩ := hstep
      obtain ⟨m', hm', -, hstars⟩ := (hs.closed _ ih).resolve_left List.not_mem_nil
      obtain rfl := Option.some.inj (hm.symm.trans hm')
      exact hstars _ hj
  obtain ⟨m, hm, hP, -⟩ := (hs.closed k hmem).resolve_left List.not_mem_nil
  exact ⟨m, hm, hP⟩

/-- What collecting the exports of a module makes of what was collected before. -/
structure Collects (R : List Routes) (i : Nat) (withDefault : Bool) (before after : List Nat × List String) :
    Prop where
  names : before.2 ⊆ after.2
  reached : i ∈ after.1
  itself : i ∉ before.1 → ∀ m, R[i]? = some m → ∀ name ∈ m.own,
    (name = "default" → withDefault = true) → name ∈ after.2
  sweeps : Sweeps R (fun m => ∀ name ∈ m.own, name ≠ "default" → name ∈ after.2) before.1 after.1
  exported : ∀ name ∈ after.2, name ∈ before.2 ∨ ∃ k m, ReflTransGen (Passes R) i k ∧ R[k]? = some m ∧
    name ∈ m.own ∧ (name = "default" → withDefault = true ∧ k = i)

structure CollectsAll (R : List Routes) (i : Nat) (stars : List Target)
    (before after : List Nat × List String) : Prop where
  names : before.2 ⊆ after.2
  reached : ∀ j, .inside j ∈ stars → j ∈ after.1
  sweeps : Sweeps R (fun m => ∀ name ∈ m.own, name ≠ "default" → name ∈ after.2) before.1 after.1
  exported : ∀ name ∈ after.2, name ∈ before.2 ∨ ∃ k m, ReflTransGen (Passes R) i k ∧ R[k]? = some m ∧
    name ∈ m.own ∧ name ≠ "default"

theorem unvisited_le (hsub : visited ⊆ v) : unvisited R v ≤ unvisited R visited := by
  refine List.countP_mono_left fun k _ hk => ?_
  simp only [Bool.not_eq_true', List.contains_eq_mem, decide_eq_false_iff_not] at hk ⊢
  exact fun hv => hk (hsub hv)

theorem collectsAll (collect : Nat → List Nat × List String → List Nat × List String) {i fuel : Nat}
    {m : Routes} (hm : R[i]? = some m) (hcollect : ∀ j before, j < R.length → unvisited R before.1 < fuel →
      Collects R j false before (collect j before)) (hrange : ∀ j, .inside j ∈ m.stars → j < R.length)
    {stars : List Target} (hstars : stars ⊆ m.stars) (before : List Nat × List String)
    (hfuel : unvisited R before.1 < fuel) :
    CollectsAll R i stars before (stars.foldl (fun found star =>
      match star with
      | .inside other => collect other found
      | .outside _ => found) before) := by
  induction stars generalizing before with
  | nil => exact ⟨List.Subset.refl _, nofun, .refl _, fun _ h => .inl h⟩
  | cons t stars ih =>
    obtain ⟨ht, hsub⟩ := List.cons_subset.mp hstars
    rw [List.foldl_cons]
    cases t with
    | outside e =>
      have hrest := ih hsub before hfuel
      exact ⟨hrest.names, fun j hj => hrest.reached j ((List.mem_cons.mp hj).resolve_left nofun),
        hrest.sweeps, hrest.exported⟩
    | inside j =>
      have hfirst := hcollect j before (hrange j ht) hfuel
      have hrest := ih hsub _ (Nat.lt_of_le_of_lt (unvisited_le hfirst.sweeps.kept) hfuel)
      refine ⟨List.Subset.trans hfirst.names hrest.names, fun k hk => ?_, ?_, fun name hname => ?_⟩
      · rcases List.mem_cons.mp hk with heq | hk
        · obtain rfl := Target.inside.inj heq
          exact hrest.sweeps.kept hfirst.reached
        · exact hrest.reached k hk
      · exact (hfirst.sweeps.mono fun m hm name hown hne => hrest.names (hm name hown hne)).trans hrest.sweeps
      · rcases hrest.exported name hname with hname | hnew
        · rcases hfirst.exported name hname with hname | ⟨k, m', hk, hm', hown, hdefault⟩
          · exact .inl hname
          · refine .inr ⟨k, m', hk.head ⟨m, hm, ht⟩, hm', hown, fun heq => ?_⟩
            cases (hdefault heq).1
        · exact .inr hnew

theorem collects (hR : Ranged R n) (hg : g.routes = R) {fuel i : Nat} (hi : i < R.length)
    {withDefault : Bool} {before : List Nat × List String} (hfuel : unvisited R before.1 < fuel) :
    Collects R i withDefault before (g.collectExports fuel i withDefault before) := by
  induction fuel generalizing i withDefault before with
  | zero => cases hfuel
  | succ fuel ih =>
    obtain ⟨visited, names⟩ := before
    unfold collectExports
    split
    · next hseen =>
      have hmem : i ∈ visited := by simpa using hseen
      exact ⟨List.Subset.refl _, hmem, fun h => absurd hmem h, .refl _, fun _ h => .inl h⟩
    · next hnew =>
      have hnew : i ∉ visited := by simpa using hnew
      obtain ⟨m, hmodule⟩ : ∃ m, g.modules[i]? = some m :=
        ⟨_, List.getElem?_eq_getElem (length_routes g ▸ hg ▸ hi)⟩
      have hm : R[i]? = some m.routes := by rw [← hg, getElem?_routes, hmodule, Option.map_some]
      rw [hmodule]
      dsimp only
      have hless : unvisited R (i :: visited) < fuel :=
        Nat.lt_of_lt_of_le (unvisited_lt hi hnew (List.Subset.refl _)) (Nat.le_of_lt_succ hfuel)
      have hall := collectsAll (fun j found => g.collectExports fuel j false found) hm
        (fun j before hj hf => ih hj hf) (fun j hj => hR.star ⟨_, hm, hj⟩) (List.Subset.refl _)
        (i :: visited, (m.routes.own.filter fun n => withDefault || n != "default").foldl
          (fun names n => addNew n names) names) hless
      have hitself : ∀ name ∈ m.routes.own, (name = "default" → withDefault = true) → name ∈ _ :=
        fun name hown hdefault => hall.names (mem_foldl_addNew.mpr (.inl (List.mem_filter.mpr
          ⟨hown, by by_cases heq : name = "default" <;> simp [heq, hdefault]⟩)))
      refine ⟨fun name hname => hall.names (mem_foldl_addNew.mpr (.inr hname)), hall.sweeps.kept List.mem_cons_self,
        fun _ m' hm' => ?_, hall.sweeps.of_cons hm (fun name hown hne => hitself name hown fun heq => absurd heq hne)
          hall.reached, fun name hname => ?_⟩
      · obtain rfl := Option.some.inj (hm.symm.trans hm')
        exact hitself
      · rcases hall.exported name hname with hname | ⟨k, m', hk, hm', hown, hne⟩
        · refine (mem_foldl_addNew.mp hname).symm.imp_right fun hown => ?_
          obtain ⟨hown, hdefault⟩ := List.mem_filter.mp hown
          exact ⟨i, _, .refl, hm, hown, fun heq => ⟨by simpa [heq] using hdefault, rfl⟩⟩
        · exact .inr ⟨k, m', hk, hm', hown, fun heq => absurd heq hne⟩

theorem mem_exportNames (hR : Ranged R n) (hg : g.routes = R) {i : Nat} (hi : i < R.length) (name : String) :
    name ∈ g.exportNames i ↔ Provides R i name := by
  have hfuel : unvisited R [] < g.modules.length + 1 := by
    have hle := countP_range_le (fun k => !([] : List Nat).contains k) R.length
    rw [← length_routes, hg]
    exact Nat.lt_succ_of_le hle
  have hall : Collects R i true ([], []) (g.collectExports (g.modules.length + 1) i true ([], [])) :=
    collects hR hg hi hfuel
  constructor
  · intro hname
    obtain ⟨k, m, hk, hm, hown, hdefault⟩ := (hall.exported name hname).resolve_left List.not_mem_nil
    exact ⟨k, m, hk, hm, hown, fun heq => (hdefault heq).2⟩
  · rintro ⟨k, m, hk, hm, hown, hdefault⟩
    by_cases heq : name = "default"
    · obtain rfl := hdefault heq
      exact hall.itself List.not_mem_nil m hm name hown fun _ => rfl
    · obtain ⟨m', hm', hnames⟩ := hall.sweeps.reached hall.reached hk
      obtain rfl := Option.some.inj (hm.symm.trans hm')
      exact hnames name hown heq

end Graph

end Treeshake
