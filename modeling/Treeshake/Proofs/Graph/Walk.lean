import Treeshake.Proofs.Graph.Reach
/-!
The depth-first walk. Main statements: a walk leaves every module once; if no import led back to the way,
each behind all it depends on; in any case behind what does not come to depend on it, and a module off all
circles behind all it comes to depend on; and what it says a module leads to is what follows from the lists of what
modules read, as far as these went when the module was left.
-/
set_option autoImplicit false

namespace Treeshake.Graph

open Relation

def Reads (g : Graph) (i j : Nat) : Prop := j ∈ (g.dependencies i).strong

def Imports (g : Graph) (i j : Nat) : Prop := j ∈ (g.dependencies i).weak

def Depends (g : Graph) (i j : Nat) : Prop := g.Reads i j ∨ g.Imports i j

/-- A module is left behind another in spite of circles: what it depends on does not come back to it, or no
circle leads through it at all. -/
def Trails (g : Graph) (i j : Nat) : Prop :=
  (g.Depends i j ∧ ¬TransGen g.Depends j i) ∨ (TransGen g.Depends i j ∧ ¬TransGen g.Depends i i)

def Sorted (r : Nat → Nat → Prop) (l : List Nat) : Prop :=
  ∀ before i after, l = before ++ i :: after → ∀ j, r i j → j ∈ before

theorem Sorted.concat {r : Nat → Nat → Prop} {l : List Nat} {i : Nat} (hl : Sorted r l)
    (hi : ∀ j, r i j → j ∈ l) : Sorted r (l ++ [i]) := by
  intro before k after heq j hj
  rcases concat_split heq with ⟨rfl, rfl, -⟩ | ⟨after, -, rfl⟩
  · exact hi j hj
  · exact hl before k after rfl j hj

theorem Sorted.idxOf_lt {r : Nat → Nat → Prop} {l : List Nat} {i j : Nat} (hl : Sorted r l)
    (hn : l.Nodup) (hi : i ∈ l) (hj : r i j) : l.idxOf j < l.idxOf i := by
  obtain ⟨before, after, rfl⟩ := List.append_of_mem hi
  have hbefore := hl before i after rfl j hj
  have hnot : i ∉ before := fun h =>
    (List.nodup_append.mp hn).2.2 i h i List.mem_cons_self rfl
  rw [List.idxOf_append_of_mem hbefore, List.idxOf_append_of_notMem hnot]
  have := List.idxOf_lt_length_of_mem hbefore
  omega

variable {g : Graph}

/-- What a module is said to lead to when some modules are left: what follows from the lists of what modules read,
which are complete for those left and have only begun for others. What is read and not left leads back to it. -/
structure Gathered (g : Graph) (left : List Nat) (i : Nat) (leads : Nat → Bool) : Prop where
  lists : ∃ read : Nat → List Nat, (∀ a, read a <+: (g.dependencies a).strong) ∧
    (∀ a ∈ left, read a = (g.dependencies a).strong) ∧ ∀ j, leads j = true ↔ TransGen (fun a b => b ∈ read a) i j
  back : ∀ a ∈ left, ∀ b, g.Reads a b → b ∈ left ∨ TransGen g.Depends b i

/-- What holds all along a walk. -/
structure Walk.Sane (g : Graph) (w : Walk) : Prop where
  seen : ∀ i, i ∈ w.seen ↔ i ∈ w.done ∨ i ∈ w.path
  nodup : (w.path ++ w.done).Nodup
  range : ∀ i ∈ w.seen, i < g.modules.length
  length : w.strong.length = g.modules.length
  length_closure : w.closure.length = g.modules.length
  read : ∀ i ∈ w.done, w.strongOf i = (g.dependencies i).strong
  begun : ∀ i, w.strongOf i <+: (g.dependencies i).strong
  unread : ∀ i, i ∉ w.seen → w.strongOf i = []
  leads : ∀ i j, w.leadsTo i j = true → TransGen g.Reads i j
  gathered : ∀ before i after, w.done = before ++ i :: after → Gathered g (before ++ [i]) i (w.leadsTo i)
  closed : ∀ i ∈ w.done, ∀ j, g.Depends i j → j ∈ w.done ∨ j ∈ w.path
  trails : Sorted g.Trails w.done
  sorted : w.cyclic = false → Sorted g.Depends w.done
  circle : w.cyclic = true → ∃ i, TransGen g.Depends i i

/-- What a part of a walk keeps, with what some modules have read. -/
structure Walk.Extends (g : Graph) (modules : List Nat) (w w' : Walk) : Prop where
  sane : w'.Sane g
  path : w'.path = w.path
  seen : ∀ i ∈ w.seen, i ∈ w'.seen
  done : ∀ i ∈ w.done, i ∈ w'.done
  kept : ∀ i ∈ modules, w'.strongOf i = w.strongOf i
  cyclic : w.cyclic = true → w'.cyclic = true

namespace Walk
variable {w w' w'' : Walk}

theorem Extends.refl (hw : w.Sane g) (modules : List Nat) : Extends g modules w w :=
  ⟨hw, rfl, fun _ h => h, fun _ h => h, fun _ _ => rfl, fun h => h⟩

theorem Extends.trans {modules : List Nat} (h₁ : Extends g modules w w') (h₂ : Extends g modules w' w'') :
    Extends g modules w w'' where
  sane := h₂.sane
  path := h₂.path.trans h₁.path
  seen i hi := h₂.seen i (h₁.seen i hi)
  done i hi := h₂.done i (h₁.done i hi)
  kept i hi := (h₂.kept i hi).trans (h₁.kept i hi)
  cyclic h := h₂.cyclic (h₁.cyclic h)

theorem Extends.mono {modules modules' : List Nat} (h : Extends g modules w w')
    (hsub : ∀ i ∈ modules', i ∈ modules) : Extends g modules' w w' :=
  ⟨h.sane, h.path, h.seen, h.done, fun i hi => h.kept i (hsub i hi), h.cyclic⟩

theorem Sane.reads (hw : w.Sane g) (i j : Nat) (hj : j ∈ w.strongOf i) : g.Reads i j := (hw.begun i).subset hj

theorem Sane.length_path (hw : w.Sane g) : w.path.length ≤ g.modules.length :=
  length_le_of_forall_lt (List.nodup_append.mp hw.nodup).1 fun i hi => hw.range i ((hw.seen i).mpr (.inr hi))

/-- A module that was left, or that is still on the way and closes a circle. -/
def Met (w : Walk) (i : Nat) : Prop := i ∈ w.done ∨ (i ∈ w.path ∧ w.cyclic = true)

theorem Extends.met {modules : List Nat} {i : Nat} (h : Extends g modules w w') (hi : w.Met i) : w'.Met i :=
  hi.imp (h.done i) fun ⟨hpath, hc⟩ => ⟨h.path ▸ hpath, h.cyclic hc⟩

def enter (w : Walk) (module : Nat) : Walk :=
  { w with seen := module :: w.seen, path := module :: w.path }

theorem sane_enter {module : Nat} (hw : w.Sane g) (hm : module < g.modules.length)
    (hseen : module ∉ w.seen) : (w.enter module).Sane g := by
  have hnot := fun h => hseen ((hw.seen module).mpr h)
  refine ⟨fun i => ?_, ?_, fun i hi => ?_, hw.length, hw.length_closure, hw.read, hw.begun, fun i hi => ?_, hw.leads,
    hw.gathered, fun i hi j hj => ?_, hw.trails, hw.sorted, hw.circle⟩
  · simp only [enter, List.mem_cons, hw.seen, or_left_comm]
  · refine List.nodup_cons.mpr ⟨fun h => hnot ?_, hw.nodup⟩
    exact (List.mem_append.mp h).symm
  · rcases List.mem_cons.mp hi with rfl | hi
    · exact hm
    · exact hw.range i hi
  · exact hw.unread i fun h => hi (List.mem_cons_of_mem _ h)
  · exact (hw.closed i hi j hj).imp_right (List.mem_cons_of_mem _)

theorem strongOf_addStrong {module i k : Nat} (hm : module < w.strong.length) :
    (w.addStrong module i).strongOf k = if module = k then w.strongOf k ++ [i] else w.strongOf k := by
  simp only [strongOf, addStrong, List.getD_eq_getElem?_getD, List.getElem?_modify]
  by_cases hk : module = k
  · subst hk
    simp [List.getElem?_eq_getElem hm]
  · simp [hk]

theorem sane_addStrong {module i : Nat} (hw : w.Sane g) (hm : module ∈ w.path)
    (hr : w.strongOf module ++ [i] <+: (g.dependencies module).strong) : (w.addStrong module i).Sane g := by
  have hseen := (hw.seen module).mpr (.inr hm)
  have hlength : module < w.strong.length := hw.length ▸ hw.range module hseen
  have hdone : module ∉ w.done := fun h =>
    (List.nodup_append.mp hw.nodup).2.2 module hm module h rfl
  refine ⟨hw.seen, hw.nodup, hw.range, ?_, hw.length_closure, fun k hk => ?_, fun k => ?_, fun k hk => ?_, hw.leads,
    hw.gathered, hw.closed, hw.trails, hw.sorted, hw.circle⟩
  · simpa [addStrong] using hw.length
  · have hne : module ≠ k := fun h => hdone (h ▸ hk)
    rw [strongOf_addStrong hlength, if_neg hne]
    exact hw.read k hk
  · rw [strongOf_addStrong hlength]
    split
    · next h => exact h ▸ hr
    · exact hw.begun k
  · have hne : module ≠ k := fun h => hk (h ▸ hseen)
    rw [strongOf_addStrong hlength, if_neg hne]
    exact hw.unread k hk

theorem sane_cyclic (hw : w.Sane g) (hc : ∃ i, TransGen g.Depends i i) :
    Sane g { w with cyclic := true } :=
  ⟨hw.seen, hw.nodup, hw.range, hw.length, hw.length_closure, hw.read, hw.begun, hw.unread, hw.leads, hw.gathered,
    hw.closed, hw.trails, fun h => (by cases h), fun _ => hc⟩

theorem Sane.trails_done {module : Nat} {rest : List Nat} (hw : w.Sane g) (hpath : w.path = module :: rest)
    (htoward : ∀ i ∈ rest, TransGen g.Depends i module) (hmet : ∀ i, g.Depends module i → w.Met i)
    {j : Nat} (hj : g.Trails module j) : j ∈ w.done := by
  have hback : ∀ i ∈ w.path, i = module ∨ TransGen g.Depends i module := by
    rw [hpath]
    exact fun i hi => (List.mem_cons.mp hi).imp_right (htoward i)
  rcases hj with ⟨hj, hnot⟩ | ⟨hj, hnot⟩
  · rcases hmet j hj with h | ⟨h, -⟩
    · exact h
    · rcases hback j h with rfl | h
      · exact absurd (.single hj) hnot
      · exact absurd h hnot
  · -- what is on the way leads back to the module, so a way from it never leaves what is done
    have hoff : ∀ k, TransGen g.Depends module k → k ∉ w.path := fun k hk hpath =>
      (hback k hpath).elim (fun heq => hnot (heq ▸ hk)) fun h => hnot (hk.trans h)
    induction hj with
    | single hj => exact (hmet _ hj).resolve_right fun h => hoff _ (.single hj) h.1
    | tail hk hj ih => exact (hw.closed _ ih _ hj).resolve_right (hoff _ (hk.tail hj))

theorem leadsTo_leave_of_ne {module i : Nat} (hi : i ≠ module) : (w.leave module).leadsTo i = w.leadsTo i := by
  funext j
  rw [leadsTo, leave, List.getD_eq_getElem?_getD, List.getElem?_set, if_neg hi.symm, leadsTo,
    List.getD_eq_getElem?_getD]

/-- What a module is said to lead to is gathered when it is left, from the lists as they are then. -/
theorem Sane.leadsTo_leave {module : Nat} (hw : w.Sane g) (hrange : ∀ i j, g.Depends i j → j < g.modules.length)
    (hm : module < g.modules.length) (j : Nat) :
    (w.leave module).leadsTo module j = true ↔ TransGen (fun a b => b ∈ w.strongOf a) module j := by
  have hbelow : ∀ a, ∀ b ∈ w.strongOf a, b < w.strong.length := fun a b hb =>
    hw.length ▸ hrange a b (.inl (hw.reads a b hb))
  rw [leadsTo, leave, List.getD_eq_getElem?_getD, List.getElem?_set, if_pos rfl, if_pos (hw.length_closure ▸ hm),
    Option.getD_some, List.contains_iff_mem, mem_reach_iff hbelow]

theorem Sane.gathered_leave {module : Nat} {rest : List Nat} (hw : w.Sane g)
    (hrange : ∀ i j, g.Depends i j → j < g.modules.length) (hpath : w.path = module :: rest)
    (hread : w.strongOf module = (g.dependencies module).strong)
    (htoward : ∀ i ∈ rest, TransGen g.Depends i module) (hmet : ∀ i, g.Depends module i → w.Met i) :
    Gathered g (w.done ++ [module]) module ((w.leave module).leadsTo module) := by
  have hm : module < g.modules.length :=
    hw.range module ((hw.seen module).mpr (.inr (hpath ▸ List.mem_cons_self)))
  refine ⟨⟨w.strongOf, hw.begun, fun a ha => ?_, hw.leadsTo_leave hrange hm⟩, fun a ha b hb => ?_⟩
  · rcases List.mem_append.mp ha with ha | ha
    · exact hw.read a ha
    · rw [List.mem_singleton.mp ha, hread]
  · have hb' : b ∈ w.done ∨ b ∈ w.path := by
      rcases List.mem_append.mp ha with ha | ha
      · exact hw.closed a ha b (.inl hb)
      · exact (hmet b (.inl (List.mem_singleton.mp ha ▸ hb))).imp_right And.left
    rw [hpath, List.mem_cons] at hb'
    rcases hb' with h | rfl | h
    · exact .inl (List.mem_append_left _ h)
    · exact .inl (List.mem_append_right _ (List.mem_singleton_self b))
    · exact .inr (htoward b h)

theorem sane_leave {module : Nat} {rest : List Nat} (hw : w.Sane g)
    (hrange : ∀ i j, g.Depends i j → j < g.modules.length) (hpath : w.path = module :: rest)
    (hread : w.strongOf module = (g.dependencies module).strong)
    (htoward : ∀ i ∈ rest, TransGen g.Depends i module) (hmet : ∀ i, g.Depends module i → w.Met i) :
    (w.leave module).Sane g := by
  have herase : (w.leave module).path = rest := by rw [leave, hpath, List.erase_cons_head]
  have hstrong : ∀ i, (w.leave module).strongOf i = w.strongOf i := fun _ => rfl
  have hnodup := hw.nodup
  rw [hpath] at hnodup
  have hgathered := hw.gathered_leave hrange hpath hread htoward hmet
  refine ⟨fun i => ?_, ?_, hw.range, hw.length, ?_, fun i hi => ?_, hw.begun, hw.unread, fun i j hj => ?_,
    fun before i after heq => ?_, fun i hi j hj => ?_, hw.trails.concat fun j => hw.trails_done hpath htoward hmet,
    fun hc => ?_, hw.circle⟩
  · rw [herase]
    have hseen := hw.seen i
    rw [hpath] at hseen
    simp only [leave, List.mem_append, List.mem_singleton]
    rw [hseen, List.mem_cons, or_assoc]
  · rw [herase]
    have hperm : (rest ++ (w.done ++ [module])).Perm (module :: rest ++ w.done) := by
      rw [← List.append_assoc]
      exact List.perm_append_singleton module (rest ++ w.done)
    exact hperm.nodup_iff.mpr hnodup
  · rw [leave, List.length_set]
    exact hw.length_closure
  · rw [hstrong]
    rcases List.mem_append.mp hi with hi | hi
    · exact hw.read i hi
    · rw [List.mem_singleton.mp hi]
      exact hread
  · by_cases hi : i = module
    · subst hi
      have hm := hw.range i ((hw.seen i).mpr (.inr (hpath ▸ List.mem_cons_self)))
      exact TransGen.mono hw.reads _ _ ((hw.leadsTo_leave hrange hm j).mp hj)
    · exact hw.leads i j (leadsTo_leave_of_ne (w := w) hi ▸ hj)
  · rcases concat_split heq with ⟨rfl, rfl, -⟩ | ⟨after, -, hdone⟩
    · exact hgathered
    · have hi : i ≠ module := by
        rintro rfl
        exact (List.nodup_cons.mp hnodup).1 (List.mem_append_right _ (hdone ▸ by simp))
      rw [leadsTo_leave_of_ne hi]
      exact hw.gathered before i after hdone
  · have hj' : j ∈ w.done ∨ j ∈ w.path := by
      rcases List.mem_append.mp hi with hi | hi
      · exact hw.closed i hi j hj
      · exact (hmet j (List.mem_singleton.mp hi ▸ hj)).imp_right And.left
    rw [herase]
    rcases hj' with h | h
    · exact .inl (List.mem_append_left _ h)
    · rw [hpath] at h
      exact (List.mem_cons.mp h).imp (fun h => List.mem_append_right _ (List.mem_singleton.mpr h)) fun h => h
  · refine (hw.sorted hc).concat fun i hi => ?_
    rcases hmet i hi with h | ⟨-, h⟩
    · exact h
    · have hc' : w.cyclic = false := hc
      rw [h] at hc'
      cases hc'

end Walk

def VisitsWell (g : Graph) (fuel : Nat) : Prop :=
  ∀ (module : Nat) (w : Walk), w.Sane g → module < g.modules.length →
    g.modules.length < fuel + w.path.length → module ∉ w.path →
    (∀ i ∈ w.path, TransGen g.Depends i module) →
    Walk.Extends g w.path w (g.visit fuel module w) ∧ module ∈ (g.visit fuel module w).done

section
variable {fuel : Nat} (hrange : ∀ i j, g.Depends i j → j < g.modules.length) (hv : VisitsWell g fuel)
include hrange hv

theorem follow_extends {w : Walk} {module i : Nat} {rest : List Nat} (hw : w.Sane g)
    (hpath : w.path = module :: rest) (hfuel : g.modules.length < fuel + w.path.length)
    (htoward : ∀ k ∈ rest, TransGen g.Depends k module) (hi : g.Depends module i) :
    Walk.Extends g w.path w (w.follow (g.visit fuel) i) ∧ (w.follow (g.visit fuel) i).Met i := by
  have htoward' : ∀ k ∈ w.path, TransGen g.Depends k i := by
    intro k hk
    rw [hpath] at hk
    rcases List.mem_cons.mp hk with rfl | hk
    · exact .single hi
    · exact (htoward k hk).tail hi
  unfold Walk.follow
  split
  · next hmem =>
    -- every module on the way leads to this one, which is on the way itself
    have hmem : i ∈ w.path := by simpa using hmem
    have hsane := Walk.sane_cyclic hw ⟨i, htoward' i hmem⟩
    exact ⟨⟨hsane, rfl, fun _ h => h, fun _ h => h, fun _ _ => rfl, fun _ => rfl⟩, .inr ⟨hmem, rfl⟩⟩
  · next hmem =>
    have hmem : i ∉ w.path := by simpa using hmem
    obtain ⟨he, hd⟩ := hv i w hw (hrange module i hi) hfuel hmem htoward'
    exact ⟨he, .inl hd⟩

theorem follow_reads {module : Nat} {rest : List Nat} (htoward : ∀ k ∈ rest, TransGen g.Depends k module)
    (hnot : module ∉ rest) (l : List Nat) {w w' : Walk} (hw : w.Sane g)
    (hl : w.strongOf module ++ l <+: (g.dependencies module).strong) (hpath : w.path = module :: rest)
    (hfuel : g.modules.length < fuel + w.path.length)
    (heq : w' = l.foldl (fun w i => (w.addStrong module i).follow (g.visit fuel) i) w) :
    Walk.Extends g rest w w' ∧ w'.strongOf module = w.strongOf module ++ l ∧
      ∀ i ∈ l, w'.Met i := by
  induction l generalizing w with
  | nil =>
    subst heq
    exact ⟨.refl hw rest, (List.append_nil _).symm, fun i hi => by cases hi⟩
  | cons i l ih =>
    have hsplit : (w.strongOf module ++ [i]) ++ l <+: (g.dependencies module).strong := by
      rwa [List.append_assoc, List.singleton_append]
    have hbegun := (List.prefix_append _ l).trans hsplit
    have hi : g.Reads module i := hbegun.subset (List.mem_append_right _ (List.mem_singleton_self i))
    have hmem : module ∈ w.path := by rw [hpath]; exact List.mem_cons_self
    have hlength : module < w.strong.length := by
      rw [hw.length]
      exact hw.range module ((hw.seen module).mpr (.inr hmem))
    have hadd := Walk.sane_addStrong hw hmem hbegun
    have hkept : ∀ k ∈ rest, (w.addStrong module i).strongOf k = w.strongOf k := fun k hk => by
      have hne : module ≠ k := fun h => hnot (h ▸ hk)
      rw [Walk.strongOf_addStrong hlength, if_neg hne]
    have hadded : Walk.Extends g rest w (w.addStrong module i) :=
      ⟨hadd, rfl, fun _ h => h, fun _ h => h, hkept, fun h => h⟩
    obtain ⟨hfollow, hmet⟩ := follow_extends hrange hv hadd hpath hfuel htoward (.inl hi)
    have hrest : ∀ k ∈ rest, k ∈ (w.addStrong module i).path := fun k hk => by
      have hpath' : (w.addStrong module i).path = module :: rest := hpath
      rw [hpath']
      exact List.mem_cons_of_mem _ hk
    have hread : ((w.addStrong module i).follow (g.visit fuel) i).strongOf module = w.strongOf module ++ [i] := by
      rw [hfollow.kept module hmem, Walk.strongOf_addStrong hlength, if_pos rfl]
    obtain ⟨hext, hstrong, hall⟩ := ih hfollow.sane (hread ▸ hsplit) (hfollow.path.trans hpath)
      (by rw [hfollow.path]; exact hfuel) heq
    refine ⟨(hadded.trans (hfollow.mono hrest)).trans hext, ?_, fun j hj => ?_⟩
    · rw [hstrong, hread, List.append_assoc, List.singleton_append]
    · rcases List.mem_cons.mp hj with rfl | hj
      · exact hext.met hmet
      · exact hall j hj

theorem follow_imports {module : Nat} {rest : List Nat}
    (htoward : ∀ k ∈ rest, TransGen g.Depends k module) (l : List Nat)
    (hl : ∀ i ∈ l, g.Imports module i) {w w' : Walk} (hw : w.Sane g) (hpath : w.path = module :: rest)
    (hfuel : g.modules.length < fuel + w.path.length)
    (heq : w' = l.foldl (fun w i => w.follow (g.visit fuel) i) w) :
    Walk.Extends g (module :: rest) w w' ∧ ∀ i ∈ l, w'.Met i := by
  induction l generalizing w with
  | nil =>
    subst heq
    exact ⟨.refl hw _, fun i hi => by cases hi⟩
  | cons i l ih =>
    obtain ⟨hfollow, hmet⟩ :=
      follow_extends hrange hv hw hpath hfuel htoward (.inr (hl i List.mem_cons_self))
    obtain ⟨hext, hall⟩ := ih (fun j hj => hl j (List.mem_cons_of_mem _ hj)) hfollow.sane
      (hfollow.path.trans hpath) (by rw [hfollow.path]; exact hfuel) heq
    refine ⟨(hpath ▸ hfollow).trans hext, fun j hj => ?_⟩
    rcases List.mem_cons.mp hj with rfl | hj
    · exact hext.met hmet
    · exact hall j hj

end

theorem visit_unseen {fuel module : Nat} {w : Walk} (hseen : module ∉ w.seen) :
    g.visit (fuel + 1) module w =
      ((g.dependencies module).weak.foldl (fun w i => w.follow (g.visit fuel) i)
        ((g.dependencies module).strong.foldl (fun w i => (w.addStrong module i).follow (g.visit fuel) i)
          (w.enter module))).leave module := by
  rw [visit, if_neg (by simpa using hseen)]
  rfl

theorem visitsWell (hrange : ∀ i j, g.Depends i j → j < g.modules.length) (fuel : Nat) :
    VisitsWell g fuel := by
  induction fuel with
  | zero =>
    intro module w hw _ hfuel
    have := hw.length_path
    omega
  | succ fuel ih =>
    intro module w hw hm hfuel hnot htoward
    by_cases hseen : module ∈ w.seen
    · rw [visit, if_pos (by simpa using hseen)]
      exact ⟨.refl hw w.path, ((hw.seen module).mp hseen).resolve_right hnot⟩
    rw [visit_unseen hseen]
    have henter := Walk.sane_enter hw hm hseen
    have hfuel' : g.modules.length < fuel + (w.enter module).path.length := by
      rw [Walk.enter, List.length_cons]
      omega
    have hnone : (w.enter module).strongOf module = [] := hw.unread module hseen
    generalize hw₁ : (g.dependencies module).strong.foldl _ (w.enter module) = w₁
    obtain ⟨hext₁, hstrong₁, hall₁⟩ := follow_reads hrange ih htoward hnot
      (g.dependencies module).strong henter (by simp [hnone]) rfl hfuel' hw₁.symm
    generalize hw₂ : (g.dependencies module).weak.foldl _ w₁ = w₂
    obtain ⟨hext₂, hall₂⟩ := follow_imports hrange ih htoward (g.dependencies module).weak
      (fun _ h => h) hext₁.sane hext₁.path (by rw [hext₁.path]; exact hfuel') hw₂.symm
    have hpath : w₂.path = module :: w.path := hext₂.path.trans hext₁.path
    have hread : w₂.strongOf module = (g.dependencies module).strong := by
      rw [hext₂.kept module List.mem_cons_self, hstrong₁, hnone, List.nil_append]
    have hleave := Walk.sane_leave hext₂.sane hrange hpath hread htoward fun i hi => hi.elim
      (fun h => hext₂.met (hall₁ i h)) (hall₂ i)
    refine ⟨⟨hleave, ?_, fun i hi => ?_, fun i hi => ?_, fun i hi => ?_, fun hc => ?_⟩, ?_⟩
    · rw [Walk.leave, hpath, List.erase_cons_head]
    · exact hext₂.seen i (hext₁.seen i (List.mem_cons_of_mem _ hi))
    · exact List.mem_append_left _ (hext₂.done i (hext₁.done i hi))
    · exact (hext₂.kept i (List.mem_cons_of_mem _ hi)).trans (hext₁.kept i hi)
    · exact hext₂.cyclic (hext₁.cyclic hc)
    · exact List.mem_append_right _ List.mem_cons_self

structure Walk.Whole (g : Graph) (w : Walk) : Prop where
  sane : w.Sane g
  mem : ∀ i, i ∈ w.done ↔ i < g.modules.length

theorem whole_visitAll (hrange : ∀ i j, g.Depends i j → j < g.modules.length) : g.visitAll.Whole g := by
  have hall : ∀ (l : List Nat) (w w' : Walk), (∀ i ∈ l, i < g.modules.length) → w.Sane g → w.path = [] →
      w' = l.foldl (fun w i => g.visit (g.modules.length + 1) i w) w →
      w'.Sane g ∧ (∀ i ∈ w.done, i ∈ w'.done) ∧ ∀ i ∈ l, i ∈ w'.done := by
    intro l
    induction l with
    | nil =>
      rintro w w' - hw hpath rfl
      exact ⟨hw, fun _ h => h, fun i hi => by cases hi⟩
    | cons k l ih =>
      intro w w' hl hw hpath heq
      obtain ⟨hext, hk⟩ := visitsWell hrange (g.modules.length + 1) k w hw (hl k List.mem_cons_self)
        (by omega) (by simp [hpath]) (by simp [hpath])
      obtain ⟨hsane, hdone, hmem⟩ :=
        ih _ w' (fun i hi => hl i (List.mem_cons_of_mem _ hi)) hext.sane (hext.path.trans hpath) heq
      refine ⟨hsane, fun i hi => hdone i (hext.done i hi), fun i hi => ?_⟩
      rcases List.mem_cons.mp hi with rfl | hi
      · exact hdone i hk
      · exact hmem i hi
  have hinitial : Walk.Sane g
      { strong := .replicate g.modules.length [], closure := .replicate g.modules.length [] } := by
    have hnone : ∀ i, (List.replicate g.modules.length ([] : List Nat)).getD i [] = [] := by
      intro i
      rw [List.getD_eq_getElem?_getD, List.getElem?_replicate]
      split <;> rfl
    refine ⟨by simp, by simp, by simp, List.length_replicate, List.length_replicate, by simp, fun i => ?_,
      fun i _ => hnone i, fun i j hj => ?_, fun before i after heq => ?_, by simp, fun before i after heq => ?_,
      fun _ before i after heq => ?_, fun h => by cases h⟩
    · rw [Walk.strongOf, hnone]
      exact List.nil_prefix
    · rw [Walk.leadsTo, hnone] at hj
      cases hj
    · simp at heq
    · simp at heq
    · simp at heq
  obtain ⟨hsane, -, hmem⟩ := hall (List.range g.modules.length) _ g.visitAll
    (fun i hi => List.mem_range.mp hi) hinitial rfl rfl
  refine ⟨hsane, fun i => ⟨fun hi => ?_, fun hi => hmem i (List.mem_range.mpr hi)⟩⟩
  exact hsane.range i ((hsane.seen i).mpr (.inl hi))

end Treeshake.Graph
