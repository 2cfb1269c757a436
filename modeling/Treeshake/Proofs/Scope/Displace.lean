import Treeshake.Scope.Forest
/-!
Local names that make room for another. Main statement: a name that no displaced name falls together with
is found where it was.
-/
set_option autoImplicit false

namespace Treeshake

/-- What a local name becomes: it has something behind it if it would capture another name. -/
def displaced (capturing : List String) (name : String) : String :=
  if capturing.contains name then name ++ "$$" else name

variable {capturing : List String} {name : String}

theorem displaced_of_mem (h : name ∈ capturing) : displaced capturing name = name ++ "$$" :=
  if_pos (List.contains_iff_mem.mpr h)

theorem displaced_of_notMem (h : name ∉ capturing) : displaced capturing name = name :=
  if_neg fun hc => h (List.contains_iff_mem.mp hc)

theorem displaced_eq_iff {other : String} (hfresh : ∀ c ∈ capturing, name ≠ c ++ "$$") :
    displaced capturing other = name ↔ other = name ∧ name ∉ capturing := by
  by_cases h : other ∈ capturing
  · rw [displaced_of_mem h]
    exact ⟨fun heq => absurd heq.symm (hfresh other h), fun ⟨heq, hn⟩ => absurd (heq ▸ h) hn⟩
  · rw [displaced_of_notMem h]
    exact ⟨fun heq => ⟨heq, heq ▸ h⟩, fun heq => heq.1⟩

namespace ScopeForest

def displace (f : ScopeForest) (capturing : List String) : ScopeForest :=
  ⟨f.scopes.map fun s =>
    if s.kind = .statement then s else { s with names := s.names.map (displaced capturing) }⟩

variable {f g : ScopeForest} {scope found fuel : Nat}

@[simp] theorem size_displace (f : ScopeForest) : (f.displace capturing).size = f.size :=
  List.length_map _

@[simp] theorem parent?_displace (f : ScopeForest) (scope : Nat) :
    (f.displace capturing).parent? scope = f.parent? scope := by
  rw [parent?, parent?, displace, List.getElem?_map, Option.bind_map]
  refine congrArg _ (funext fun s => ?_)
  rw [Function.comp_apply]
  split <;> rfl

@[simp] theorem kind?_displace (f : ScopeForest) (scope : Nat) :
    (f.displace capturing).kind? scope = f.kind? scope := by
  rw [kind?, kind?, displace, List.getElem?_map, Option.map_map]
  refine congrArg (Option.map · _) (funext fun s => ?_)
  rw [Function.comp_apply]
  split <;> rfl

theorem names_displace (f : ScopeForest) (scope : Nat) : (f.displace capturing).names scope =
    if f.kind? scope = some .statement then f.names scope
    else (f.names scope).map (displaced capturing) := by
  rw [names, names, kind?, displace, List.getElem?_map]
  cases f.scopes[scope]? with
  | none => rfl
  | some s =>
    simp only [Option.map_some, Option.getD_some, Option.some.injEq]
    split <;> rfl

theorem declares_iff : f.declares scope name = true ↔ name ∈ f.names scope := List.contains_iff_mem

theorem declares_displace_root (hkind : f.kind? scope = some .statement) :
    (f.displace capturing).declares scope name = f.declares scope name := by
  rw [declares, names_displace, if_pos hkind, declares]

theorem declares_displace_local (hkind : f.kind? scope ≠ some .statement) :
    (f.displace capturing).declares scope name = true ↔
      ∃ other, f.declares scope other = true ∧ displaced capturing other = name := by
  simp only [declares_iff, names_displace, if_neg hkind, List.mem_map]

theorem declares_displace_iff (hkind : f.kind? scope ≠ some .statement)
    (hfresh : ∀ c ∈ capturing, name ≠ c ++ "$$") :
    (f.displace capturing).declares scope name = true ↔
      f.declares scope name = true ∧ name ∉ capturing := by
  simp only [declares_displace_local hkind, displaced_eq_iff hfresh]
  constructor
  · rintro ⟨other, hother, rfl, hn⟩
    exact ⟨hother, hn⟩
  · rintro ⟨hd, hn⟩
    exact ⟨name, hd, rfl, hn⟩

theorem declares_of_findWithin (h : f.findWithin name fuel scope = some found) :
    f.declares found name = true := by
  induction fuel generalizing scope with
  | zero => cases h
  | succ fuel ih =>
    rw [findWithin] at h
    split at h
    · next hd =>
      obtain rfl := Option.some.inj h
      exact hd
    · obtain ⟨p, -, hp⟩ := Option.bind_eq_some_iff.mp h
      exact ih hp

theorem findWithin_congr {other : String} (hparent : ∀ s, g.parent? s = f.parent? s)
    (hdeclares : ∀ s, g.declares s other = f.declares s name) (fuel scope : Nat) :
    g.findWithin other fuel scope = f.findWithin name fuel scope := by
  induction fuel generalizing scope with
  | zero => rfl
  | succ fuel ih => rw [findWithin, findWithin, hparent, hdeclares, funext ih]

theorem findWithin_of_declares {other : String} (hparent : ∀ s, g.parent? s = f.parent? s)
    (hdeclares : ∀ s, g.declares s other = true → f.declares s name = true)
    (hfound : g.declares found other = true) (h : f.findWithin name fuel scope = some found) :
    g.findWithin other fuel scope = some found := by
  induction fuel generalizing scope with
  | zero => cases h
  | succ fuel ih =>
    rw [findWithin] at h ⊢
    by_cases hd : f.declares scope name = true
    · rw [if_pos hd] at h
      obtain rfl := Option.some.inj h
      exact if_pos hfound
    · rw [if_neg hd] at h
      obtain ⟨p, hp, hrest⟩ := Option.bind_eq_some_iff.mp h
      rw [if_neg fun hg => hd (hdeclares scope hg), hparent, hp]
      exact ih hrest

theorem containsLocal_iff : f.containsLocal scope name = true ↔
    ∃ s, f.find? scope name = some s ∧ f.kind? s ≠ some .statement := by
  simp [containsLocal, Option.any_eq_true]

theorem find?_displace_of_notMem (hn : name ∉ capturing) (hfresh : ∀ c ∈ capturing, name ≠ c ++ "$$")
    (scope : Nat) : (f.displace capturing).find? scope name = f.find? scope name := by
  rw [find?, find?, size_displace]
  refine findWithin_congr (parent?_displace f) (fun s => ?_) _ scope
  by_cases hkind : f.kind? s = some .statement
  · exact declares_displace_root hkind
  · rw [Bool.eq_iff_iff, declares_displace_iff hkind hfresh]
    exact and_iff_left hn

theorem containsLocal_displace (hfresh : ∀ c ∈ capturing, name ≠ c ++ "$$")
    (hlocal : f.containsLocal scope name = true → name ∈ capturing) :
    (f.displace capturing).containsLocal scope name = false := by
  refine Bool.eq_false_iff.mpr fun h => ?_
  by_cases hn : name ∈ capturing
  · obtain ⟨s, hfind, hkind⟩ := containsLocal_iff.mp h
    rw [kind?_displace] at hkind
    exact ((declares_displace_iff hkind hfresh).mp (declares_of_findWithin hfind)).2 hn
  · rw [containsLocal_iff] at h
    simp only [find?_displace_of_notMem hn hfresh, kind?_displace] at h
    exact hn (hlocal (containsLocal_iff.mpr h))

/-- A local name is found under what it becomes where it was found. -/
theorem find?_displace (hlocal : f.containsLocal scope name = true)
    (hfresh : ∀ c ∈ capturing, ∀ s, f.declares s (c ++ "$$") = false) :
    (f.displace capturing).find? scope (displaced capturing name) = f.find? scope name := by
  obtain ⟨found, hfind, hkind⟩ := containsLocal_iff.mp hlocal
  have hdeclared := declares_of_findWithin hfind
  have hapart : ∀ other s, f.declares s other = true → ∀ c ∈ capturing, other ≠ c ++ "$$" := by
    rintro other s hs c hc rfl
    rw [hfresh c hc s] at hs
    cases hs
  by_cases hn : name ∈ capturing
  · rw [hfind, find?, size_displace, displaced_of_mem hn]
    refine findWithin_of_declares (parent?_displace f) (fun s hs => ?_) ?_ hfind
    · by_cases hroot : f.kind? s = some .statement
      · rw [declares_displace_root hroot, hfresh name hn s] at hs
        cases hs
      · obtain ⟨other, hother, heq⟩ := (declares_displace_local hroot).mp hs
        by_cases hc : other ∈ capturing
        · rw [displaced_of_mem hc] at heq
          exact (String.append_left_inj "$$").mp heq ▸ hother
        · rw [displaced_of_notMem hc] at heq
          exact absurd heq (hapart other s hother name hn)
    · exact (declares_displace_local hkind).mpr ⟨name, hdeclared, displaced_of_mem hn⟩
  · rw [displaced_of_notMem hn]
    exact find?_displace_of_notMem hn (hapart name found hdeclared) scope

end ScopeForest

end Treeshake
