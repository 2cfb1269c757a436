import Treeshake.Module.External
import Treeshake.Proofs.Table
/-!
What an external module is called after its importers. Main statement: it has the name that was suggested most, and of
those that were suggested as often the one that was first to be, which is one name only.
-/
set_option autoImplicit false

namespace Treeshake.External

variable {names : List String} {name other : String} {count place : Nat} {e : External}

def Reaches (names : List String) (name : String) (count place : Nat) : Prop :=
  names[place]? = some name ∧ (names.take place).count name + 1 = count

instance : Decidable (Reaches names name count place) := inferInstanceAs (Decidable (_ ∧ _))

/-- No name is suggested more often, and each other one that is suggested as often comes to that number later. -/
structure Wins (names : List String) (name : String) : Prop where
  most : ∀ other, names.count other ≤ names.count name
  first : ∃ place, Reaches names name (names.count name) place ∧
    ∀ other, other ≠ name → names.count other = names.count name →
      ∃ later, place < later ∧ Reaches names other (names.count other) later

theorem count_concat_of_ne (names : List String) (h : name ≠ other) :
    (names ++ [name]).count other = names.count other := by
  simp [h]

theorem Reaches.lt_length (h : Reaches names name count place) : place < names.length :=
  (List.getElem?_eq_some_iff.mp h.1).1

theorem Reaches.append (h : Reaches names name count place) (rest : List String) :
    Reaches (names ++ rest) name count place := by
  have hlt := h.lt_length
  refine ⟨?_, ?_⟩
  · rw [List.getElem?_append_left hlt]
    exact h.1
  · rw [List.take_append_of_le_length (Nat.le_of_lt hlt)]
    exact h.2

theorem reaches_concat (names : List String) (name : String) :
    Reaches (names ++ [name]) name ((names ++ [name]).count name) names.length := by
  simp [Reaches]

theorem Reaches.unique {place' : Nat} (h : Reaches names name count place) (h' : Reaches names name count place') :
    place = place' := by
  -- behind the first of two places the name would have been suggested once more already
  have hnot : ∀ {i j : Nat}, Reaches names name count i → Reaches names name count j → ¬i < j := by
    rintro i j ⟨hname, hi⟩ ⟨-, hj⟩ hlt
    have hle := (List.take_sublist_take_left (l := names) hlt).count_le name
    rw [List.take_add_one, hname, Option.toList_some, List.count_append, List.count_singleton_self] at hle
    omega
  have hle := hnot h' h
  have hge := hnot h h'
  omega

theorem Wins.unique (h : Wins names name) (h' : Wins names other) : name = other := by
  by_contra hne
  have hcount : names.count name = names.count other := by
    have hle := h'.most name
    have hge := h.most other
    omega
  obtain ⟨place, hreaches, hothers⟩ := h.first
  obtain ⟨place', hreaches', hothers'⟩ := h'.first
  obtain ⟨later, hlt, hlater⟩ := hothers other (Ne.symm hne) hcount.symm
  obtain ⟨later', hlt', hlater'⟩ := hothers' name hne hcount
  have hsame : later = place' := hlater.unique hreaches'
  have hsame' : later' = place := hlater'.unique hreaches
  omega

theorem wins_concat_self (h : ∀ other, names.count other ≤ names.count name) : Wins (names ++ [name]) name := by
  have hless : ∀ other, other ≠ name → (names ++ [name]).count other < (names ++ [name]).count name := by
    intro other hne
    have hle := h other
    rw [count_concat_of_ne names (Ne.symm hne), List.count_append, List.count_singleton_self]
    omega
  refine ⟨fun other => ?_, names.length, reaches_concat names name, fun other hne hsame => ?_⟩
  · by_cases hother : other = name
    · simp [hother]
    · exact Nat.le_of_lt (hless other hother)
  · have hlt := hless other hne
    omega

/-- A name that wins goes on winning as long as no other is suggested more often. -/
theorem Wins.concat (h : Wins names name) (hless : names.count other < names.count name) :
    Wins (names ++ [other]) name := by
  have hne : other ≠ name := by
    rintro rfl
    omega
  have hcount := count_concat_of_ne names hne
  obtain ⟨place, hreaches, hothers⟩ := h.first
  refine ⟨fun third => ?_, place, hcount.symm ▸ hreaches.append [other], fun third hthird hsame => ?_⟩
  · by_cases heq : other = third
    · subst heq
      rw [hcount, List.count_append, List.count_singleton_self]
      omega
    · rw [hcount, count_concat_of_ne names heq]
      exact h.most third
  · by_cases heq : other = third
    · subst heq
      exact ⟨names.length, hreaches.lt_length, reaches_concat names other⟩
    · have hthen := count_concat_of_ne names heq
      rw [hthen, hcount] at hsame
      obtain ⟨later, hlt, hlater⟩ := hothers third hthird hsame
      exact ⟨later, hlt, hthen.symm ▸ hlater.append [other]⟩

/-- What a module knows of the names suggested to it: how often each of them was, and which one wins. -/
structure Tallied (names : List String) (e : External) : Prop where
  counted : ∀ name, (e.suggestions.get? name).getD 0 = names.count name
  highest : e.mostFrequent = names.count e.name
  wins : names ≠ [] → Wins names e.name

theorem tallied_nil (hnone : e.suggestions = []) (hzero : e.mostFrequent = 0) : Tallied [] e where
  counted name := by rw [hnone]; rfl
  highest := hzero
  wins h := absurd rfl h

theorem Tallied.most (h : Tallied names e) (other : String) : names.count other ≤ names.count e.name := by
  cases names with
  | nil => exact Nat.le_refl 0
  | cons n names => exact (h.wins (List.cons_ne_nil n names)).most other

theorem Tallied.suggest (h : Tallied names e) (name : String) : Tallied (names ++ [name]) (e.suggest name) := by
  have hcounted : ∀ other, ((e.suggestions.insert name (names.count name + 1)).get? other).getD 0 =
      (names ++ [name]).count other := by
    intro other
    rw [Table.get?_insert]
    by_cases hother : other = name
    · simp [hother]
    · rw [if_neg hother, h.counted, count_concat_of_ne names (Ne.symm hother)]
  rw [External.suggest, h.counted]
  dsimp only
  split
  · next hlead =>
    have hahead : ∀ other, names.count other ≤ names.count name := by
      intro other
      have hmost := h.most other
      have hhighest := h.highest
      omega
    exact ⟨hcounted, by simp, fun _ => wins_concat_self hahead⟩
  · next hlead =>
    have hless : names.count name < names.count e.name := by
      have hhighest := h.highest
      omega
    have hne : name ≠ e.name := by
      intro heq
      rw [← heq] at hless
      omega
    have hnames : names ≠ [] := by
      rintro rfl
      exact Nat.not_lt_zero _ hless
    exact ⟨hcounted, h.highest.trans (count_concat_of_ne names hne).symm, fun _ => (h.wins hnames).concat hless⟩

theorem Tallied.foldl (h : Tallied names e) (new : List String) :
    Tallied (names ++ new) (new.foldl External.suggest e) := by
  induction new generalizing names e with
  | nil => rwa [List.append_nil]
  | cons n new ih =>
    rw [List.foldl_cons, List.append_cons]
    exact ih (h.suggest n)

/-- A module to which nothing was suggested before, as nothing was to a new one, is called after the name that wins. -/
theorem name_eq_iff_wins (hnone : e.suggestions = []) (hzero : e.mostFrequent = 0) (hnames : names ≠ [])
    (name : String) : (names.foldl suggest e).name = name ↔ Wins names name := by
  have hwins : Wins names (names.foldl suggest e).name := ((tallied_nil hnone hzero).foldl names).wins hnames
  constructor
  · rintro rfl
    exact hwins
  · exact hwins.unique

theorem name_eq_iff_wins_tie :
    let names := ["_", "lodash", "$", "lodash", "_"]
    names ≠ [] ∧ (names.foldl suggest (ofId "lodash-es")).name = "lodash" ∧ Wins names "lodash" ∧
      Reaches names "lodash" 2 3 ∧ Reaches names "_" 2 4 := by
  intro names
  have hnames : names ≠ [] := by decide
  have hname : (names.foldl suggest (ofId "lodash-es")).name = "lodash" := by decide +kernel
  exact ⟨hnames, hname, (name_eq_iff_wins rfl rfl hnames "lodash").mp hname, by decide +kernel, by decide +kernel⟩

end Treeshake.External
