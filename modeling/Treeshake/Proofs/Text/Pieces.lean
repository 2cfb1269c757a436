import Treeshake.Text.Offset
/-!
Texts and their pieces. Main statement: a joined text falls into the pieces that it was joined from, if no separator
is in them.
-/
set_option autoImplicit false

namespace Treeshake.Text

variable {p : Char → Bool} {sep : Char}

theorem splitBy_append (hsep : p sep = true) (a b : List Char) :
    splitBy p (a ++ sep :: b) = splitBy p a ++ splitBy p b := by
  induction a with
  | nil => simp [splitBy, hsep]
  | cons c a ih =>
    obtain ⟨w, ws, hw⟩ := List.exists_cons_of_ne_nil (splitBy_ne_nil p a)
    by_cases hc : p c = true <;> simp [splitBy, hc, ih, hw]

theorem splitBy_of_forall {a : List Char} (ha : ∀ c ∈ a, p c = false) : splitBy p a = [a] := by
  induction a with
  | nil => rfl
  | cons c a ih =>
    obtain ⟨hc, ha⟩ := List.forall_mem_cons.mp ha
    simp [splitBy, hc, ih ha]

theorem eq_of_splitBy_eq_singleton {a w : List Char} (h : splitBy p a = [w]) : a = w := by
  induction a generalizing w with
  | nil => exact List.head_eq_of_cons_eq h
  | cons c a ih =>
    obtain ⟨v, vs, hv⟩ := List.exists_cons_of_ne_nil (splitBy_ne_nil p a)
    rw [splitBy, hv] at h
    split at h
    · cases h
    · obtain ⟨rfl, rfl⟩ := List.cons.inj h
      rw [ih hv]

theorem not_separator_of_mem_splitBy {cs w : List Char} (hw : w ∈ splitBy p cs) : ∀ c ∈ w, p c = false := by
  induction cs generalizing w with
  | nil => simp_all [splitBy]
  | cons d cs ih =>
    rw [splitBy] at hw
    split at hw
    · rcases List.mem_cons.mp hw with rfl | hw
      · exact List.forall_mem_nil _
      · exact ih hw
    · next hd =>
      obtain ⟨v, vs, hv⟩ := List.exists_cons_of_ne_nil (splitBy_ne_nil p cs)
      rw [hv] at hw ih
      rcases List.mem_cons.mp hw with rfl | hw
      · exact List.forall_mem_cons.mpr ⟨by simpa using hd, ih List.mem_cons_self⟩
      · exact ih (List.mem_cons_of_mem v hw)

theorem joinWith_cons {ws : List (List Char)} (w : List Char) (hne : ws ≠ []) :
    joinWith sep (w :: ws) = w ++ sep :: joinWith sep ws := by
  cases ws with
  | nil => exact absurd rfl hne
  | cons v ws => rfl

theorem splitBy_joinWith (hsep : p sep = true) {ws : List (List Char)} (hne : ws ≠ [])
    (h : ∀ w ∈ ws, ∀ c ∈ w, p c = false) : splitBy p (joinWith sep ws) = ws := by
  induction ws with
  | nil => exact absurd rfl hne
  | cons w ws ih =>
    obtain ⟨hw, hws⟩ := List.forall_mem_cons.mp h
    by_cases hrest : ws = []
    · rw [hrest]
      exact splitBy_of_forall hw
    · rw [joinWith_cons w hrest, splitBy_append hsep, splitBy_of_forall hw, ih hrest hws, List.singleton_append]

theorem mem_joinWith {c : Char} {ws : List (List Char)} (h : c ∈ joinWith sep ws) : c = sep ∨ ∃ w ∈ ws, c ∈ w := by
  induction ws with
  | nil => simp [joinWith] at h
  | cons w ws ih =>
    by_cases hrest : ws = []
    · exact .inr ⟨w, List.mem_cons_self, by simpa [hrest, joinWith] using h⟩
    · rw [joinWith_cons w hrest, List.mem_append, List.mem_cons] at h
      rcases h with h | h | h
      · exact .inr ⟨w, List.mem_cons_self, h⟩
      · exact .inl h
      · exact (ih h).imp_right fun ⟨u, hu, hc⟩ => ⟨u, List.mem_cons_of_mem w hu, hc⟩

theorem joinWith_splitBy (hp : ∀ c, p c = true → c = sep) (cs : List Char) : joinWith sep (splitBy p cs) = cs := by
  induction cs with
  | nil => rfl
  | cons c cs ih =>
    rw [splitBy]
    split
    · next hc => rw [joinWith_cons [] (splitBy_ne_nil p cs), ih, hp c hc, List.nil_append]
    · obtain ⟨w, ws, hw⟩ := List.exists_cons_of_ne_nil (splitBy_ne_nil p cs)
      rw [hw] at ih ⊢
      rw [List.modifyHead_cons, ← ih]
      cases ws <;> rfl

theorem joinWith_append {us ws : List (List Char)} (hus : us ≠ []) (hws : ws ≠ []) :
    joinWith sep (us ++ ws) = joinWith sep us ++ sep :: joinWith sep ws := by
  induction us with
  | nil => exact absurd rfl hus
  | cons u us ih =>
    by_cases hrest : us = []
    · rw [hrest, List.singleton_append, joinWith_cons u hws]
      rfl
    · rw [List.cons_append, joinWith_cons u (List.append_ne_nil_of_left_ne_nil hrest ws), ih hrest,
        joinWith_cons u hrest, List.append_assoc, List.cons_append]

theorem count_joinWith {ws : List (List Char)} (hne : ws ≠ []) (h : ∀ w ∈ ws, sep ∉ w) :
    (joinWith sep ws).count sep + 1 = ws.length := by
  induction ws with
  | nil => exact absurd rfl hne
  | cons w ws ih =>
    obtain ⟨hw, hws⟩ := List.forall_mem_cons.mp h
    by_cases hrest : ws = []
    · rw [hrest]
      exact congrArg (· + 1) (List.count_eq_zero.mpr hw)
    · rw [joinWith_cons w hrest, List.count_append, List.count_eq_zero.mpr hw, List.count_cons_self, List.length_cons,
        ← ih hrest hws, Nat.zero_add]

/-- A text is divided at a separator in one way, if as many separators are to be in front of it. -/
theorem eq_of_count_eq {a b x y : List Char} (h : a ++ sep :: x = b ++ sep :: y) (hcount : a.count sep = b.count sep) :
    a = b ∧ x = y := by
  have hnone : ∀ {a u : List Char}, (a ++ u).count sep = a.count sep → ∀ z w, sep :: z = u ++ w → u = [] := by
    intro a u hcount z w hu
    cases u with
    | nil => rfl
    | cons c u =>
      obtain ⟨rfl, -⟩ := List.cons.inj hu
      rw [List.count_append, List.count_cons_self] at hcount
      omega
  rcases List.append_eq_append_iff.mp h with ⟨u, rfl, hu⟩ | ⟨u, rfl, hu⟩
  · obtain rfl := hnone hcount.symm _ _ hu
    exact ⟨(List.append_nil a).symm, (List.cons.inj hu).2⟩
  · obtain rfl := hnone hcount _ _ hu
    exact ⟨List.append_nil b, (List.cons.inj hu).2.symm⟩

end Treeshake.Text
