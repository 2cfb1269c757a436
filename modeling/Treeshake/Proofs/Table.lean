import Mathlib.Data.List.Nodup
import Treeshake.Table
/-!
Tables, and lists that grow at their end. Main statements: an entry is found under its key alone, a key is added to
those that were there, if it was not among them, and so is a name.
-/
set_option autoImplicit false

namespace Treeshake

/-- Where a list with one more element splits: at that element, or where the list splits without it. -/
theorem concat_split {α : Type} {l before after : List α} {x y : α} (h : l ++ [x] = before ++ y :: after) :
    (l = before ∧ x = y ∧ after = []) ∨ ∃ rest, after = rest ++ [x] ∧ l = before ++ y :: rest := by
  rcases List.eq_nil_or_concat after with rfl | ⟨rest, z, rfl⟩
  · obtain ⟨hl, hx⟩ := List.append_inj' h rfl
    exact .inl ⟨hl, (List.cons.inj hx).1, rfl⟩
  · rw [List.concat_eq_append, ← List.cons_append, ← List.append_assoc] at h
    obtain ⟨hl, hx⟩ := List.append_inj' h rfl
    obtain rfl := List.singleton_inj.mp hx
    exact .inr ⟨rest, List.concat_eq_append, hl⟩

namespace Table
variable {α : Type}

theorem get?_insert (key k : String) (value : α) (t : Table α) :
    get? k (insert key value t) = if k = key then some value else get? k t := by
  by_cases h : k = key
  · rw [h, get?_insert_self, if_pos rfl]
  · rw [if_neg h]
    have hk : (k == key) = false := beq_eq_false_iff_ne.mpr h
    induction t with
    | nil => simp [insert, get?, h]
    | cons e t ih =>
      obtain ⟨l, v⟩ := e
      by_cases hl : l = key
      · simp [insert, get?, List.lookup_cons, hl, hk]
      · have ih' : List.lookup k (insert key value t) = List.lookup k t := ih
        simp [insert, get?, List.lookup_cons, hl, ih']

variable {t : Table α} {key k : String} {value : α}

theorem mem_keys_iff : k ∈ t.keys ↔ ∃ v, t.get? k = some v := by
  induction t with
  | nil => simp [keys, get?]
  | cons e t ih =>
    obtain ⟨l, v⟩ := e
    by_cases h : k = l
    · subst h
      simp [keys, get?]
    · have hl : (k == l) = false := beq_eq_false_iff_ne.mpr h
      simpa [keys, get?, List.lookup_cons, h, hl] using ih

theorem mem_keys_iff_has : k ∈ t.keys ↔ t.has k = true := by simp [keys, has]

theorem mem_keys_insert : k ∈ (t.insert key value).keys ↔ k = key ∨ k ∈ t.keys := by
  rw [mem_keys_iff, mem_keys_iff, get?_insert]
  by_cases h : k = key
  · simp [h]
  · simp [h]

theorem keys_insert_of_mem (h : key ∈ t.keys) : (t.insert key value).keys = t.keys := by
  induction t with
  | nil => cases h
  | cons e t ih =>
    obtain ⟨l, v⟩ := e
    by_cases hl : l = key
    · simp [insert, keys, hl]
    · have hmem : key ∈ keys t := (List.mem_cons.mp h).resolve_left fun h' => hl h'.symm
      have hkeys : (insert key value t).map (·.1) = t.map (·.1) := ih hmem
      simp [insert, keys, hl, hkeys]

theorem keys_insert_of_not_mem (h : key ∉ t.keys) : (t.insert key value).keys = t.keys ++ [key] := by
  induction t with
  | nil => rfl
  | cons e t ih =>
    obtain ⟨l, v⟩ := e
    obtain ⟨hl, hmem⟩ := not_or.mp fun h' => h (List.mem_cons.mpr h')
    have hkeys : (insert key value t).map (·.1) = t.map (·.1) ++ [key] := ih hmem
    simp [insert, keys, Ne.symm hl, hkeys]

theorem nodup_keys_insert (h : t.keys.Nodup) : (t.insert key value).keys.Nodup := by
  by_cases hmem : key ∈ t.keys
  · rw [keys_insert_of_mem hmem]
    exact h
  · rw [keys_insert_of_not_mem hmem, List.nodup_append]
    refine ⟨h, List.nodup_singleton key, ?_⟩
    rintro a ha b hb rfl
    exact hmem (List.mem_singleton.mp hb ▸ ha)

theorem get?_of_mem {e : String × α} (h : t.keys.Nodup) (he : e ∈ t) : t.get? e.1 = some e.2 := by
  induction t with
  | nil => cases he
  | cons x t ih =>
    obtain ⟨hx, hkeys⟩ := List.nodup_cons.mp h
    rcases List.mem_cons.mp he with rfl | he
    · exact List.lookup_cons_self
    · have hne : e.1 ≠ x.1 := fun heq => hx (List.mem_map.mpr ⟨e, he, heq⟩)
      have hb : (e.1 == x.1) = false := beq_eq_false_iff_ne.mpr hne
      rw [get?, List.lookup_cons, hb]
      exact ih hkeys he

end Table

section
variable {name other : String} {new names : List String}

theorem mem_addNew : other ∈ addNew name names ↔ other = name ∨ other ∈ names := by
  unfold addNew
  split
  · next h =>
    have hmem : name ∈ names := by simpa using h
    exact ⟨.inr, fun h => h.elim (fun heq => heq ▸ hmem) id⟩
  · simp [or_comm]

theorem mem_foldl_addNew : name ∈ new.foldl (fun names n => addNew n names) names ↔ name ∈ new ∨ name ∈ names := by
  induction new generalizing names with
  | nil => simp
  | cons n new ih => rw [List.foldl_cons, ih, mem_addNew, List.mem_cons, or_left_comm, or_assoc]

theorem nodup_addNew (h : names.Nodup) : (addNew name names).Nodup := by
  unfold addNew
  split
  · exact h
  · next hnew =>
    have hnew : name ∉ names := by simpa using hnew
    exact List.nodup_append.mpr ⟨h, List.nodup_singleton name, fun a ha b hb heq =>
      hnew (List.mem_singleton.mp hb ▸ heq ▸ ha)⟩

theorem nodup_foldl_addNew (new : List String) (h : names.Nodup) :
    (new.foldl (fun names n => addNew n names) names).Nodup := by
  induction new generalizing names with
  | nil => exact h
  | cons n new ih => exact ih (nodup_addNew h)

theorem prefix_addNew (name : String) (names : List String) : names <+: addNew name names := by
  unfold addNew
  split
  · exact List.prefix_refl names
  · exact List.prefix_append names [name]

theorem prefix_foldl_addNew (new names : List String) : names <+: new.foldl (fun names n => addNew n names) names := by
  induction new generalizing names with
  | nil => exact List.prefix_refl names
  | cons n new ih => exact (prefix_addNew n names).trans (ih (addNew n names))

theorem foldl_addNew_of_nodup (h : (names ++ new).Nodup) :
    new.foldl (fun names n => addNew n names) names = names ++ new := by
  induction new generalizing names with
  | nil => exact (List.append_nil names).symm
  | cons n new ih =>
    have hnew : n ∉ names := fun hmem => List.disjoint_of_nodup_append h hmem List.mem_cons_self
    have hadd : addNew n names = names ++ [n] := by simp [addNew, hnew]
    have hrest : (names ++ [n] ++ new).Nodup := by rwa [List.append_assoc, List.singleton_append]
    rw [List.foldl_cons, hadd, ih hrest, List.append_assoc, List.singleton_append]

end

end Treeshake
