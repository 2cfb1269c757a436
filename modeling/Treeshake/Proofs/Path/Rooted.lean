import Treeshake.Proofs.Path.Simplified
/-!
Which resolved paths are absolute. Main statement: one that starts at a slash stays there; and where nothing else comes
to stand first, a resolved path is absolute if what it is resolved from is.
-/
set_option autoImplicit false

namespace Treeshake.Path

variable {c d : List Char} {cs stack : List (List Char)}

/-- What makes a path absolute if it stands first with more behind it: nothing, so that the path starts with a slash,
or a drive. -/
def isAnchor (c : List Char) : Bool := c.isEmpty || isDrive c

def anchored : List (List Char) → Bool
  | c :: _ :: _ => isAnchor c
  | _ => false

theorem isRooted_eq_anchored (path : List Char) : isRooted path = anchored (components path) := by
  match path with
  | [] => rfl
  | [x] => by_cases hx : isSeparator x = true <;> simp [isRooted, components, Text.splitBy, anchored, isAnchor, hx]
  | [x, y] =>
    by_cases hx : isSeparator x = true <;> by_cases hy : isSeparator y = true <;>
      simp [isRooted, components, Text.splitBy, anchored, isAnchor, isDrive, hx, hy]
  | x :: y :: z :: rest =>
    obtain ⟨w, ws, hw⟩ := List.exists_cons_of_ne_nil (Text.splitBy_ne_nil isSeparator rest)
    have hcolon : isSeparator y = true → y ≠ ':' := by
      rintro hy rfl
      cases hy
    by_cases hx : isSeparator x = true <;> by_cases hy : isSeparator y = true <;> by_cases hz : isSeparator z = true <;>
      simp_all [isRooted, components, Text.splitBy, anchored, isAnchor, isDrive]
    cases ws <;> rfl

theorem anchored_reverse (hfirst : stack.getLast? = some c) :
    anchored stack.reverse = true ↔ isAnchor c = true ∧ stack ≠ [c] := by
  obtain ⟨below, rfl⟩ := List.getLast?_eq_some_iff.mp hfirst
  rw [List.reverse_append]
  cases hbelow : below.reverse with
  | nil => simp_all [anchored]
  | cons e es =>
    have hne : below ≠ [] := by
      rintro rfl
      cases hbelow
    simp [anchored, hne]

theorem isRooted_render (hs : Stacked stack) (hfirst : stack.getLast? = some c) :
    isRooted (render stack) = true ↔ isAnchor c = true ∧ (c = [] ∨ stack ≠ [c]) := by
  have hnil : stack ≠ [] := by
    rintro rfl
    cases hfirst
  by_cases hroot : stack = [[]]
  · subst hroot
    obtain rfl := Option.some.inj hfirst
    decide
  rw [isRooted_eq_anchored, hs.components_render hnil hroot, anchored_reverse hfirst]
  refine and_congr_right fun _ => ⟨.inr, ?_⟩
  rintro (rfl | h)
  · exact hroot
  · exact h

theorem push_drive (hc : isDrive c = true) : push [] c = [c] := by
  match c with
  | [x, y] =>
    obtain ⟨-, hy⟩ := Bool.and_eq_true_iff.mp hc
    obtain rfl := eq_of_beq hy
    simp [push]

theorem push_cases (stack : List (List Char)) (c : List Char) :
    push stack c = stack ∨ push stack c = c :: stack ∨ ∃ d, stack = d :: push stack c ∧ stack ≠ [[]] := by
  simp only [push]
  split
  · exact .inl rfl
  split
  · exact .inl rfl
  split
  · split
    · exact .inl rfl
    · exact .inr (.inl rfl)
    · next last below hroot _ =>
      split
      · exact .inr (.inl rfl)
      · exact .inr (.inr ⟨last, rfl, by simpa using hroot⟩)
  · exact .inr (.inl rfl)

theorem getLast?_push (hs : stack ≠ []) (hp : push stack c ≠ []) : (push stack c).getLast? = stack.getLast? := by
  rcases push_cases stack c with h | h | ⟨d, h, -⟩
  · rw [h]
  · rw [h, List.getLast?_cons_of_ne_nil hs]
  · rw [h, List.getLast?_cons_of_ne_nil hp, ← h]

theorem getLast?_push_root (hs : stack.getLast? = some []) : (push stack c).getLast? = some [] := by
  have hne : stack ≠ [] := by
    rintro rfl
    cases hs
  refine (getLast?_push hne fun hnil => ?_).trans hs
  rcases push_cases stack c with h | h | ⟨d, h, hroot⟩
  · exact hne (h.symm.trans hnil)
  · exact List.cons_ne_nil c stack (h.symm.trans hnil)
  · rw [hnil] at h
    subst h
    exact hroot (by simpa using hs)

theorem getLast?_foldl_push (hs : stack ≠ []) (hp : ∀ n, (cs.take (n + 1)).foldl push stack ≠ []) :
    (cs.foldl push stack).getLast? = stack.getLast? := by
  induction cs generalizing stack with
  | nil => rfl
  | cons c cs ih =>
    have hc : push stack c ≠ [] := hp 0
    rw [List.foldl_cons, ih hc fun n => hp (n + 1), getLast?_push hs hc]

theorem getLast?_foldl_push_root (hs : stack.getLast? = some []) : (cs.foldl push stack).getLast? = some [] := by
  induction cs generalizing stack with
  | nil => exact hs
  | cons c cs ih => exact ih (getLast?_push_root hs)

/-- What stands first at the end of a way came there when nothing was left of the way before it. -/
theorem exists_first (h : (cs.foldl push stack).getLast? = some c) :
    stack.getLast? = some c ∨ ∃ n, cs[n]? = some c ∧ (cs.take n).foldl push stack = [] := by
  induction cs generalizing stack with
  | nil => exact .inl h
  | cons d cs ih =>
    rcases ih h with hfirst | ⟨n, hn, hnothing⟩
    · have hne : push stack d ≠ [] := by
        intro hnil
        rw [hnil] at hfirst
        cases hfirst
      by_cases hs : stack = []
      · subst hs
        refine .inr ⟨0, ?_, rfl⟩
        rcases push_cases [] d with h | h | ⟨e, h, -⟩
        · exact absurd h hne
        · rwa [h] at hfirst
        · cases h
      · exact .inl ((getLast?_push hs hne).symm.trans hfirst)
    · exact .inr ⟨n + 1, hn, hnothing⟩

def startsAtRoot (path : List Char) : Bool := path.head?.any isSeparator

def leftOf (base path : List Char) (n : Nat) : List (List Char) := ((way base path).take n).foldl push []

/-- Nothing but the start of a way makes it absolute, and nothing undoes that. -/
structure Steady (base path : List Char) : Prop where
  /-- The path is seen from somewhere: the base is not empty, and not a drive without a folder on it. -/
  based : isRooted path = true ∨ isAnchor base = false
  /-- Where nothing is left of the way, no slash and no drive follows. -/
  clear : ∀ n c, (way base path)[n + 1]? = some c → leftOf base path (n + 1) = [] → isAnchor c = false
  /-- From a drive the way never leads back above it, and ends at something on it. -/
  beyond : ∀ d, (way base path).head? = some d → isDrive d = true →
    resolveComponents base path ≠ [d] ∧ ∀ n, leftOf base path (n + 1) ≠ []

section
variable {base path : List Char}

theorem isRooted_of_startsAtRoot (h : startsAtRoot path = true) : isRooted path = true ∧ ∃ cs, components path = [] :: cs := by
  cases path with
  | nil => cases h
  | cons c path =>
    have hc : isSeparator c = true := h
    refine ⟨?_, _, by rw [components, Text.splitBy, if_pos hc]⟩
    rcases path with _ | ⟨d, _ | ⟨e, rest⟩⟩
    · exact hc
    · exact hc
    · simp [isRooted, hc]

theorem anchored_way (h : isRooted path = true ∨ isRooted base = true) :
    ∃ c cs, way base path = c :: cs ∧ isAnchor c = true := by
  have hstart : ∀ ds, anchored ds = true → ∃ c cs, ds = c :: cs ∧ isAnchor c = true
    | c :: e :: es, h => ⟨c, e :: es, rfl, h⟩
  rw [way]
  split
  · next hpath => exact hstart _ (isRooted_eq_anchored path ▸ hpath)
  · next hpath =>
    obtain ⟨c, cs, hbase, hc⟩ := hstart _ (isRooted_eq_anchored base ▸ h.resolve_left hpath)
    exact ⟨c, cs ++ components path, by rw [hbase, List.cons_append], hc⟩

/-- A way that starts at an anchor comes from an absolute path, if it is seen from somewhere. -/
theorem isRooted_of_way (hbased : isRooted path = true ∨ isAnchor base = false)
    (hway : (way base path).head? = some c) (hc : isAnchor c = true) :
    isRooted path = true ∨ isRooted base = true := by
  by_cases hpath : isRooted path = true
  · exact .inl hpath
  right
  have hbase := hbased.resolve_left hpath
  rw [way, if_neg hpath] at hway
  obtain ⟨d, ds, hd⟩ := List.exists_cons_of_ne_nil (Text.splitBy_ne_nil isSeparator base)
  have hcomponents : components base = d :: ds := hd
  rw [hcomponents, List.cons_append, List.head?_cons] at hway
  obtain rfl := Option.some.inj hway
  rw [isRooted_eq_anchored, hcomponents]
  cases ds with
  | nil =>
    rw [Text.eq_of_splitBy_eq_singleton hd, hc] at hbase
    cases hbase
  | cons e es => exact hc

end

/-- A path that starts at the root stays there, however far the way leads up, and a path on a steady way is absolute if
what it is resolved from is. -/
theorem resolve_keeps_root (base path : String) :
    (startsAtRoot path.toList = true ∨ isAbsolute path = false ∧ startsAtRoot base.toList = true →
      isAbsolute (resolve base path) = true) ∧
    (Steady base.toList path.toList →
      (isAbsolute (resolve base path) = true ↔ isAbsolute path = true ∨ isAbsolute base = true)) := by
  have hs := stacked_resolveComponents base.toList path.toList
  have htext : isAbsolute (resolve base path) = isRooted (render (resolveComponents base.toList path.toList)) := by
    rw [isAbsolute, resolve, String.toList_ofList]
  rw [htext]
  -- A way that starts with nothing before a slash never leaves the root.
  have hroot : ∀ cs, way base.toList path.toList = [] :: cs →
      isRooted (render (resolveComponents base.toList path.toList)) = true := fun cs hway => by
    have hfirst : (resolveComponents base.toList path.toList).getLast? = some [] := by
      rw [resolveComponents, ← way, hway, List.foldl_cons]
      exact getLast?_foldl_push_root (List.getLast?_singleton)
    exact (isRooted_render hs hfirst).mpr ⟨rfl, .inl rfl⟩
  refine ⟨?_, fun hsteady => ⟨fun h => ?_, fun h => ?_⟩⟩
  · rintro (hpath | ⟨hpath, hbase⟩)
    · obtain ⟨hrooted, cs, hcs⟩ := isRooted_of_startsAtRoot hpath
      exact hroot cs (by rw [way, if_pos hrooted, hcs])
    · obtain ⟨-, cs, hcs⟩ := isRooted_of_startsAtRoot hbase
      have hpath : ¬isRooted path.toList = true := Bool.eq_false_iff.mp hpath
      exact hroot _ (by rw [way, if_neg hpath, hcs, List.cons_append])
  · cases hfirst : (resolveComponents base.toList path.toList).getLast? with
    | none =>
      rw [List.getLast?_eq_none_iff.mp hfirst] at h
      cases h
    | some c =>
      have hc := ((isRooted_render hs hfirst).mp h).1
      obtain ⟨n, hn, hnothing⟩ := (exists_first hfirst).resolve_left (Option.some_ne_none c).symm
      cases n with
      | zero => exact isRooted_of_way hsteady.based (List.head?_eq_getElem?.trans hn) hc
      | succ n =>
        rw [hsteady.clear n c hn hnothing] at hc
        cases hc
  · obtain ⟨c, cs, hway, hc⟩ := anchored_way h
    by_cases hnil : c = []
    · subst hnil
      exact hroot cs hway
    -- A drive stays where it is, and as something is on it the slash behind it stays too.
    have hdrive : isDrive c = true := by simpa [isAnchor, hnil] using hc
    obtain ⟨hne, hleft⟩ := hsteady.beyond c (by rw [hway, List.head?_cons]) hdrive
    have hfirst : (resolveComponents base.toList path.toList).getLast? = some c := by
      rw [resolveComponents, ← way, hway, List.foldl_cons, push_drive hdrive]
      refine getLast?_foldl_push (List.cons_ne_nil c []) fun n => ?_
      have hn := hleft (n + 1)
      rwa [leftOf, hway, List.take_succ_cons, List.foldl_cons, push_drive hdrive] at hn
    exact (isRooted_render hs hfirst).mpr ⟨hc, .inr hne⟩

theorem steady_drive : Steady "C:\\work".toList "../a.js".toList := by
  have hresolved : resolveComponents "C:\\work".toList "../a.js".toList = ["a.js".toList, "C:".toList] := by decide
  have hlength : (way "C:\\work".toList "../a.js".toList).length = 4 := by decide
  have hleft : ∀ n, leftOf "C:\\work".toList "../a.js".toList (n + 1) ≠ []
    | 0 | 1 | 2 | 3 => by decide
    | n + 4 => by
      rw [leftOf, List.take_of_length_le (by omega)]
      decide
  exact ⟨.inr rfl, fun n c _ h => absurd h (hleft n), fun d _ _ => ⟨hresolved ▸ nofun, hleft⟩⟩

theorem resolve_keeps_root_above :
    (startsAtRoot "/src".toList = true ∧ isAbsolute (resolve "/src" "../..//a.js/") = true) ∧
    Steady "C:\\work".toList "../a.js".toList ∧ isAbsolute (resolve "C:\\work" "../a.js") = true :=
  ⟨⟨rfl, (resolve_keeps_root "/src" "../..//a.js/").1 (.inr ⟨rfl, rfl⟩)⟩, steady_drive,
    ((resolve_keeps_root "C:\\work" "../a.js").2 steady_drive).mpr (.inr rfl)⟩

/-- A slash behind a way that leads back to its start makes it absolute, and a way that leads above a drive is not
absolute any more. -/
theorem resolve_loses_root :
    (isAbsolute "src" = false ∧ isAbsolute "..//a.js" = false ∧ isAbsolute (resolve "src" "..//a.js") = true) ∧
    isAbsolute "C:\\work" = true ∧ isAbsolute (resolve "C:\\work" "../../a.js") = false := by
  decide +kernel

end Treeshake.Path
