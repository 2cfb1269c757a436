import Treeshake.Path
import Treeshake.Proofs.Text.Pieces
/-!
Resolved paths. Main statement: nothing of a resolved path can be simplified away, and a path that is resolved in two
steps is resolved in one.
-/
set_option autoImplicit false

namespace Treeshake.Path

structure IsName (c : List Char) : Prop where
  ne_nil : c ≠ []
  ne_here : c ≠ ['.']
  ne_up : c ≠ ['.', '.']
  unseparated : ∀ ch ∈ c, isSeparator ch = false

/-- Components that nothing can be simplified of: names behind the root, or behind steps up. -/
def Simplified (parts : List (List Char)) : Prop :=
  ∃ names, (∀ c ∈ names, IsName c) ∧ (parts = [] :: names ∨ ∃ ups, parts = List.replicate ups ['.', '.'] ++ names)

/-- The stacks that resolving comes to, the innermost component first. -/
inductive Stacked : List (List Char) → Prop where
  | ups (n : Nat) : Stacked (List.replicate n ['.', '.'])
  | root : Stacked [[]]
  | name {c : List Char} {stack : List (List Char)} (hc : IsName c) (h : Stacked stack) : Stacked (c :: stack)

variable {c : List Char} {stack : List (List Char)}

@[simp] theorem push_empty (stack : List (List Char)) : push stack [] = if stack = [] then [[]] else stack := by
  cases stack <;> rfl

@[simp] theorem push_name (hc : IsName c) (stack : List (List Char)) : push stack c = c :: stack := by
  simp [push, hc.ne_nil, hc.ne_here, hc.ne_up]

@[simp] theorem push_up_up (stack : List (List Char)) :
    push (['.', '.'] :: stack) ['.', '.'] = ['.', '.'] :: ['.', '.'] :: stack := by
  simp [push]

@[simp] theorem push_up_name (hc : IsName c) (stack : List (List Char)) : push (c :: stack) ['.', '.'] = stack := by
  have hne : c ≠ [] := hc.ne_nil
  have hup : c ≠ ['.', '.'] := hc.ne_up
  simp only [push]
  split <;> simp_all

theorem component_cases (h : ∀ ch ∈ c, isSeparator ch = false) :
    c = [] ∨ c = ['.'] ∨ c = ['.', '.'] ∨ IsName c := by
  by_cases hnil : c = []
  · exact .inl hnil
  by_cases hhere : c = ['.']
  · exact .inr (.inl hhere)
  by_cases hup : c = ['.', '.']
  · exact .inr (.inr (.inl hup))
  exact .inr (.inr (.inr ⟨hnil, hhere, hup, h⟩))

theorem Stacked.push (hs : Stacked stack) (h : ∀ ch ∈ c, isSeparator ch = false) : Stacked (push stack c) := by
  rcases component_cases h with rfl | rfl | rfl | hc
  · rw [push_empty]
    split
    · exact .root
    · exact hs
  · exact hs
  · cases hs with
    | ups n =>
      cases n with
      | zero => exact .ups 1
      | succ n => exact push_up_up _ ▸ .ups (n + 2)
    | root => exact .root
    | name hd hs => exact push_up_name hd _ ▸ hs
  · exact push_name hc stack ▸ .name hc hs

theorem Stacked.foldl_push {cs : List (List Char)} (hs : Stacked stack)
    (h : ∀ c ∈ cs, ∀ ch ∈ c, isSeparator ch = false) : Stacked (cs.foldl Path.push stack) := by
  induction cs generalizing stack with
  | nil => exact hs
  | cons c cs ih =>
    obtain ⟨hc, hcs⟩ := List.forall_mem_cons.mp h
    exact ih (hs.push hc) hcs

theorem Stacked.foldl_reverse (hs : Stacked stack) : stack.reverse.foldl Path.push [] = stack := by
  induction hs with
  | ups n =>
    rw [List.reverse_replicate]
    induction n with
    | zero => rfl
    | succ n ih =>
      calc (List.replicate (n + 1) ['.', '.']).foldl Path.push []
        _ = Path.push ((List.replicate n ['.', '.']).foldl Path.push []) ['.', '.'] := by
          rw [List.replicate_succ', List.foldl_append, List.foldl_cons, List.foldl_nil]
        _ = List.replicate (n + 1) ['.', '.'] := by
          rw [ih]
          cases n with
          | zero => rfl
          | succ n => exact push_up_up _
  | root => rfl
  | name hc _ ih => simp [ih, hc]

theorem Stacked.unseparated (hs : Stacked stack) : ∀ c ∈ stack, ∀ ch ∈ c, isSeparator ch = false := by
  induction hs with
  | ups n =>
    intro c hc
    obtain rfl := List.eq_of_mem_replicate hc
    have hdot : isSeparator '.' = false := by decide
    exact List.forall_mem_cons.mpr ⟨hdot, List.forall_mem_singleton.mpr hdot⟩
  | root => exact List.forall_mem_singleton.mpr (List.forall_mem_nil _)
  | name hc _ ih => exact List.forall_mem_cons.mpr ⟨hc.unseparated, ih⟩

theorem Stacked.simplified (hs : Stacked stack) : Simplified stack.reverse := by
  induction hs with
  | ups n => exact ⟨[], List.forall_mem_nil _, .inr ⟨n, by simp⟩⟩
  | root => exact ⟨[], List.forall_mem_nil _, .inl rfl⟩
  | @name c stack hc _ ih =>
    obtain ⟨names, hnames, hparts⟩ := ih
    refine ⟨names ++ [c], List.forall_mem_append.mpr ⟨hnames, List.forall_mem_singleton.mpr hc⟩, ?_⟩
    rw [List.reverse_cons]
    exact hparts.imp (fun h => by rw [h, List.cons_append]) fun ⟨n, h⟩ => ⟨n, by rw [h, List.append_assoc]⟩

/-- The components that are resolved: those of the path, behind those of the base if the path has no root. -/
def way (base path : List Char) : List (List Char) :=
  if isRooted path then components path else components base ++ components path

theorem unseparated_way (base path : List Char) : ∀ c ∈ way base path, ∀ ch ∈ c, isSeparator ch = false := by
  rw [way]
  split
  · exact fun c hc => Text.not_separator_of_mem_splitBy hc
  · exact List.forall_mem_append.mpr ⟨fun c hc => Text.not_separator_of_mem_splitBy hc,
      fun c hc => Text.not_separator_of_mem_splitBy hc⟩

theorem stacked_resolveComponents (base path : List Char) : Stacked (resolveComponents base path) :=
  (Stacked.ups 0).foldl_push (unseparated_way base path)

theorem render_eq_joinWith (hnil : stack ≠ []) (hroot : stack ≠ [[]]) :
    render stack = Text.joinWith '/' stack.reverse := by
  rw [render]
  · exact hnil
  · exact hroot

theorem Stacked.components_render (hs : Stacked stack) (hnil : stack ≠ []) (hroot : stack ≠ [[]]) :
    components (render stack) = stack.reverse := by
  rw [render_eq_joinWith hnil hroot]
  exact Text.splitBy_joinWith rfl (by simpa using hnil) (by simpa using hs.unseparated)

theorem Stacked.foldl_components (hs : Stacked stack) : (components (render stack)).foldl Path.push [] = stack := by
  by_cases hnil : stack = []
  · subst hnil
    rfl
  by_cases hroot : stack = [[]]
  · subst hroot
    rfl
  rw [hs.components_render hnil hroot]
  exact hs.foldl_reverse

def isDrive : List Char → Bool
  | [c, d] => c.isAlpha && d == ':'
  | _ => false

theorem isRooted_append {p : List Char} (q : List Char) (hp : p ≠ []) (hdrive : isDrive p = false) :
    isRooted (p ++ '/' :: q) = isRooted p := by
  match p with
  | [c] => cases q <;> simp [isRooted]
  | [c, d] => simp_all [isRooted, isDrive]
  | c :: d :: e :: rest => rfl

theorem components_append (p q : List Char) : components (p ++ '/' :: q) = components p ++ components q :=
  Text.splitBy_append rfl p q

/-- Resolving comes to the folder itself, to the root, or to a path that nothing can be simplified of; and what is
resolved against a resolved path is resolved at once, if the two paths are put together. -/
theorem resolve_simplifies_and_composes :
    (∀ base path : String, resolve base path = "." ∨ resolve base path = "/" ∨
      ∃ parts, Simplified parts ∧ parts ≠ [] ∧ parts ≠ [[]] ∧
        resolve base path = String.ofList (Text.joinWith '/' parts)) ∧
    ∀ base p q : String, isAbsolute q = false → p ≠ "" → isDrive p.toList = false →
      resolve (resolve base p) q = resolve base (p ++ "/" ++ q) := by
  refine ⟨fun base path => ?_, fun base p q hq hp hdrive => ?_⟩
  · have hs := stacked_resolveComponents base.toList path.toList
    rw [resolve]
    by_cases hnil : resolveComponents base.toList path.toList = []
    · exact .inl (by rw [hnil]; rfl)
    by_cases hroot : resolveComponents base.toList path.toList = [[]]
    · exact .inr (.inl (by rw [hroot]; rfl))
    refine .inr (.inr ⟨_, hs.simplified, by simpa using hnil, by simpa using hroot, ?_⟩)
    rw [render_eq_joinWith hnil hroot]
  · have hp' : p.toList ≠ [] := by simpa using hp
    have htext : (p ++ "/" ++ q).toList = p.toList ++ '/' :: q.toList := by simp
    have hq' : isRooted q.toList = false := hq
    have hs := stacked_resolveComponents base.toList p.toList
    rw [resolve, resolve, resolve, String.toList_ofList, htext]
    have hfirst : resolveComponents (render (resolveComponents base.toList p.toList)) q.toList =
        (components q.toList).foldl push (resolveComponents base.toList p.toList) := by
      rw [resolveComponents, hq', if_neg Bool.false_ne_true, List.foldl_append, hs.foldl_components]
    rw [hfirst, resolveComponents, resolveComponents, isRooted_append _ hp' hdrive, components_append]
    split <;> simp only [List.foldl_append]

theorem resolve_simplifies_and_composes_above :
    isAbsolute "../../../b.js" = false ∧ "..//a/." ≠ "" ∧ isDrive "..//a/.".toList = false ∧
      resolve "src/lib" "..//a/." = "src/a" ∧ resolve "src/a" "../../../b.js" = "../b.js" ∧
      resolve "src/lib" ("..//a/." ++ "/" ++ "../../../b.js") = "../b.js" := by
  have hfirst : resolve "src/lib" "..//a/." = "src/a" := by decide
  have hsecond : resolve "src/a" "../../../b.js" = "../b.js" := by decide
  refine ⟨rfl, by decide, rfl, hfirst, hsecond, ?_⟩
  rw [← resolve_simplifies_and_composes.2 _ _ _ rfl (by decide) rfl, hfirst, hsecond]

end Treeshake.Path
