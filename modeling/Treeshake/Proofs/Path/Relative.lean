import Treeshake.Proofs.Path.Rooted
/-!
The way from a file to another place. Main statement: seen from the folder of the file, it leads to that place.
-/
set_option autoImplicit false

namespace Treeshake

theorem Text.joinWith_append_singleton {sep : Char} {ws : List (List Char)} (w : List Char) (hne : ws ≠ []) :
    joinWith sep (ws ++ [w]) = joinWith sep ws ++ sep :: w := joinWith_append hne (List.cons_ne_nil w [])

namespace Path

variable {c : List Char} {root names rest stack : List (List Char)}

/-! Folders. -/

theorem dirname_of_unseparated {p : List Char} (hp : ∀ ch ∈ p, isSeparator ch = false) :
    dirname (String.ofList p) = "." := by
  have hall : p.reverse.dropWhile (!isSeparator ·) = [] := by
    rw [← List.append_nil p.reverse, List.dropWhile_append_of_pos (by simpa using hp)]
    rfl
  simp only [dirname, String.toList_ofList, hall, List.reverse_nil]

theorem dirname_append {sep : Char} (hsep : isSeparator sep = true) {q : List Char}
    (hq : ∀ ch ∈ q, isSeparator ch = false) (p : List Char) :
    dirname (String.ofList (p ++ sep :: q)) = if p = [] then "/" else String.ofList p := by
  have hlast : (p ++ sep :: q).reverse.dropWhile (!isSeparator ·) = sep :: p.reverse := by
    rw [List.reverse_append, List.reverse_cons, List.append_assoc,
      List.dropWhile_append_of_pos (by simpa using hq), List.singleton_append,
      List.dropWhile_cons_of_neg (by simp [hsep])]
  simp only [dirname, String.toList_ofList, hlast, List.reverse_cons, List.reverse_reverse]
  match p with
  | [] => rfl
  | [_] => rfl
  | d :: e :: p =>
    have hdrop : ((d :: e :: p) ++ [sep]).dropLast = d :: e :: p := List.dropLast_concat
    exact congrArg String.ofList hdrop

theorem Stacked.render_ne_nil (hs : Stacked stack) : render stack ≠ [] := by
  intro h
  have hstack := hs.foldl_components
  rw [h] at hstack
  subst hstack
  cases h

theorem render_name (hc : IsName c) (stack : List (List Char)) : render (c :: stack) =
    if stack = [] then c else (if stack = [[]] then [] else render stack) ++ '/' :: c := by
  rw [render_eq_joinWith (List.cons_ne_nil c stack) fun h => hc.ne_nil (List.cons.inj h).1, List.reverse_cons]
  split
  · next hnil =>
    subst hnil
    rfl
  next hnil =>
  rw [Text.joinWith_append_singleton c (by simpa using hnil)]
  split
  · next hroot =>
    subst hroot
    rfl
  · next hroot => rw [render_eq_joinWith hnil hroot]

theorem dirname_render (hc : IsName c) (hs : Stacked stack) :
    dirname (String.ofList (render (c :: stack))) = String.ofList (render stack) := by
  rw [render_name hc]
  split
  · next hnil =>
    subst hnil
    exact dirname_of_unseparated hc.unseparated
  rw [dirname_append (by decide) hc.unseparated]
  by_cases hroot : stack = [[]]
  · subst hroot
    rfl
  · rw [if_neg hroot, if_neg hs.render_ne_nil]

theorem startsAtRoot_render (hc : IsName c) (hs : Stacked stack) :
    startsAtRoot (render (c :: stack)) = startsAtRoot (render stack) := by
  rw [render_name hc]
  split
  · next hnil =>
    subst hnil
    obtain ⟨x, xs, rfl⟩ := List.exists_cons_of_ne_nil hc.ne_nil
    exact hc.unseparated x List.mem_cons_self
  by_cases hroot : stack = [[]]
  · subst hroot
    rfl
  · obtain ⟨x, xs, hx⟩ := List.exists_cons_of_ne_nil hs.render_ne_nil
    rw [if_neg hroot, hx]
    rfl

/-! Paths that are as simple as can be. -/

/-- What a path starts with: nothing in front of a slash, or no component at all. -/
def startOf (path : List Char) : List (List Char) := if startsAtRoot path then [[]] else []

theorem stacked_startOf (path : List Char) : Stacked (startOf path) := by
  rw [startOf]
  split
  · exact .root
  · exact .ups 0

theorem reverse_startOf (path : List Char) : (startOf path).reverse = startOf path := by
  rw [startOf]
  split <;> rfl

theorem stacked_append (hnames : ∀ c ∈ names, IsName c) (hs : Stacked stack) : Stacked (names ++ stack) := by
  induction names with
  | nil => exact hs
  | cons c names ih =>
    obtain ⟨hc, hnames⟩ := List.forall_mem_cons.mp hnames
    exact .name hc (ih hnames)

theorem Stacked.exists_names (hs : Stacked stack) : ∃ names, (∀ c ∈ names, IsName c) ∧
    (startOf (render stack) = [[]] ∧ stack = names ++ [[]] ∨
      startOf (render stack) = [] ∧ ∃ n, stack = names ++ List.replicate n ['.', '.']) := by
  induction hs with
  | ups n =>
    refine ⟨[], List.forall_mem_nil _, .inr ⟨?_, n, rfl⟩⟩
    match n with
    | 0 | 1 => rfl
    | n + 2 =>
      have hjoin : render (List.replicate (n + 2) ['.', '.']) =
          Text.joinWith '/' (List.replicate (n + 2) ['.', '.']) := by
        rw [render_eq_joinWith (by simp) (by simp [List.replicate_succ]), List.reverse_replicate]
      rw [hjoin]
      rfl
  | root => exact ⟨[], List.forall_mem_nil _, .inl ⟨rfl, rfl⟩⟩
  | @name c stack hc hs ih =>
    obtain ⟨names, hnames, hstack⟩ := ih
    refine ⟨c :: names, List.forall_mem_cons.mpr ⟨hc, hnames⟩, ?_⟩
    rw [startOf, startsAtRoot_render hc hs, ← startOf]
    exact hstack.imp (fun ⟨hroot, h⟩ => ⟨hroot, congrArg (c :: ·) h⟩)
      fun ⟨hroot, n, h⟩ => ⟨hroot, n, congrArg (c :: ·) h⟩

theorem Stacked.mem_components (hs : Stacked stack) (hc : c ∈ stack) : c ∈ components (render stack) := by
  have hnil : stack ≠ [] := List.ne_nil_of_mem hc
  by_cases hroot : stack = [[]]
  · subst hroot
    obtain rfl := List.mem_singleton.mp hc
    decide
  · rw [hs.components_render hnil hroot]
    exact List.mem_reverse.mpr hc

theorem exists_names_of_not_up (hs : Stacked stack)
    (hup : startsAtRoot (render stack) = true ∨ ['.', '.'] ∉ components (render stack)) :
    ∃ names, (∀ c ∈ names, IsName c) ∧ stack = names ++ startOf (render stack) := by
  obtain ⟨names, hnames, ⟨hstart, h⟩ | ⟨hstart, n, h⟩⟩ := hs.exists_names
  · exact ⟨names, hnames, by rw [hstart, ← h]⟩
  · refine ⟨names, hnames, ?_⟩
    cases n with
    | zero =>
      rw [hstart]
      exact h
    | succ n =>
      have hmem := hs.mem_components (h ▸ List.mem_append_right _ List.mem_cons_self)
      rw [startOf, if_pos (hup.resolve_right (absurd hmem))] at hstart
      cases hstart

theorem exists_folder (hs : Stacked stack)
    (hup : startsAtRoot (render stack) = true ∨ ['.', '.'] ∉ components (render stack)) :
    ∃ names, (∀ c ∈ names, IsName c) ∧
      dirname (String.ofList (render stack)) = String.ofList (render (names ++ startOf (render stack))) ∧
      (components (render stack)).dropLast = startOf (render stack) ++ names.reverse := by
  obtain ⟨names, hnames, hstack⟩ := exists_names_of_not_up hs hup
  cases names with
  | nil =>
    have hstart : stack = [[]] ∨ stack = [] := by
      rw [hstack, startOf]
      split
      · exact .inl rfl
      · exact .inr rfl
    rcases hstart with rfl | rfl <;> exact ⟨[], List.forall_mem_nil _, rfl, rfl⟩
  | cons c names =>
    obtain ⟨hc, hnames⟩ := List.forall_mem_cons.mp hnames
    have hstacked := stacked_append hnames (stacked_startOf (render stack))
    have hreverse := reverse_startOf (render stack)
    generalize startOf (render stack) = root at hstack hstacked hreverse ⊢
    subst hstack
    refine ⟨names, hnames, dirname_render hc hstacked, ?_⟩
    rw [hs.components_render (by simp) fun h => hc.ne_nil (List.cons.inj h).1, List.cons_append, List.reverse_cons,
      List.dropLast_concat, List.reverse_append, hreverse]

/-- What comes behind the start of a path that names no drive: something, and nothing that would make it absolute if it
stood first with more behind it. -/
theorem exists_rest (hs : Stacked stack) (hdrive : ∀ c ∈ components (render stack), isDrive c = false) :
    ∃ rest, rest ≠ [] ∧ components (render stack) = startOf (render stack) ++ rest ∧
      ∀ c ∈ rest, isAnchor c = true → rest = [c] := by
  suffices h : ∃ rest, rest ≠ [] ∧ components (render stack) = startOf (render stack) ++ rest ∧
      ([] ∈ rest → rest = [[]]) by
    obtain ⟨rest, hne, hcomponents, hempty⟩ := h
    refine ⟨rest, hne, hcomponents, fun c hc hanchor => ?_⟩
    have hc' := hdrive c (hcomponents ▸ List.mem_append_right _ hc)
    rw [isAnchor, hc', Bool.or_false, List.isEmpty_iff] at hanchor
    subst hanchor
    exact hempty hc
  obtain ⟨names, hnames, ⟨hstart, rfl⟩ | ⟨hstart, n, rfl⟩⟩ := hs.exists_names
  · rw [hstart]
    cases names with
    | nil => exact ⟨[[]], List.cons_ne_nil _ _, rfl, fun _ => rfl⟩
    | cons c names =>
      have hroot : c :: names ++ [[]] ≠ [[]] := by simp
      refine ⟨(c :: names).reverse, by simp, ?_, fun hmem => ?_⟩
      · rw [hs.components_render (by simp) hroot, List.reverse_append]
        rfl
      · exact absurd rfl (hnames [] (List.mem_reverse.mp hmem)).ne_nil
  · rw [hstart]
    by_cases hnil : names ++ List.replicate n ['.', '.'] = []
    · rw [hnil]
      exact ⟨[['.']], List.cons_ne_nil _ _, rfl, by decide⟩
    · have hempty : [] ∉ names ++ List.replicate n ['.', '.'] := fun hmem => by
        rcases List.mem_append.mp hmem with hmem | hmem
        · exact absurd rfl (hnames [] hmem).ne_nil
        · cases List.eq_of_mem_replicate hmem
      have hroot : names ++ List.replicate n ['.', '.'] ≠ [[]] := fun h => hempty (h ▸ List.mem_cons_self)
      exact ⟨_, mt List.reverse_eq_nil_iff.mp hnil, hs.components_render hnil hroot,
        fun hmem => absurd (List.mem_reverse.mp hmem) hempty⟩

/-! The common start of two ways. -/

theorem dropCommon_append (common as bs : List (List Char)) :
    dropCommon (common ++ as) (common ++ bs) = dropCommon as bs := by
  induction common with
  | nil => rfl
  | cons c common ih =>
    rw [List.cons_append, List.cons_append, dropCommon, if_pos (beq_self_eq_true c), ih]

theorem exists_common (as bs : List (List Char)) :
    ∃ common, as = common ++ (dropCommon as bs).1 ∧ bs = common ++ (dropCommon as bs).2 := by
  fun_induction dropCommon as bs with
  | case1 a as b bs hab ih =>
    obtain ⟨common, has, hbs⟩ := ih
    obtain rfl := eq_of_beq hab
    exact ⟨a :: common, congrArg (a :: ·) has, congrArg (a :: ·) hbs⟩
  | case2 | case3 => exact ⟨[], rfl, rfl⟩

theorem foldl_up (hnames : ∀ c ∈ names, IsName c) (stack : List (List Char)) :
    (List.replicate names.length ['.', '.']).foldl push (names ++ stack) = stack := by
  induction names with
  | nil => rfl
  | cons c names ih =>
    obtain ⟨hc, hnames⟩ := List.forall_mem_cons.mp hnames
    rw [List.length_cons, List.replicate_succ, List.foldl_cons, List.cons_append, push_up_name hc, ih hnames]

theorem foldl_components_joinWith {parts : List (List Char)} (h : ∀ c ∈ parts, ∀ ch ∈ c, isSeparator ch = false)
    (hne : parts ≠ [] ∨ stack ≠ []) :
    (components (Text.joinWith '/' parts)).foldl push stack = parts.foldl push stack := by
  by_cases hparts : parts = []
  · subst hparts
    have hstack := hne.resolve_left (absurd rfl)
    show push stack [] = stack
    rw [push_empty, if_neg hstack]
  · rw [components, Text.splitBy_joinWith rfl hparts h]

theorem isRooted_joinWith {parts : List (List Char)} (h : ∀ c ∈ parts, ∀ ch ∈ c, isSeparator ch = false) :
    isRooted (Text.joinWith '/' parts) = anchored parts := by
  by_cases hparts : parts = []
  · subst hparts
    rfl
  · rw [isRooted_eq_anchored, components, Text.splitBy_joinWith rfl hparts h]

/-- Steps up are not absolute, nor is anything else where what would be an anchor stands alone. -/
theorem anchored_up (n : Nat) {down : List (List Char)} (hanchor : ∀ c d ds, down = c :: d :: ds → isAnchor c = false) :
    anchored (List.replicate n ['.', '.'] ++ down) = false := by
  cases n with
  | zero =>
    match down with
    | [] | [_] => rfl
    | c :: d :: ds => exact hanchor c d ds rfl
  | succ n =>
    rw [List.replicate_succ, List.cons_append]
    cases List.replicate n ['.', '.'] ++ down <;> rfl

/-- From a folder the way to other components leads to them: the steps up take back the names that are not in common. -/
theorem resolveComponents_dropCommon {path : List Char} (hnames : ∀ c ∈ names, IsName c) (hne : rest ≠ [])
    (hrest : ∀ c ∈ rest, ∀ ch ∈ c, isSeparator ch = false) (hanchor : ∀ c ∈ rest, isAnchor c = true → rest = [c]) :
    resolveComponents (render (names ++ startOf path)) (Text.joinWith '/'
      ((dropCommon names.reverse rest).1.map (fun _ => ['.', '.']) ++ (dropCommon names.reverse rest).2)) =
      (startOf path ++ rest).foldl push [] := by
  obtain ⟨common, hup, hdown⟩ := exists_common names.reverse rest
  generalize dropCommon names.reverse rest = way at hup hdown ⊢
  obtain ⟨up, down⟩ := way
  obtain rfl : names = up.reverse ++ common.reverse := by
    rw [← List.reverse_append, ← hup, List.reverse_reverse]
  subst hdown
  obtain ⟨hups, hcommon⟩ := List.forall_mem_append.mp hnames
  obtain ⟨-, hdown⟩ := List.forall_mem_append.mp hrest
  have hfolder := stacked_append hnames (stacked_startOf path)
  have hstart := stacked_append hcommon (stacked_startOf path)
  dsimp only
  rw [List.map_const']
  have hparts : ∀ c ∈ List.replicate up.length ['.', '.'] ++ down, ∀ ch ∈ c, isSeparator ch = false := by
    refine List.forall_mem_append.mpr ⟨fun c hc => ?_, hdown⟩
    rw [List.eq_of_mem_replicate hc]
    simp [isSeparator]
  have hrooted : isRooted (Text.joinWith '/' (List.replicate up.length ['.', '.'] ++ down)) = false := by
    rw [isRooted_joinWith hparts]
    refine anchored_up _ fun c d ds hcd => Bool.eq_false_iff.mpr fun hc => ?_
    have hlength := congrArg List.length (hanchor c (by simp [hcd]) hc)
    simp [hcd] at hlength
    omega
  have hsomething : List.replicate up.length ['.', '.'] ++ down ≠ [] ∨
      up.reverse ++ common.reverse ++ startOf path ≠ [] := by
    by_cases hcommon : common = []
    · exact .inl fun h => hne (by rw [hcommon, (List.append_eq_nil_iff.mp h).2]; rfl)
    · exact .inr (by simp [hcommon])
  calc resolveComponents (render (up.reverse ++ common.reverse ++ startOf path)) (Text.joinWith '/' _)
    _ = (List.replicate up.length ['.', '.'] ++ down).foldl push (up.reverse ++ common.reverse ++ startOf path) := by
      rw [resolveComponents, hrooted, if_neg Bool.false_ne_true, List.foldl_append, hfolder.foldl_components,
        foldl_components_joinWith hparts hsomething]
    _ = down.foldl push (common.reverse ++ startOf path) := by
      rw [List.foldl_append, List.append_assoc, ← List.length_reverse, foldl_up hups]
    _ = (startOf path ++ (common ++ down)).foldl push [] := by
      have hback := hstart.foldl_reverse
      rw [List.reverse_append, List.reverse_reverse, reverse_startOf] at hback
      rw [← List.append_assoc, List.foldl_append, hback]

/-- Seen from the folder of a path, the way from the path to another one leads to the other one, if resolving leaves
both as they are, both start at the root or neither does, the first does not lead up and the second names no drive. -/
theorem resolve_relative {source target : String} (hs : resolve "." source = source) (ht : resolve "." target = target)
    (hroot : startsAtRoot source.toList = startsAtRoot target.toList)
    (hup : startsAtRoot source.toList = true ∨ ['.', '.'] ∉ components source.toList)
    (hdrive : ∀ c ∈ components target.toList, isDrive c = false) :
    resolve (dirname source) (relative source target) = target := by
  have hsource := stacked_resolveComponents ".".toList source.toList
  have htarget := stacked_resolveComponents ".".toList target.toList
  generalize hS : resolveComponents ".".toList source.toList = S at hsource
  generalize hT : resolveComponents ".".toList target.toList = T at htarget
  obtain rfl : source = String.ofList (render S) := by rw [← hS, ← resolve, hs]
  obtain rfl : target = String.ofList (render T) := by rw [← hT, ← resolve, ht]
  simp only [String.toList_ofList] at hroot hup hdrive
  obtain ⟨names, hnames, hfolder, hfront⟩ := exists_folder hsource hup
  obtain ⟨rest, hne, hcomponents, hanchor⟩ := exists_rest htarget hdrive
  have hstart : startOf (render T) = startOf (render S) := by rw [startOf, startOf, hroot]
  rw [hstart] at hcomponents
  have hrest : ∀ c ∈ rest, ∀ ch ∈ c, isSeparator ch = false := fun c hc =>
    Text.not_separator_of_mem_splitBy (show c ∈ components (render T) from hcomponents ▸ List.mem_append_right _ hc)
  have hway : (relative (String.ofList (render S)) (String.ofList (render T))).toList = Text.joinWith '/'
      ((dropCommon names.reverse rest).1.map (fun _ => ['.', '.']) ++ (dropCommon names.reverse rest).2) := by
    simp only [relative, String.toList_ofList, hfront, hcomponents, dropCommon_append]
  rw [resolve, hfolder, hway, String.toList_ofList, resolveComponents_dropCommon hnames hne hrest hanchor,
    ← hcomponents, htarget.foldl_components]

theorem resolve_relative_above :
    relative "/src/lib/a.js" "/src" = ".." ∧
      resolve (dirname "/src/lib/a.js") (relative "/src/lib/a.js" "/src") = "/src" ∧
    relative "/src/a.js" "/" = "../" ∧ resolve (dirname "/src/a.js") (relative "/src/a.js" "/") = "/" ∧
    relative "lib/a.js" "../b.js" = "../../b.js" ∧
      resolve (dirname "lib/a.js") (relative "lib/a.js" "../b.js") = "../b.js" := by
  have hlib : resolve "." "/src/lib/a.js" = "/src/lib/a.js" := by decide +kernel
  have hsrc : resolve "." "/src" = "/src" := by decide +kernel
  have hfile : resolve "." "/src/a.js" = "/src/a.js" := by decide +kernel
  have hroot : resolve "." "/" = "/" := by decide +kernel
  have hinner : resolve "." "lib/a.js" = "lib/a.js" := by decide +kernel
  have houter : resolve "." "../b.js" = "../b.js" := by decide +kernel
  exact ⟨by decide +kernel, resolve_relative hlib hsrc rfl (.inl rfl) (by decide +kernel),
    by decide +kernel, resolve_relative hfile hroot rfl (.inl rfl) (by decide +kernel),
    by decide +kernel, resolve_relative hinner houter rfl (.inr (by decide +kernel)) (by decide +kernel)⟩

end Path

end Treeshake
