import Treeshake.Output.Wrapper
import Treeshake.Proofs.Graph.Distinct
/-!
The names of external modules in the output. Main statement: what is imported from one external module has names of
its own but for the default export and the whole, which share one, unless the default export has a variable of its
own; and the names that import lines and wrappers introduce are apart from each other and from those of the modules,
but for these two and for such variables, whose names are made when all others are given.
-/
set_option autoImplicit false

namespace Treeshake

theorem nodup_flatMap_iff {α β : Type} {l : List α} {f : α → List β} : (l.flatMap f).Nodup ↔
    (∀ a ∈ l, (f a).Nodup) ∧ ∀ (i j : Nat) (a a' : α) (b : β), l[i]? = some a → l[j]? = some a' →
      b ∈ f a → b ∈ f a' → i = j := by
  rw [List.nodup_flatMap, List.pairwise_iff_getElem]
  refine and_congr_right fun _ => ⟨fun h i j a a' b hi hj hb hb' => ?_, fun h i j hi hj hlt b hb hb' => ?_⟩
  · obtain ⟨hi', rfl⟩ := List.getElem?_eq_some_iff.mp hi
    obtain ⟨hj', rfl⟩ := List.getElem?_eq_some_iff.mp hj
    rcases Nat.lt_trichotomy i j with hlt | heq | hlt
    · exact absurd hb' (h i j hi' hj' hlt hb)
    · exact heq
    · exact absurd hb (h j i hj' hi' hlt hb')
  · have heq := h i j _ _ b (List.getElem?_eq_getElem hi) (List.getElem?_eq_getElem hj) hb hb'
    omega

namespace External

variable {e : External} {key key' : String}

def ownDefault (e : External) : Bool := e.declarations.has "default" && e.exportsNames

def defaultName (e : External) : String := e.name ++ "__default"

theorem name_ne_defaultName (e : External) : e.name ≠ e.defaultName := by
  intro h
  have hlength := congrArg String.length h
  rw [defaultName, String.length_append] at hlength
  have hpositive : "__default".length = 9 := rfl
  omega

theorem interop?_eq (e : External) : e.interop? = if e.declarations.has "default" then
    some ((if e.ownDefault then "var " ++ e.defaultName else e.name) ++
      s!" = 'default' in {e.name} ? {e.name}['default'] : {e.name};") else none := by
  rw [interop?, ownDefault]
  split
  · next hdefault =>
    dsimp only
    rw [hdefault, Bool.true_and]
    congr 1
    split
    · simp only [defaultName, String.append_assoc]
      rfl
    · rfl
  · rfl

/-- What stands behind the name of an external module for a name imported from it, outside the module format. -/
def behind (e : External) (key : String) : String :=
  if key = "*" then "" else if key = "default" then (if e.exportsNames then "__default" else "") else "." ++ key

def Merges (e : External) (es6 : Bool) (key key' : String) : Prop :=
  (es6 = true ∨ e.exportsNames = false) ∧ (key = "default" ∧ key' = "*" ∨ key = "*" ∧ key' = "default")

theorem behind_of_named (h : key ≠ "default") (h' : key ≠ "*") : e.behind key = "." ++ key := by
  rw [behind, if_neg h', if_neg h]

theorem behind_eq (hkey : key = "default" ∨ key = "*") : e.behind key = "" ∨ e.behind key = "__default" := by
  rcases hkey with rfl | rfl
  · rw [behind, if_neg (by decide), if_pos rfl]
    split
    · exact .inr rfl
    · exact .inl rfl
  · exact .inl rfl

theorem dot_ne_behind (hkey : key' = "default" ∨ key' = "*") : "." ++ key ≠ e.behind key' := by
  intro h
  have htext := congrArg String.toList h
  rw [String.toList_append] at htext
  rcases behind_eq (e := e) hkey with heq | heq <;> rw [heq] at htext
  · cases htext
  · exact absurd (List.cons.inj htext).1 (by decide)

theorem behind_inj (hne : key ≠ key') : e.behind key = e.behind key' ↔ e.Merges false key key' := by
  by_cases hkey : key = "default" ∨ key = "*"
  · by_cases hkey' : key' = "default" ∨ key' = "*"
    · have hdefault : e.behind "default" = e.behind "*" ↔ e.exportsNames = false := by
        cases he : e.exportsNames <;> simp [behind, he]
      rcases hkey with rfl | rfl <;> rcases hkey' with rfl | rfl
      · exact absurd rfl hne
      · simp [hdefault, Merges]
      · rw [eq_comm, hdefault]
        simp [Merges]
      · exact absurd rfl hne
    · have hnot := hkey'
      rw [not_or] at hnot
      rw [behind_of_named hnot.1 hnot.2]
      exact ⟨fun h => absurd h.symm (dot_ne_behind hkey), fun h => absurd (h.2.elim (.inr ·.2) (.inl ·.2)) hkey'⟩
  · have hnot := hkey
    rw [not_or] at hnot
    rw [behind_of_named hnot.1 hnot.2]
    refine ⟨fun h => ?_, fun h => absurd (h.2.elim (.inl ·.1) (.inr ·.1)) hkey⟩
    by_cases hkey' : key' = "default" ∨ key' = "*"
    · exact absurd h (dot_ne_behind hkey')
    · rw [not_or] at hkey'
      rw [behind_of_named hkey'.1 hkey'.2, String.append_right_inj] at h
      exact absurd h hne

end External

namespace Wrapper

def wholeClauses (e : External) : List (String × String) :=
  (if e.declarations.has "default" then [("", e.name)] else []) ++
    (if e.declarations.has "*" then [("* as ", e.name)] else [])

theorem name_of_mem_wholeClauses {e : External} {clause : String × String} (h : clause ∈ wholeClauses e) :
    clause.2 = e.name := by
  rcases List.mem_append.mp h with h | h <;> split at h <;> simp at h <;> rw [h]

def namedClauses (g : Graph) (e : External) : List (String × String) :=
  (e.declarations.filter fun (key, _) => key != "default" && key != "*").map fun (key, id) =>
    let name := ((g.declaration? id).map (·.name)).getD key
    (if name == key then "" else key ++ " as ", name)

def BindsNamed (item name : String) : Prop := item = name ∨ ∃ key, item = key ++ " as " ++ name

/-- The clauses of one import line and the names that they bind: the default export, if it is imported, and then the
whole or names in braces. -/
inductive Clauses : List String → List String → Prop
  | default (name : String) : Clauses [name] [name]
  | whole (front : Option String) (name : String) :
      Clauses (front.toList ++ ["* as " ++ name]) (front.toList ++ [name])
  | named (front : Option String) {items names : List String} (h : List.Forall₂ BindsNamed items names) :
      Clauses (front.toList ++ [r"{ " ++ commas items ++ r" }"]) (front.toList ++ names)

/-- The import lines of a module and the names that they bind. -/
inductive Imports (id : String) : String → List String → Prop
  | bare : Imports id ("import '" ++ id ++ "';") []
  | line {clauses names : List String} (h : Clauses clauses names) :
      Imports id ("import " ++ commas clauses ++ " from '" ++ id ++ "';") names
  | lines {text text' : String} {names names' : List String} (h : Imports id text names)
      (h' : Imports id text' names') : Imports id (text ++ "\n" ++ text') (names ++ names')

theorem bindsNamed_namedClauses (g : Graph) (e : External) : List.Forall₂ BindsNamed
    ((e.declarations.filter fun (key, _) => key != "default" && key != "*").map fun (key, id) =>
      let name := ((g.declaration? id).map (·.name)).getD key
      if name == key then name else key ++ " as " ++ name) ((namedClauses g e).map (·.2)) := by
  rw [namedClauses, List.map_map, List.forall₂_map_left_iff, List.forall₂_map_right_iff, List.forall₂_same]
  rintro ⟨key, id⟩ -
  dsimp only [Function.comp_apply]
  split
  · exact .inl rfl
  · exact .inr ⟨key, rfl⟩

theorem imports_importStatement (g : Graph) (e : External) :
    Imports e.id (importStatement g e) ((wholeClauses e ++ namedClauses g e).map (·.2)) := by
  have hnamed := bindsNamed_namedClauses g e
  rw [List.map_append, importStatement, wholeClauses]
  dsimp only
  generalize (e.declarations.filter fun (key, _) => key != "default" && key != "*").map _ = items at hnamed ⊢
  generalize (namedClauses g e).map (·.2) = names at hnamed ⊢
  have hwhole := fun front => @Imports.line e.id _ _ (Clauses.whole front e.name)
  have hline := fun front => @Imports.line e.id _ _ (Clauses.named front hnamed)
  cases hstar : e.declarations.has "*" with
  | false =>
    cases hnamed with
    | nil =>
      cases e.declarations.has "default" with
      | false => exact .bare
      | true => exact .line (.default e.name)
    | cons =>
      cases e.declarations.has "default" with
      | false => exact hline none
      | true => exact hline (some e.name)
  | true =>
    cases hnamed with
    | nil =>
      cases e.declarations.has "default" with
      | false => exact hwhole none
      | true => exact hwhole (some e.name)
    | cons =>
      cases e.declarations.has "default" with
      | false => exact .lines (hwhole none) (hline none)
      | true => exact .lines (hwhole (some e.name)) (hline none)

end Wrapper

namespace Graph

variable {g h k : Graph}

/-- What lets a name be told: the registers of external modules agree with the declarations, and whatever has a name
has one of its own. -/
structure Told (k : Graph) : Prop where
  sound : k.Sound
  keys : ∀ e ∈ k.externals, e.declarations.keys.Nodup
  named : ∀ b, k.Bears b → ∃ name, b.name? k = some name
  apart : ∀ b b' name, k.Bears b → k.Bears b' → b.name? k = some name → b'.name? k = some name → b = b'

theorem told_deconflict {passes : Nat} {order : List Nat} (hg : g.Linked) (hmark : mark.run g = .ok (passes, h))
    (horder : order.Perm (List.range h.modules.length)) : Told (h.deconflict order).1 := by
  obtain ⟨R, n, hR, hw⟩ := hg.wired
  have hG : Grown g h := Scans.grown hR hw (.refl g) (mark_settles hR hw hmark).1
  have hall : ∀ i, i < h.modules.length → i ∈ order := fun i hi => horder.mem_iff.mpr (List.mem_range.mpr hi)
  obtain ⟨n, hn, hdistinct⟩ := distinct_deconflict h order
  refine ⟨(renamed_deconflict h order).sound (hG.sound hw.fits.sound), fun e he => ?_, fun b hb => hb.named hg hmark,
    fun b b' name hb hb' hname hname' => ?_⟩
  · have hmem : e.declarations ∈ h.externals.map (·.declarations) :=
      externals_deconflict h order ▸ List.mem_map_of_mem he
    obtain ⟨e', he', heq⟩ := List.mem_map.mp hmem
    exact heq ▸ (hg.registered_mark hmark).names e' he'
  · exact hdistinct.apart b (List.mem_reverse.mpr (hb.mem_bearers hall)) b'
      (List.mem_reverse.mpr (hb'.mem_bearers hall)) name (hn ▸ hname) (hn ▸ hname')

section
variable {e e' : External} {i j id id' : Nat} {key key' name : String}

theorem renderName_outside {d : Declaration} (hd : k.declaration? id = some d) (hkind : d.kind = .external i key)
    (he : k.externals[i]? = some e) (es6 : Bool) : k.renderName id es6 = externalName e d key es6 := by
  rw [renderName, nameWithin, hd]
  dsimp only
  rw [hkind]
  dsimp only
  rw [he]

theorem externalName_false (e : External) (d : Declaration) (key : String) :
    externalName e d key false = e.name ++ e.behind key := by
  rw [externalName, External.behind]
  by_cases hwhole : key = "*"
  · simp [hwhole]
  · by_cases hdefault : key = "default"
    · cases e.exportsNames <;> simp [hdefault]
    · simp [hwhole, hdefault, String.append_assoc]

theorem externalName_true (e : External) (d : Declaration) (key : String) :
    externalName e d key true = if key = "default" ∨ key = "*" then e.name else d.name := by
  rw [externalName]
  by_cases hwhole : key = "*"
  · simp [hwhole]
  · by_cases hdefault : key = "default" <;> simp [hwhole, hdefault]

theorem bears_named (he : k.externals[i]? = some e) (hid : (key, id) ∈ e.declarations) (hdefault : key ≠ "default")
    (hwhole : key ≠ "*") : k.Bears (.declaration id) :=
  .imported e key id (List.mem_of_getElem? he) hid hdefault hwhole

theorem bears_external (he : k.externals[i]? = some e) : k.Bears (.external i) :=
  .external i (List.getElem?_eq_some_iff.mp he).1

theorem name?_of_external (he : k.externals[i]? = some e) : (Bearer.external i).name? k = some e.name := by
  rw [Bearer.name?, he, Option.map_some]

def OfExternal (k : Graph) (i : Nat) (b : Bearer) : Prop :=
  b = .external i ∨ ∃ key id, b = .declaration id ∧ k.entity? id = some (.outside i key)

theorem OfExternal.unique {b : Bearer} (h : k.OfExternal i b) (h' : k.OfExternal j b) : i = j := by
  rcases h with rfl | ⟨key, id, rfl, hid⟩
  · rcases h' with heq | ⟨key, id, heq, -⟩ <;> cases heq
    rfl
  · rcases h' with heq | ⟨key', id', heq, hid'⟩ <;> cases heq
    cases Option.some.inj (hid.symm.trans hid')
    rfl

/-- The top-level names that the output introduces for an external module: in the module format what its import lines
bind, and elsewhere the module and the variable of its default export. -/
def introduced (g : Graph) (es6 : Bool) (e : External) : List String :=
  if es6 then (Wrapper.wholeClauses e ++ Wrapper.namedClauses g e).map (·.2)
  else e.name :: if e.ownDefault then [e.defaultName] else []

def ShowsName (g : Graph) (name : String) : Prop :=
  ∃ (i : Nat) (m : LinkedModule) (id : Nat), g.modules[i]? = some m ∧ id ∈ g.renderedDeclarations m ∧
    (Bearer.declaration id).name? g = some name

theorem mem_introduced_other :
    name ∈ k.introduced false e ↔ name = e.name ∨ e.ownDefault = true ∧ name = e.defaultName := by
  rw [introduced, if_neg Bool.false_ne_true, List.mem_cons]
  refine or_congr_right ?_
  split <;> simp_all

variable (hk : Told k)
include hk

theorem Told.outside (he : k.externals[i]? = some e) (hid : (key, id) ∈ e.declarations) :
    k.entity? id = some (.outside i key) ∧ ∃ d, k.declaration? id = some d ∧ d.kind = .external i key := by
  have hget : e.declarations.get? key = some id := Table.get?_of_mem (hk.keys e (List.mem_of_getElem? he)) hid
  have hentity := (hk.sound.external i key id).mp (by rw [externalId?, he, Option.bind_some, hget])
  refine ⟨hentity, ?_⟩
  obtain ⟨d, hd, hkind⟩ := Option.map_eq_some_iff.mp hentity
  refine ⟨d, hd, ?_⟩
  rw [Declaration.entity] at hkind
  split at hkind
  · cases hkind
  · next heq =>
    cases hkind
    exact heq
  · cases hkind

/-- Two names imported from an external module are written alike if they are its default export and the whole, and
these have one name. -/
theorem Told.renderName_eq_iff (he : k.externals[i]? = some e) (hid : (key, id) ∈ e.declarations)
    (hid' : (key', id') ∈ e.declarations) (hne : key ≠ key') (es6 : Bool) :
    k.renderName id es6 = k.renderName id' es6 ↔ e.Merges es6 key key' := by
  obtain ⟨hentity, d, hd, hkind⟩ := hk.outside he hid
  obtain ⟨hentity', d', hd', hkind'⟩ := hk.outside he hid'
  rw [renderName_outside hd hkind he, renderName_outside hd' hkind' he]
  cases es6 with
  | false => rw [externalName_false, externalName_false, String.append_right_inj, External.behind_inj hne]
  | true =>
    rw [externalName_true, externalName_true]
    have hname : (Bearer.declaration id).name? k = some d.name := by rw [Bearer.name?, hd, Option.map_some]
    have hname' : (Bearer.declaration id').name? k = some d'.name := by rw [Bearer.name?, hd', Option.map_some]
    -- Only the default export and the whole have the name of the module, which no other import has.
    by_cases hkey : key = "default" ∨ key = "*" <;> by_cases hkey' : key' = "default" ∨ key' = "*"
    · rw [if_pos hkey, if_pos hkey']
      refine iff_of_true rfl ⟨.inl rfl, ?_⟩
      rcases hkey with rfl | rfl <;> rcases hkey' with rfl | rfl <;> simp at hne ⊢
    · rw [if_pos hkey, if_neg hkey']
      refine iff_of_false (fun h => ?_) fun h => hkey' (h.2.elim (.inr ·.2) (.inl ·.2))
      rw [not_or] at hkey'
      cases hk.apart _ _ _ (bears_external he) (bears_named he hid' hkey'.1 hkey'.2) (name?_of_external he) (h ▸ hname')
    · rw [if_neg hkey, if_pos hkey']
      refine iff_of_false (fun h => ?_) fun h => hkey (h.2.elim (.inl ·.1) (.inr ·.1))
      rw [not_or] at hkey
      cases hk.apart _ _ _ (bears_external he) (bears_named he hid hkey.1 hkey.2) (name?_of_external he) (h ▸ hname)
    · rw [if_neg hkey, if_neg hkey']
      refine iff_of_false (fun h => ?_) fun h => hkey (h.2.elim (.inl ·.1) (.inr ·.1))
      rw [not_or] at hkey hkey'
      cases hk.apart _ _ _ (bears_named he hid hkey.1 hkey.2) (bears_named he hid' hkey'.1 hkey'.2) hname (h ▸ hname')
      cases Option.some.inj (hentity.symm.trans hentity')
      exact hne rfl

theorem Told.clause_named (he : k.externals[i]? = some e) (hid : (key, id) ∈ e.declarations)
    (hnamed : (key != "default" && key != "*") = true) :
    ((k.declaration? id).map (·.name)).getD key = k.renderName id true ∧
      k.Bears (.declaration id) ∧ (Bearer.declaration id).name? k = some (k.renderName id true) := by
  obtain ⟨-, d, hd, hkind⟩ := hk.outside he hid
  simp only [Bool.and_eq_true, bne_iff_ne] at hnamed
  have hname : k.renderName id true = d.name := by
    rw [renderName_outside hd hkind he, externalName_true, if_neg (by simp [hnamed])]
  refine ⟨?_, bears_named he hid hnamed.1 hnamed.2, ?_⟩
  · rw [hname, hd, Option.map_some, Option.getD_some]
  · rw [hname, Bearer.name?, hd, Option.map_some]

theorem Told.bears_of_mem_namedClauses {clause : String × String} (he : k.externals[i]? = some e)
    (hclause : clause ∈ Wrapper.namedClauses k e) : ∃ key id, k.Bears (.declaration id) ∧
      (Bearer.declaration id).name? k = some clause.2 ∧ k.entity? id = some (.outside i key) := by
  obtain ⟨⟨key, id⟩, hentry, rfl⟩ := List.mem_map.mp hclause
  obtain ⟨hid, hnamed⟩ := List.mem_filter.mp hentry
  obtain ⟨hlocal, hbears, hcalled⟩ := hk.clause_named he hid hnamed
  exact ⟨key, id, hbears, hcalled.trans (congrArg some hlocal.symm), (hk.outside he hid).1⟩

theorem Told.introduced_es6 (he : k.externals[i]? = some e) (hname : name ∈ k.introduced true e) :
    ∃ b, k.Bears b ∧ b.name? k = some name ∧ k.OfExternal i b := by
  obtain ⟨clause, hclause, rfl⟩ := List.mem_map.mp hname
  rcases List.mem_append.mp hclause with hclause | hclause
  · refine ⟨.external i, bears_external he, ?_, .inl rfl⟩
    rw [name?_of_external he, Wrapper.name_of_mem_wholeClauses hclause]
  · obtain ⟨key, id, hbears, hcalled, hentity⟩ := hk.bears_of_mem_namedClauses he hclause
    exact ⟨.declaration id, hbears, hcalled, .inr ⟨key, id, rfl, hentity⟩⟩

theorem Told.nodup_introduced_es6 (he : k.externals[i]? = some e) : (k.introduced true e).Nodup ↔
    ¬(e.declarations.has "default" = true ∧ e.declarations.has "*" = true) := by
  rw [introduced, if_pos rfl, List.map_append, List.nodup_append]
  refine ⟨fun ⟨hwhole, _⟩ ⟨hdefault, hstar⟩ => ?_, fun hnot => ⟨?_, ?_, ?_⟩⟩
  · simp [Wrapper.wholeClauses, hdefault, hstar] at hwhole
  · rw [Wrapper.wholeClauses]
    cases hdefault : e.declarations.has "default" <;> cases hstar : e.declarations.has "*" <;> simp_all
  · have hkeys := (List.pairwise_map.mp (hk.keys e (List.mem_of_getElem? he))).filter
      fun entry => entry.1 != "default" && entry.1 != "*"
    rw [Wrapper.namedClauses, List.map_map]
    refine List.pairwise_map.mpr (hkeys.imp_of_mem fun {a b} ha hb hne => ?_)
    obtain ⟨key, id⟩ := a
    obtain ⟨key', id'⟩ := b
    obtain ⟨hid, hnamed⟩ := List.mem_filter.mp ha
    obtain ⟨hid', hnamed'⟩ := List.mem_filter.mp hb
    show ((k.declaration? id).map (·.name)).getD key ≠ ((k.declaration? id').map (·.name)).getD key'
    rw [(hk.clause_named he hid hnamed).1, (hk.clause_named he hid' hnamed').1, Ne,
      hk.renderName_eq_iff he hid hid' hne]
    rintro ⟨-, ⟨rfl, -⟩ | ⟨rfl, -⟩⟩ <;> simp at hnamed
  · rintro name hname _ hname' rfl
    obtain ⟨clause, hclause, rfl⟩ := List.mem_map.mp hname
    obtain ⟨clause', hclause', heq⟩ := List.mem_map.mp hname'
    obtain ⟨key, id, hbears, hcalled, -⟩ := hk.bears_of_mem_namedClauses he hclause'
    rw [heq, Wrapper.name_of_mem_wholeClauses hclause] at hcalled
    cases hk.apart _ _ _ hbears (bears_external he) hcalled (name?_of_external he)

theorem Told.name_inj (he : k.externals[i]? = some e) (he' : k.externals[j]? = some e') (h : e.name = e'.name) :
    i = j :=
  Bearer.external.inj (hk.apart _ _ _ (bears_external he) (bears_external he') (name?_of_external he)
    (h ▸ name?_of_external he'))

theorem Told.not_showsName {b : Bearer} (hb : k.Bears b) (hname : b.name? k = some name) (hi : k.OfExternal i b) :
    ¬k.ShowsName name := by
  rintro ⟨l, m, id, hm, hid, hname'⟩
  have hinternal := hk.sound.isInternal hm hid
  cases hk.apart _ _ _ hb (bears_of_rendered hm hid) hname hname'
  rcases hi with hi | ⟨key, id', hi, hentity⟩
  · cases hi
  · cases hi
    obtain ⟨e, he, hnot⟩ := isInternal_iff.mp hinternal
    exact hnot _ _ (Option.some.inj (he.symm.trans hentity))

end

section
variable (hk : Told k)
include hk

theorem Told.nodup_es6 : (k.externals.flatMap (k.introduced true)).Nodup ↔
    ∀ e ∈ k.externals, ¬(e.declarations.has "default" = true ∧ e.declarations.has "*" = true) := by
  rw [nodup_flatMap_iff]
  refine ⟨fun ⟨h, _⟩ e he => ?_, fun h => ⟨fun e he => ?_, fun i j e e' name he he' hname hname' => ?_⟩⟩
  · obtain ⟨i, hi⟩ := List.mem_iff_getElem?.mp he
    exact (hk.nodup_introduced_es6 hi).mp (h e he)
  · obtain ⟨i, hi⟩ := List.mem_iff_getElem?.mp he
    exact (hk.nodup_introduced_es6 hi).mpr (h e he)
  · obtain ⟨b, hb, hcalled, hof⟩ := hk.introduced_es6 he hname
    obtain ⟨b', hb', hcalled', hof'⟩ := hk.introduced_es6 he' hname'
    obtain rfl := hk.apart b b' name hb hb' hcalled hcalled'
    exact hof.unique hof'

theorem Told.apart_other : ((k.externals.flatMap (k.introduced false)).Nodup ∧
      ∀ name ∈ k.externals.flatMap (k.introduced false), ¬k.ShowsName name) ↔
    ∀ e ∈ k.externals, e.ownDefault = true →
      (∀ e' ∈ k.externals, e'.name ≠ e.defaultName) ∧ ¬k.ShowsName e.defaultName := by
  rw [nodup_flatMap_iff]
  constructor
  · rintro ⟨⟨-, hunique⟩, hshown⟩ e he hown
    obtain ⟨i, hi⟩ := List.mem_iff_getElem?.mp he
    have hmem : e.defaultName ∈ k.introduced false e := mem_introduced_other.mpr (.inr ⟨hown, rfl⟩)
    refine ⟨fun e' he' heq => ?_, hshown _ (List.mem_flatMap.mpr ⟨e, he, hmem⟩)⟩
    obtain ⟨j, hj⟩ := List.mem_iff_getElem?.mp he'
    obtain rfl := hunique i j e e' _ hi hj hmem (mem_introduced_other.mpr (.inl heq.symm))
    obtain rfl := Option.some.inj (hi.symm.trans hj)
    exact e.name_ne_defaultName heq
  · intro h
    refine ⟨⟨fun e he => ?_, fun i j e e' name he he' hname hname' => ?_⟩, fun name hname => ?_⟩
    · rw [introduced, if_neg Bool.false_ne_true]
      split
      · simpa using e.name_ne_defaultName
      · exact List.nodup_singleton _
    · have hmem := List.mem_of_getElem? he
      have hmem' := List.mem_of_getElem? he'
      rcases mem_introduced_other.mp hname with rfl | ⟨hown, rfl⟩
      · rcases mem_introduced_other.mp hname' with heq | ⟨hown', heq⟩
        · exact hk.name_inj he he' heq
        · exact absurd heq ((h e' hmem' hown').1 e hmem)
      · rcases mem_introduced_other.mp hname' with heq | ⟨-, heq⟩
        · exact absurd heq.symm ((h e hmem hown).1 e' hmem')
        · exact hk.name_inj he he' ((String.append_left_inj _).mp heq)
    · obtain ⟨e, he, hname⟩ := List.mem_flatMap.mp hname
      obtain ⟨i, hi⟩ := List.mem_iff_getElem?.mp he
      rcases mem_introduced_other.mp hname with rfl | ⟨hown, rfl⟩
      · exact hk.not_showsName (bears_external hi) (name?_of_external hi) (.inl rfl)
      · exact (h e he hown).2

end

/-- In a graph that is linked, marked and de-conflicted, two names imported from one external module are written
alike just if they are its default export and the whole, and the default export has no variable of its own. The names
that import lines bind are apart unless some bind both, and never that of what a module shows. Outside the module
format, what is introduced is apart, and from what modules show too, unless something is called as the variable of
a default export. That is what is introduced: import lines bind those names, and the line for a default export
declares its variable, or else assigns to the name of the module. -/
theorem introduced_names_apart {passes : Nat} {order : List Nat} (hg : g.Linked)
    (hmark : mark.run g = .ok (passes, h)) (horder : order.Perm (List.range h.modules.length))
    (hk : k = (h.deconflict order).1) :
    (∀ (i : Nat) (e : External), k.externals[i]? = some e → ∀ key id key' id', (key, id) ∈ e.declarations →
      (key', id') ∈ e.declarations → key ≠ key' → ∀ es6,
        (k.renderName id es6 = k.renderName id' es6 ↔ e.Merges es6 key key')) ∧
    ((k.externals.flatMap (k.introduced true)).Nodup ↔
      ∀ e ∈ k.externals, ¬(e.declarations.has "default" = true ∧ e.declarations.has "*" = true)) ∧
    (∀ name ∈ k.externals.flatMap (k.introduced true), ¬k.ShowsName name) ∧
    (((k.externals.flatMap (k.introduced false)).Nodup ∧
        ∀ name ∈ k.externals.flatMap (k.introduced false), ¬k.ShowsName name) ↔
      ∀ e ∈ k.externals, e.ownDefault = true →
        (∀ e' ∈ k.externals, e'.name ≠ e.defaultName) ∧ ¬k.ShowsName e.defaultName) ∧
    (∀ e ∈ k.externals, Wrapper.Imports e.id (Wrapper.importStatement k e) (k.introduced true e) ∧
      e.interop? = if e.declarations.has "default" then
        some ((if e.ownDefault then "var " ++ e.defaultName else e.name) ++
          s!" = 'default' in {e.name} ? {e.name}['default'] : {e.name};") else none) := by
  subst hk
  have hk := told_deconflict hg hmark horder
  refine ⟨fun i e he key id key' id' hid hid' hne es6 => hk.renderName_eq_iff he hid hid' hne es6, hk.nodup_es6,
    fun name hname => ?_, hk.apart_other, fun e _ => ⟨Wrapper.imports_importStatement _ e, e.interop?_eq⟩⟩
  obtain ⟨e, he, hname⟩ := List.mem_flatMap.mp hname
  obtain ⟨i, hi⟩ := List.mem_iff_getElem?.mp he
  obtain ⟨b, hb, hcalled, hof⟩ := hk.introduced_es6 hi hname
  exact hk.not_showsName hb hcalled hof

theorem introduced_names_apart_namesakes : ∃ g h passes k, g.Linked ∧ mark.run g = .ok (passes, h) ∧
    [1, 0].Perm (List.range h.modules.length) ∧ k = (h.deconflict [1, 0]).1 ∧
    k.externals.flatMap (k.introduced true) = ["a$2"] ∧ ¬k.ShowsName "a$2" := by
  have hrun : (bind.run (ofModules namesakes [{ id := "a", name := "a" }])).toOption.bind (fun p =>
      (mark.run p.2).toOption.map fun q =>
        let k := (q.2.deconflict [1, 0]).1
        (q.2.modules.length, k.externals.flatMap (k.introduced true))) = some (2, ["a$2"]) := by
    cbv
  obtain ⟨⟨stats, g⟩, hbind, hrun⟩ := Option.bind_eq_some_iff.mp hrun
  obtain ⟨⟨passes, h⟩, hmark, hvalue⟩ := Option.map_eq_some_iff.mp hrun
  obtain ⟨hlength, hnames⟩ := Prod.mk.inj hvalue
  have hg : g.Linked := ⟨_, _, stats, fetched_namesakes, ok_of_toOption hbind⟩
  have hperm : [1, 0].Perm (List.range h.modules.length) := by
    rw [show h.modules.length = 2 from hlength]
    decide
  refine ⟨g, h, passes, _, hg, ok_of_toOption hmark, hperm, rfl, hnames, ?_⟩
  refine (introduced_names_apart hg (ok_of_toOption hmark) hperm rfl).2.2.1 "a$2" ?_
  rw [show List.flatMap _ _ = _ from hnames]
  exact List.mem_singleton_self _

def importsAll : List (Module × Table Target) :=
  [(wholeModule "0" .variable [{ name := "ext", start := 0, stop := 3, scope := 0 },
      { name := "ns", start := 4, stop := 6, scope := 0 }, { name := "x", start := 7, stop := 8, scope := 0 },
      { name := "ext__default", start := 9, stop := 21, scope := 0 }]
      [("ext", ⟨"ext", "default", 0⟩), ("ns", ⟨"ext", "*", 0⟩), ("x", ⟨"ext", "x", 0⟩)] []
      [⟨"ext__default", "ext__default", some 0⟩],
      [("ext", .outside 0)])]

theorem fetched_importsAll : Fetched importsAll [{ id := "ext", name := "ext" }] := by
  have htargets : ∀ e ∈ importsAll, ∀ s t, e.2.get? s = some t → s ∈ e.1.sources ∧ t = .outside 0 := by
    intro e he s t h
    obtain rfl := List.mem_singleton.mp he
    obtain ⟨rfl, rfl⟩ := Prod.mk.inj (List.mem_singleton.mp (lookup_mem h))
    exact ⟨by decide, rfl⟩
  refine ⟨fun e he => ?_, fun e he s t h => (htargets e he s t h).1, fun e he s i h => ?_,
    fun e he s i h => ?_, fun e he => ?_⟩
  · obtain rfl := List.mem_singleton.mp he
    exact ⟨by decide, by decide, by decide⟩
  · cases (htargets e he s _ h).2
  · cases (htargets e he s _ h).2
    decide
  · obtain rfl := List.mem_singleton.mp he
    rfl

/-- The default export and the whole of a module are imported by one name, and what is declared is called as the
variable of the default export. -/
theorem introduced_names_clash : ∃ g h passes k e id id', g.Linked ∧ mark.run g = .ok (passes, h) ∧
    [0].Perm (List.range h.modules.length) ∧ k = (h.deconflict [0]).1 ∧ k.externals[0]? = some e ∧
    e.declarations.get? "default" = some id ∧ e.declarations.get? "*" = some id' ∧
    k.renderName id true = k.renderName id' true ∧ k.introduced true e = ["ext", "ext", "x"] ∧
    k.introduced false e = ["ext", "ext__default"] ∧ k.ShowsName "ext__default" := by
  have hrun : (bind.run (ofModules importsAll [{ id := "ext", name := "ext" }])).toOption.bind (fun p =>
      (mark.run p.2).toOption.bind fun q =>
        let k := (q.2.deconflict [0]).1
        k.modules[0]?.bind fun m => k.externals[0]?.map fun e => (q.2.modules.length, k.renderedDeclarations m,
          k.declarations.map (·.name), e.declarations, k.renderName 1 true, k.renderName 2 true,
          k.introduced true e, k.introduced false e)) =
      some (1, [0], ["ext__default", "default", "*", "x"], [("default", 1), ("*", 2), ("x", 3)], "ext", "ext",
        ["ext", "ext", "x"], ["ext", "ext__default"]) := by
    cbv
  obtain ⟨⟨stats, g⟩, hbind, hrun⟩ := Option.bind_eq_some_iff.mp hrun
  obtain ⟨⟨passes, h⟩, hmark, hrun⟩ := Option.bind_eq_some_iff.mp hrun
  obtain ⟨m, hm, hrun⟩ := Option.bind_eq_some_iff.mp hrun
  obtain ⟨e, he, hvalue⟩ := Option.map_eq_some_iff.mp hrun
  simp only [Prod.mk.injEq] at hvalue
  obtain ⟨hlength, hshown, hnames, hdeclarations, hdefault, hwhole, hes6, hother⟩ := hvalue
  refine ⟨g, h, passes, _, e, 1, 2, ⟨_, _, stats, fetched_importsAll, ok_of_toOption hbind⟩, ok_of_toOption hmark,
    ?_, rfl, he, ?_, ?_, hdefault.trans hwhole.symm, hes6, hother, 0, m, 0, hm, ?_, ?_⟩
  · rw [hlength]
    decide
  · rw [hdeclarations]
    rfl
  · rw [hdeclarations]
    rfl
  · rw [hshown]
    exact List.mem_singleton_self 0
  · rw [Bearer.name?, declaration?, ← List.getElem?_map, hnames]
    rfl

end Graph

end Treeshake
