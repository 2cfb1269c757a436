import Treeshake.Fetch.Package
import Treeshake.Proofs.Fallible
import Treeshake.Proofs.Path.Relative
/-!
Where packages are looked for. Main statement: in the folders around the importing module, from the nearest to the
root, and the first of them that holds the package decides, by the path inside it or by its manifest.
-/
set_option autoImplicit false

namespace Treeshake

namespace Path

/-- The folders that a path names on its way, the nearest first: the texts before its separators, and the root. -/
structure Folders (path : String) (dirs : List String) : Prop where
  mem : ∀ dir, dir ∈ dirs ↔ dir = "/" ∨
    dir ≠ "" ∧ ∃ sep rest, isSeparator sep = true ∧ path.toList = dir.toList ++ sep :: rest
  nearer : dirs.Pairwise fun dir above => above.length < dir.length

theorem Folders.unique {path : String} {dirs dirs' : List String} (h : Folders path dirs) (h' : Folders path dirs') :
    dirs = dirs' := by
  have hnodup : ∀ {dirs : List String}, Folders path dirs → dirs.Nodup := by
    refine fun h => h.nearer.imp ?_
    rintro dir _ hlt rfl
    exact Nat.lt_irrefl _ hlt
  have hperm : dirs.Perm dirs' :=
    (List.perm_ext_iff_of_nodup (hnodup h) (hnodup h')).mpr fun dir => by rw [h.mem, h'.mem]
  exact hperm.eq_of_pairwise (fun _ _ _ _ hab hba => absurd (Nat.lt_trans hab hba) (Nat.lt_irrefl _)) h.nearer h'.nearer

def Before (path dir : List Char) : Prop := ∃ sep rest, isSeparator sep = true ∧ path = dir ++ sep :: rest

def Encloses (path dir : List Char) : Prop := dir = ['/'] ∨ dir ≠ [] ∧ Before path dir

variable {sep : Char} {a b d : List Char}

theorem exists_last_separator {path : List Char} (h : ∃ c ∈ path, isSeparator c = true) :
    ∃ a sep b, path = a ++ sep :: b ∧ isSeparator sep = true ∧ ∀ c ∈ b, isSeparator c = false := by
  induction path with
  | nil =>
    obtain ⟨c, hc, -⟩ := h
    cases hc
  | cons x path ih =>
    by_cases hrest : ∃ c ∈ path, isSeparator c = true
    · obtain ⟨a, sep, b, rfl, hsep, hb⟩ := ih hrest
      exact ⟨x :: a, sep, b, rfl, hsep, hb⟩
    · have hnone : ∀ c ∈ path, isSeparator c = false := by simpa using hrest
      obtain ⟨c, hc, hsep⟩ := h
      rcases List.mem_cons.mp hc with rfl | hc
      · exact ⟨[], c, path, rfl, hsep, hnone⟩
      · rw [hnone c hc] at hsep
        cases hsep

theorem before_append_iff (hsep : isSeparator sep = true) (hb : ∀ c ∈ b, isSeparator c = false) :
    Before (a ++ sep :: b) d ↔ d = a ∨ Before a d := by
  constructor
  · rintro ⟨sep', rest, hsep', heq⟩
    rcases List.append_eq_append_iff.mp heq with ⟨x, rfl, hx⟩ | ⟨x, rfl, hx⟩
    · cases x with
      | nil => exact .inl (List.append_nil a)
      | cons y x =>
        obtain ⟨rfl, rfl⟩ := List.cons.inj hx
        have := hb sep' (List.mem_append_right _ List.mem_cons_self)
        rw [hsep'] at this
        cases this
    · cases x with
      | nil => exact .inl (List.append_nil d).symm
      | cons y x =>
        obtain ⟨rfl, rfl⟩ := List.cons.inj hx
        exact .inr ⟨sep', x, hsep', rfl⟩
  · rintro (rfl | ⟨sep', rest, hsep', rfl⟩)
    · exact ⟨sep, b, hsep, rfl⟩
    · exact ⟨sep', rest ++ sep :: b, hsep', by simp⟩

theorem not_before_nil : ¬Before [] d := by
  rintro ⟨sep, rest, -, h⟩
  exact List.append_ne_nil_of_right_ne_nil d (List.cons_ne_nil sep rest) h.symm

theorem encloses_append_iff (hsep : isSeparator sep = true) (hb : ∀ c ∈ b, isSeparator c = false) :
    Encloses (a ++ sep :: b) d ↔ d = ['/'] ∨ d ≠ [] ∧ (d = a ∨ Before a d) := by
  rw [Encloses, before_append_iff hsep hb]

theorem encloses_under_root (hb : ∀ c ∈ b, isSeparator c = false) : Encloses ('/' :: b) d ↔ d = ['/'] := by
  rw [← List.nil_append ('/' :: b), encloses_append_iff (by decide) hb]
  constructor
  · rintro (h | ⟨hd, h | h⟩)
    · exact h
    · exact absurd h hd
    · exact absurd h not_before_nil
  · exact .inl

theorem dirname_of_rooted {path : String} (hroot : path.toList.head? = some '/') :
    (dirname path).toList.head? = some '/' ∧
      (dirname path = path ∧ path = "/" ∨ (dirname path).length < path.length) ∧
      ∀ d : String, Encloses path.toList d.toList ↔ d = dirname path ∨ Encloses (dirname path).toList d.toList := by
  obtain ⟨a, sep, b, hpath, hsep, hb⟩ := exists_last_separator ⟨'/', List.mem_of_head? hroot, by decide⟩
  have hdirname : dirname path = if a = [] then "/" else String.ofList a := by
    rw [← dirname_append hsep hb a, ← hpath, String.ofList_toList]
  rw [hpath] at hroot ⊢
  rw [hdirname, ← String.length_toList (s := path), hpath]
  by_cases ha : a = []
  · subst ha
    obtain rfl : sep = '/' := Option.some.inj hroot
    rw [if_pos rfl]
    refine ⟨rfl, ?_, fun d => ?_⟩
    · cases b with
      | nil =>
        have heq : path = "/" := String.toList_inj.mp hpath
        exact .inl ⟨heq.symm, heq⟩
      | cons c b =>
        have hlength : "/".length = 1 := rfl
        exact .inr (by simp [hlength])
    · have heq : Encloses "/".toList d.toList ↔ d.toList = ['/'] := encloses_under_root (List.forall_mem_nil _)
      rw [List.nil_append, encloses_under_root hb, heq, ← String.toList_inj]
      exact (or_self_iff).symm
  · rw [if_neg ha, String.toList_ofList]
    refine ⟨?_, .inr (by simp), fun d => ?_⟩
    · obtain ⟨c, a, rfl⟩ := List.exists_cons_of_ne_nil ha
      exact hroot
    · rw [encloses_append_iff hsep hb, Encloses, ← String.toList_inj, String.toList_ofList]
      constructor
      · rintro (h | ⟨hd, h | h⟩)
        · exact .inr (.inl h)
        · exact .inl h
        · exact .inr (.inr ⟨hd, h⟩)
      · rintro (rfl | h | ⟨hd, h⟩)
        · exact .inr ⟨ha, .inl rfl⟩
        · exact .inl h
        · exact .inr ⟨hd, .inr h⟩

end Path

namespace Package

open Treeshake.Path

def placeIn (dir package : String) : String := Path.resolve dir ("node_modules/" ++ package)

/-- Looking for a package from a folder outwards, with the folders that are tested one after the other and the place
where the package is found. -/
inductive Climbs (isDirectory : String → Bool) (package : String) : String → List String → Option String → Prop where
  | found {dir : String} (h : isDirectory (placeIn dir package) = true) :
      Climbs isDirectory package dir [dir] (some (placeIn dir package))
  | top {dir : String} (h : isDirectory (placeIn dir package) = false) (htop : dirname dir = dir) :
      Climbs isDirectory package dir [dir] none
  | up {dir : String} {tested : List String} {place : Option String} (h : isDirectory (placeIn dir package) = false)
      (htop : dirname dir ≠ dir) (hup : Climbs isDirectory package (dirname dir) tested place) :
      Climbs isDirectory package dir (dir :: tested) place

/-- The folders of a list that are tested for a package, and where it is: all and nowhere, or all up to the first that
holds it. -/
inductive Nearest (isDirectory : String → Bool) (package : String) (dirs : List String) :
    List String → Option String → Prop where
  | nowhere (h : ∀ dir ∈ dirs, isDirectory (placeIn dir package) = false) : Nearest isDirectory package dirs dirs none
  | first {before after : List String} {dir : String} (heq : dirs = before ++ dir :: after)
      (hbefore : ∀ d ∈ before, isDirectory (placeIn d package) = false)
      (hdir : isDirectory (placeIn dir package) = true) :
      Nearest isDirectory package dirs (before ++ [dir]) (some (placeIn dir package))

/-- A folder and those around it, each the folder of the one before, to one that is its own. -/
inductive Outwards : String → List String → Prop where
  | top {dir : String} (htop : dirname dir = dir) : Outwards dir [dir]
  | up {dir : String} {dirs : List String} (htop : dirname dir ≠ dir) (hup : Outwards (dirname dir) dirs) :
      Outwards dir (dir :: dirs)

variable {isDirectory : String → Bool} {package importer : String} {dirs : List String} {dir : String}

/-- No path that starts at the root is further from it than it is long. -/
theorem outwards_outward {fuel : Nat} (hroot : dir.toList.head? = some '/') (hfuel : dir.length ≤ fuel + 1) :
    Outwards dir (outward fuel dir) := by
  induction fuel generalizing dir with
  | zero =>
    obtain ⟨hhead, ⟨htop, -⟩ | hshort, -⟩ := dirname_of_rooted hroot
    · exact .top htop
    · have hempty : (dirname dir).toList = [] := by
        rw [← List.length_eq_zero_iff, String.length_toList]
        omega
      rw [hempty] at hhead
      cases hhead
  | succ fuel ih =>
    rw [outward]
    split
    · next htop => exact .top (eq_of_beq htop)
    · next htop =>
      obtain ⟨hhead, hcases, -⟩ := dirname_of_rooted hroot
      have hne : dirname dir ≠ dir := by simpa using htop
      have hshort := hcases.resolve_left fun h => hne h.1
      exact .up hne (ih hhead (by omega))

theorem Outwards.mem_iff (h : Outwards dir dirs) (hroot : dir.toList.head? = some '/') (d : String) :
    d ∈ dirs ↔ d = dir ∨ Encloses dir.toList d.toList := by
  induction h with
  | @top dir htop =>
    obtain ⟨-, hcases, hencloses⟩ := dirname_of_rooted hroot
    obtain ⟨-, rfl⟩ := hcases.resolve_right fun h => by
      rw [htop] at h
      exact Nat.lt_irrefl _ h
    have heq : Encloses "/".toList d.toList ↔ d.toList = ['/'] := encloses_under_root (List.forall_mem_nil _)
    rw [List.mem_singleton, heq, ← String.toList_inj]
    exact or_self_iff.symm
  | @up dir dirs htop _ ih =>
    obtain ⟨hhead, -, hencloses⟩ := dirname_of_rooted hroot
    rw [List.mem_cons, ih hhead, hencloses]

theorem Outwards.shorter (h : Outwards dir dirs) (hroot : dir.toList.head? = some '/') :
    (∀ d ∈ dirs, d.length ≤ dir.length) ∧ dirs.Pairwise fun dir above => above.length < dir.length := by
  induction h with
  | @top dir htop =>
    exact ⟨List.forall_mem_singleton.mpr (Nat.le_refl _), List.pairwise_singleton _ _⟩
  | @up dir dirs htop _ ih =>
    obtain ⟨hhead, hcases, -⟩ := dirname_of_rooted hroot
    have hshort := hcases.resolve_left fun h => htop h.1
    obtain ⟨hle, hpairwise⟩ := ih hhead
    have hlt : ∀ d ∈ dirs, d.length < dir.length := fun d hd => Nat.lt_of_le_of_lt (hle d hd) hshort
    exact ⟨List.forall_mem_cons.mpr ⟨Nat.le_refl _, fun d hd => Nat.le_of_lt (hlt d hd)⟩,
      List.pairwise_cons.mpr ⟨hlt, hpairwise⟩⟩

theorem folders_outward {path : String} (hroot : path.toList.head? = some '/') :
    Folders path (outward ((dirname path).length + 1) (dirname path)) := by
  obtain ⟨hhead, -, hencloses⟩ := dirname_of_rooted hroot
  have houtwards : Outwards (dirname path) (outward ((dirname path).length + 1) (dirname path)) :=
    outwards_outward hhead (by omega)
  refine ⟨fun dir => ?_, (houtwards.shorter hhead).2⟩
  rw [houtwards.mem_iff hhead, ← hencloses, Encloses, Before, ← String.toList_inj, ne_eq dir, ← String.toList_inj]
  exact Iff.rfl

theorem Outwards.climbs (h : Outwards dir dirs) (isDirectory : String → Bool) (package : String) : ∃ tested place,
    Climbs isDirectory package dir tested place ∧ Nearest isDirectory package dirs tested place := by
  induction h with
  | @top dir htop =>
    cases hdir : isDirectory (placeIn dir package) with
    | true => exact ⟨_, _, .found hdir, @Nearest.first _ _ _ [] _ _ rfl (List.forall_mem_nil _) hdir⟩
    | false => exact ⟨_, _, .top hdir htop, .nowhere (List.forall_mem_singleton.mpr hdir)⟩
  | @up dir dirs htop _ ih =>
    cases hdir : isDirectory (placeIn dir package) with
    | true => exact ⟨_, _, .found hdir, @Nearest.first _ _ _ [] _ _ rfl (List.forall_mem_nil _) hdir⟩
    | false =>
      obtain ⟨tested, place, hclimbs, hnearest⟩ := ih
      refine ⟨_, _, .up hdir htop hclimbs, ?_⟩
      cases hnearest with
      | nowhere h => exact .nowhere (List.forall_mem_cons.mpr ⟨hdir, h⟩)
      | first heq hbefore hfound =>
        exact .first (congrArg (dir :: ·) heq) (List.forall_mem_cons.mpr ⟨hdir, hbefore⟩) hfound

/-- An id taken apart: its package is the first component, or the first two if it names a scope, and what is left is a
path inside the package. -/
inductive Parts (id : String) : String → Option String → Prop where
  | whole (h : id.toList.count '/' < if id.startsWith "@" then 2 else 1) : Parts id id none
  | inside {package rest : String} (heq : id = package ++ "/" ++ rest)
      (h : package.toList.count '/' + 1 = if id.startsWith "@" then 2 else 1) :
      Parts id package (if rest.isEmpty then none else some rest)

theorem Parts.unique {id package' : String} {inner inner' : Option String} (h : Parts id package inner)
    (h' : Parts id package' inner') : package = package' ∧ inner = inner' := by
  have hcount : ∀ {package rest : String}, id = package ++ "/" ++ rest →
      package.toList.count '/' + 1 ≤ id.toList.count '/' := by
    rintro package rest rfl
    simp only [String.toList_append, List.count_append]
    have hslash : "/".toList.count '/' = 1 := rfl
    omega
  cases h with
  | whole h =>
    cases h' with
    | whole => exact ⟨rfl, rfl⟩
    | inside heq' h' =>
      have := hcount heq'
      omega
  | @inside _ rest heq h =>
    cases h' with
    | whole h' =>
      have := hcount heq
      omega
    | @inside _ rest' heq' h' =>
      have hlists : package.toList ++ '/' :: rest.toList = package'.toList ++ '/' :: rest'.toList := by
        simpa using congrArg String.toList (heq.symm.trans heq')
      obtain ⟨hpackage, hrest⟩ := Text.eq_of_count_eq hlists (by omega)
      rw [String.toList_inj.mp hpackage, String.toList_inj.mp hrest]
      exact ⟨rfl, rfl⟩

theorem parts_split {id : String} (h : isAbsolute id = false) : Parts id (split id).1 (split id).2 := by
  have hpieces : ∀ w ∈ Text.splitBy (· == '/') id.toList, '/' ∉ w := fun w hw hslash => by
    simpa using Text.not_separator_of_mem_splitBy hw '/' hslash
  have hwhole : Text.joinWith '/' (Text.splitBy (· == '/') id.toList) = id.toList :=
    Text.joinWith_splitBy (fun _ => eq_of_beq) id.toList
  have hnonempty := Text.splitBy_ne_nil (· == '/') id.toList
  rw [split]
  generalize hcount : (if id.startsWith "@" then 2 else 1) = count
  generalize Text.splitBy (· == '/') id.toList = pieces at hpieces hwhole hnonempty
  have hpos : 0 < count := by
    rw [← hcount]
    split <;> decide
  by_cases hlength : pieces.length ≤ count
  · have hslashes := Text.count_joinWith hnonempty hpieces
    rw [if_pos (by simp [hlength])]
    refine .whole ?_
    rw [hcount, ← hwhole]
    omega
  · have htake : pieces.take count ≠ [] := by simp [hnonempty, Nat.ne_of_gt hpos]
    have hdrop : pieces.drop count ≠ [] := by simpa using hlength
    have hcut : id.toList = Text.joinWith '/' (pieces.take count) ++ '/' :: Text.joinWith '/' (pieces.drop count) := by
      rw [← Text.joinWith_append htake hdrop, List.take_append_drop, hwhole]
    have hpackage : Text.joinWith '/' (pieces.take count) ≠ [] := by
      intro hnil
      rw [hnil, List.nil_append] at hcut
      have hrooted : isRooted id.toList = true := (isRooted_of_startsAtRoot (by rw [hcut]; rfl)).1
      rw [isAbsolute, hrooted] at h
      cases h
    rw [if_neg (by simp [hlength, hpackage])]
    refine .inside ?_ ?_
    · rw [← String.toList_inj, hcut]
      simp
    · rw [hcount, String.toList_ofList, Text.count_joinWith htake fun w hw => hpieces w (List.mem_of_mem_take hw),
        List.length_take]
      omega

theorem Nearest.forall_eq_false {tested : List String} (h : Nearest isDirectory package dirs tested none) :
    ∀ dir ∈ dirs, isDirectory (placeIn dir package) = false := by
  cases h with
  | nowhere h => exact h

theorem Nearest.exists_eq_true {tested : List String} {place : String}
    (h : Nearest isDirectory package dirs tested (some place)) :
    ∃ dir ∈ dirs, isDirectory (placeIn dir package) = true := by
  cases h with
  | @first before _ dir heq _ hdir => exact ⟨dir, heq ▸ List.mem_append_right before List.mem_cons_self, hdir⟩

def mainFields (o : PackageOptions) : List String :=
  if o.mainFields = [] then ["jsnext:main", "module"] else o.mainFields

/-- What a package at a place leads to: with a path inside it to the module there, and without one to the file that
its manifest names, in the first of the main fields that holds a text. It fails if there is no manifest, if that is
not written in JSON, or if no main field holds a text. -/
inductive Leads (s : Storage) (o : PackageOptions) (place package importer : String) :
    Option String → Except Error String → Prop where
  | inside (inner : String) :
      Leads s o place package importer (some inner) (.ok (withExtension (Path.resolve place inner)))
  | main {text field file : String} {manifest : Json} {before after : List String}
      (hread : s.read (place ++ "/package.json") = .ok text) (hparse : Json.parse? text = some manifest)
      (hfields : mainFields o = before ++ field :: after)
      (hbefore : ∀ f ∈ before, ∀ t, manifest.get? f ≠ some (.string t))
      (hfile : manifest.get? field = some (.string file)) :
      Leads s o place package importer none (.ok (withExtension (Path.resolve place file)))
  | missing {fault : StorageFault} (hread : s.read (place ++ "/package.json") = .error fault) :
      Leads s o place package importer none (.error (.package (.malformed (place ++ "/package.json"))))
  | malformed {text : String} (hread : s.read (place ++ "/package.json") = .ok text)
      (hparse : Json.parse? text = none) :
      Leads s o place package importer none (.error (.package (.malformed (place ++ "/package.json"))))
  | nowhere {text : String} {manifest : Json} (hread : s.read (place ++ "/package.json") = .ok text)
      (hparse : Json.parse? text = some manifest)
      (hnone : ∀ f ∈ mainFields o, ∀ t, manifest.get? f ≠ some (.string t)) :
      Leads s o place package importer none (.error (.package (.noMain package importer (mainFields o))))

def textOf? (manifest : Json) (field : String) : Option String := (manifest.get? field).bind Json.string?

theorem textOf?_eq_some {manifest : Json} {field file : String} :
    textOf? manifest field = some file ↔ manifest.get? field = some (.string file) := by
  rw [textOf?]
  cases manifest.get? field with
  | none => simp
  | some j => cases j <;> simp [Json.string?]

theorem textOf?_eq_none {manifest : Json} {field : String} :
    textOf? manifest field = none ↔ ∀ t, manifest.get? field ≠ some (.string t) := by
  rw [Option.eq_none_iff_forall_ne_some]
  exact forall_congr' fun t => not_congr textOf?_eq_some

theorem mainModule_eq (s : Storage) (o : PackageOptions) (place package importer : String) :
    mainModule s o place package importer =
      match s.read (place ++ "/package.json") with
      | .error _ => .error (.package (.malformed (place ++ "/package.json")))
      | .ok text =>
        match Json.parse? text with
        | none => .error (.package (.malformed (place ++ "/package.json")))
        | some manifest =>
          match (mainFields o).findSome? (textOf? manifest) with
          | some file => .ok (withExtension (Path.resolve place file))
          | none => .error (.package (.noMain package importer (mainFields o))) := by
  have hfields : (if o.mainFields.isEmpty then defaultMainFields else o.mainFields) = mainFields o := by
    rw [mainFields, defaultMainFields]
    cases o.mainFields <;> rfl
  rw [mainModule, hfields]
  rfl

def moduleAt (s : Storage) (o : PackageOptions) (place package importer : String) :
    Option String → Except Error String
  | some inner => .ok (withExtension (Path.resolve place inner))
  | none => mainModule s o place package importer

section
variable {s : Storage} {o : PackageOptions} {place : String} {inner : Option String} {r r' : Except Error String}

theorem leads_moduleAt (s : Storage) (o : PackageOptions) (place package importer : String) (inner : Option String) :
    Leads s o place package importer inner (moduleAt s o place package importer inner) := by
  cases inner with
  | some inner => exact .inside inner
  | none =>
    rw [moduleAt, mainModule_eq]
    cases hread : s.read (place ++ "/package.json") with
    | error fault => exact .missing hread
    | ok text =>
      dsimp only
      cases hparse : Json.parse? text with
      | none => exact .malformed hread hparse
      | some manifest =>
        dsimp only
        cases hfile : (mainFields o).findSome? (textOf? manifest) with
        | none =>
          have hnone := List.findSome?_eq_none_iff.mp hfile
          exact .nowhere hread hparse fun f hf => textOf?_eq_none.mp (hnone f hf)
        | some file =>
          obtain ⟨before, field, after, hsplit, hfound, hbefore⟩ := List.findSome?_eq_some_iff.mp hfile
          exact .main hread hparse hsplit (fun f hf => textOf?_eq_none.mp (hbefore f hf)) (textOf?_eq_some.mp hfound)

theorem Leads.eq_moduleAt (h : Leads s o place package importer inner r) :
    r = moduleAt s o place package importer inner := by
  cases h with
  | inside inner => rfl
  | main hread hparse hfields hbefore hfile =>
    have hnone := List.findSome?_eq_none_iff.mpr fun f hf => textOf?_eq_none.mpr (hbefore f hf)
    simp only [moduleAt, mainModule_eq, hread, hparse, hfields, List.findSome?_append, hnone, Option.none_or,
      List.findSome?_cons, textOf?_eq_some.mpr hfile]
  | missing hread => simp only [moduleAt, mainModule_eq, hread]
  | malformed hread hparse => simp only [moduleAt, mainModule_eq, hread, hparse]
  | nowhere hread hparse hnone =>
    have hnone := List.findSome?_eq_none_iff.mpr fun f hf => textOf?_eq_none.mpr (hnone f hf)
    simp only [moduleAt, mainModule_eq, hread, hparse, hnone]

theorem Leads.unique (h : Leads s o place package importer inner r) (h' : Leads s o place package importer inner r') :
    r = r' :=
  h.eq_moduleAt.trans h'.eq_moduleAt.symm

/-- What goes wrong with a package that is there is never that it is not found. -/
theorem Leads.ne_notFound (h : Leads s o place package importer inner r) (other importer' : String) :
    r ≠ .error (.package (.notFound other importer')) := by
  cases h <;> exact nofun

end

theorem Nearest.find?_eq {tested : List String} {place : Option String}
    (h : Nearest isDirectory package dirs tested place) : (dirs.map (placeIn · package)).find? isDirectory = place := by
  cases h with
  | nowhere h => simpa [List.find?_eq_none] using h
  | @first before after dir heq hbefore hdir =>
    have hnone : (before.map (placeIn · package)).find? isDirectory = none :=
      List.find?_eq_none.mpr (by simpa using hbefore)
    rw [heq, List.map_append, List.find?_append, hnone, List.map_cons, List.find?_cons_of_pos hdir, Option.none_or]

theorem resolveInPackage_eq (s : Storage) (o : PackageOptions) (importee importer : String) :
    resolveInPackage s o importee importer =
      match nearest? s.isDirectory (split importee).1 importer with
      | none => .error (.package (.notFound (split importee).1 importer))
      | some place => moduleAt s o place (split importee).1 importer (split importee).2 := by
  rw [resolveInPackage]
  dsimp only
  cases nearest? s.isDirectory (split importee).1 importer with
  | none => rfl
  | some place => cases (split importee).2 <;> rfl

theorem resolve_bare (s : Storage) (o : PackageOptions) {importee : String} (habsolute : isAbsolute importee = false)
    (hrelative : importee.startsWith "." = false) (hexternal : isExternal o importee = false) (importer : String) :
    resolve s o importee (some importer) = (resolveInPackage s o importee importer).map .module := by
  simp only [resolve, habsolute, hrelative, hexternal, Bool.false_eq_true, if_false]

/-- Where a bare id leads that is not kept outside. The folders on the way to the importing module are tested for its
package, the nearest first, up to the first that holds it, and there is always a last one. The id leads where the
package in that folder does, by the path inside it or by its manifest; the package is not found exactly if no folder
holds it. -/
theorem nearest_package_wins (o : PackageOptions) {importer importee : String}
    (hroot : importer.toList.head? = some '/') (habsolute : isAbsolute importee = false)
    (hrelative : importee.startsWith "." = false) (hexternal : isExternal o importee = false) :
    ∃ dirs package inner, Folders importer dirs ∧ Parts importee package inner ∧
      (∀ isDirectory, ∃ tested,
        Climbs isDirectory package (dirname importer) tested (nearest? isDirectory package importer) ∧
          Nearest isDirectory package dirs tested (nearest? isDirectory package importer)) ∧
      ∀ s : Storage,
        (∀ tested place, Nearest s.isDirectory package dirs tested (some place) →
          ∃ r, Leads s o place package importer inner r ∧
            resolve s o importee (some importer) = r.map .module) ∧
        (resolve s o importee (some importer) = .error (.package (.notFound package importer)) ↔
          ∀ dir ∈ dirs, s.isDirectory (placeIn dir package) = false) := by
  have hfolders := folders_outward hroot
  have houtwards : Outwards (dirname importer) (outward ((dirname importer).length + 1) (dirname importer)) :=
    outwards_outward (dirname_of_rooted hroot).1 (by omega)
  have hnearest : ∀ isDirectory package tested place,
      Nearest isDirectory package (outward ((dirname importer).length + 1) (dirname importer)) tested place →
        nearest? isDirectory package importer = place := fun isDirectory package tested place h => h.find?_eq
  generalize outward ((dirname importer).length + 1) (dirname importer) = dirs at hfolders houtwards hnearest
  refine ⟨dirs, (split importee).1, (split importee).2, hfolders, parts_split habsolute, fun isDirectory => ?_,
    fun s => ?_⟩
  · obtain ⟨tested, place, hclimbs, hplace⟩ := houtwards.climbs isDirectory (split importee).1
    rw [hnearest _ _ _ _ hplace]
    exact ⟨tested, hclimbs, hplace⟩
  · have hfound : ∀ tested place, Nearest s.isDirectory (split importee).1 dirs tested (some place) →
        ∃ r, Leads s o place (split importee).1 importer (split importee).2 r ∧
          resolve s o importee (some importer) = r.map .module := by
      intro tested place hplace
      refine ⟨_, leads_moduleAt s o place (split importee).1 importer (split importee).2, ?_⟩
      rw [resolve_bare s o habsolute hrelative hexternal, resolveInPackage_eq, hnearest _ _ _ _ hplace]
    refine ⟨hfound, ?_⟩
    obtain ⟨tested, place, -, hplace⟩ := houtwards.climbs s.isDirectory (split importee).1
    cases place with
    | none =>
      rw [resolve_bare s o habsolute hrelative hexternal, resolveInPackage_eq, hnearest _ _ _ _ hplace]
      exact iff_of_true rfl hplace.forall_eq_false
    | some place =>
      obtain ⟨r, hleads, hresolve⟩ := hfound tested place hplace
      obtain ⟨dir, hmem, hdir⟩ := hplace.exists_eq_true
      refine iff_of_false (fun h => ?_) fun h => Bool.false_ne_true ((h dir hmem).symm.trans hdir)
      rw [hresolve] at h
      cases r with
      | ok id => cases h
      | error e => exact hleads.ne_notFound _ _ (congrArg Except.error (Except.error.inj h))

def manifestText : String := r#"{"name": "widgets", "module": "lib/index"}"#

def widgets : Storage := .ofEntries true [("app/node_modules/@acme/widgets/package.json", manifestText)]

theorem nearest_package_wins_scoped :
    "/app/src/main.js".toList.head? = some '/' ∧ isAbsolute "@acme/widgets" = false ∧
      ("@acme/widgets".startsWith ".") = false ∧ isExternal ⟨"/", [], []⟩ "@acme/widgets" = false ∧
      Folders "/app/src/main.js" ["/app/src", "/app", "/"] ∧ Parts "@acme/widgets" "@acme/widgets" none ∧
      Nearest widgets.isDirectory "@acme/widgets" ["/app/src", "/app", "/"] ["/app/src", "/app"]
        (some "/app/node_modules/@acme/widgets") ∧
      resolve widgets ⟨"/", [], []⟩ "@acme/widgets" (some "/app/src/main.js") =
        .ok (.module "/app/node_modules/@acme/widgets/lib/index.js") := by
  have hroot : "/app/src/main.js".toList.head? = some '/' := by decide
  have habsolute : isAbsolute "@acme/widgets" = false := by decide
  have hrelative : ("@acme/widgets".startsWith ".") = false := by simp
  have hexternal : isExternal ⟨"/", [], []⟩ "@acme/widgets" = false := by decide
  have hparts : Parts "@acme/widgets" "@acme/widgets" none := .whole (by simp)
  have hfolders : Folders "/app/src/main.js" ["/app/src", "/app", "/"] := folders_outward hroot
  have hnearest : Nearest widgets.isDirectory "@acme/widgets" ["/app/src", "/app", "/"] ["/app/src", "/app"]
      (some "/app/node_modules/@acme/widgets") :=
    @Nearest.first _ _ _ ["/app/src"] ["/"] "/app" rfl (by decide +kernel) (by decide +kernel)
  have hleads : Leads widgets ⟨"/", [], []⟩ "/app/node_modules/@acme/widgets" "@acme/widgets" "/app/src/main.js" none
      (.ok "/app/node_modules/@acme/widgets/lib/index.js") := by
    have hread : widgets.read ("/app/node_modules/@acme/widgets" ++ "/package.json") = .ok manifestText :=
      ok_of_toOption (by decide +kernel)
    have hfile : (Json.parse? manifestText).map (fun manifest =>
        (textOf? manifest "jsnext:main", textOf? manifest "module")) = some (none, some "lib/index") := by
      decide +kernel
    obtain ⟨manifest, hparse, hfile⟩ := Option.map_eq_some_iff.mp hfile
    obtain ⟨hnone, hfile⟩ := Prod.mk.inj hfile
    have hfields : mainFields ⟨"/", [], []⟩ = ["jsnext:main"] ++ ["module"] := rfl
    have hpath : withExtension (Path.resolve "/app/node_modules/@acme/widgets" "lib/index") =
        "/app/node_modules/@acme/widgets/lib/index.js" := by decide +kernel
    refine hpath ▸ .main hread hparse hfields (fun f hf => ?_) (textOf?_eq_some.mp hfile)
    obtain rfl := List.mem_singleton.mp hf
    exact textOf?_eq_none.mp hnone
  obtain ⟨dirs, package, inner, hdirs, hpackage, -, hresolve⟩ :=
    nearest_package_wins ⟨"/", [], []⟩ hroot habsolute hrelative hexternal
  obtain rfl := hdirs.unique hfolders
  obtain ⟨rfl, rfl⟩ := hpackage.unique hparts
  obtain ⟨r, hleads', heq⟩ := (hresolve widgets).1 _ _ hnearest
  obtain rfl := hleads'.unique hleads
  exact ⟨hroot, habsolute, hrelative, hexternal, hfolders, hparts, hnearest, heq⟩

end Package

end Treeshake
