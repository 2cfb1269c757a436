import Mathlib
import Treeshake.Proofs.Graph.Built
import Treeshake.Proofs.Graph.Registers
import Treeshake.Proofs.Graph.Resolve
/-!
The names that a build gives out. A name that is not taken is found in as many steps as it takes, and none that
is taken is ever given out again. Main statement: in the output no external module, no declaration that it shows
and no name that it imports has the name of another one, a global name or a name of the wrappers.
-/
set_option autoImplicit false

namespace Treeshake.Graph

/-- The search for a name that is not taken, whatever number of steps it takes. -/
inductive Gives : Table Nat → String → String × Table Nat → Prop
  | free {taken : Table Nat} {name : String} (h : taken.get? name = none) :
      Gives taken name (name, taken.insert name 1)
  | next {taken : Table Nat} {name : String} {n : Nat} {r : String × Table Nat}
      (h : taken.get? name = some n)
      (hr : Gives (taken.insert name (n + 1)) (name ++ "$" ++ toString n) r) : Gives taken name r

theorem Gives.new {taken : Table Nat} {name : String} {r : String × Table Nat} (h : Gives taken name r) :
    r.1 ∉ taken.keys ∧ ∀ k, k ∈ r.2.keys ↔ k = r.1 ∨ k ∈ taken.keys := by
  induction h with
  | @free taken name h =>
    refine ⟨fun hmem => ?_, fun k => Table.mem_keys_insert⟩
    obtain ⟨v, hv⟩ := Table.mem_keys_iff.mp hmem
    rw [h] at hv
    cases hv
  | @next taken name n r h hr ih =>
    rw [Table.keys_insert_of_mem (Table.mem_keys_iff.mpr ⟨n, h⟩)] at ih
    exact ih

/-- A name that was taken, with a number behind it. -/
def Numbered (name name' : String) : Prop := ∃ n : Nat, name' = name ++ "$" ++ toString n

theorem Gives.numbered {taken : Table Nat} {name : String} {r : String × Table Nat} (h : Gives taken name r) :
    Relation.ReflTransGen Numbered name r.1 := by
  induction h with
  | free h => exact .refl
  | @next taken name n r h hr ih => exact ih.head ⟨n, rfl⟩

theorem length_next (name : String) (n : Nat) : name.length < (name ++ "$" ++ toString n).length := by
  have hmark : "$".length = 1 := rfl
  simp only [String.length_append]
  omega

/-- Only taken names that are as long as the name or longer can be met. -/
theorem gives_freshWithin {fuel : Nat} {taken : Table Nat} {name : String}
    (h : taken.keys.countP (name.length ≤ ·.length) < fuel) :
    Gives taken name (freshWithin fuel taken name) := by
  induction fuel generalizing taken name with
  | zero => omega
  | succ fuel ih =>
    rw [freshWithin]
    split
    · next hnone => exact .free hnone
    · next n hn =>
      have hmem : name ∈ taken.keys := Table.mem_keys_iff.mpr ⟨n, hn⟩
      have hlonger := length_next name n
      refine .next hn (ih ?_)
      rw [Table.keys_insert_of_mem hmem]
      refine Nat.lt_of_lt_of_le (countP_lt (fun k hk => ?_) hmem ?_ ?_) (Nat.le_of_lt_succ h)
      · have hk := of_decide_eq_true hk
        exact decide_eq_true (by omega)
      · exact decide_eq_false (by omega)
      · exact decide_eq_true (Nat.le_refl _)

theorem gives_fresh (taken : Table Nat) (name : String) : Gives taken name (fresh taken name) := by
  have hkeys : taken.keys.length = taken.length := List.length_map _
  exact gives_freshWithin (Nat.lt_succ_of_le (hkeys ▸ List.countP_le_length))

inductive Bearer where
  | external (index : Nat)
  | declaration (id : Nat)
  deriving DecidableEq

def Bearer.name? (g : Graph) : Bearer → Option String
  | .external index => g.externals[index]?.map (·.name)
  | .declaration id => (g.declaration? id).map (·.name)

/-- Whether the output has a name for something: for every external module; for what an included statement of a
module declares, a default export only if it stands for nothing or for what is assigned to later; for a module used
as a value; and for what is imported from an external module by a name of its own. -/
inductive Bears (g : Graph) : Bearer → Prop
  | external (i : Nat) (hi : i < g.externals.length) : Bears g (.external i)
  | declared (i : Nat) (m : LinkedModule) (key : String) (id : Nat) (d : Declaration) (r : StatementRef)
      (s : Statement) (hm : g.modules[i]? = some m) (hkey : (key, id) ∈ m.declarations)
      (hd : g.declarations[id]? = some d) (hr : d.statement = some r) (hs : g.statement? r = some s)
      (hincluded : s.included = true)
      (hdefault : key = "default" → ∀ o, d.kind = .defaultValue (some o) →
        ∃ e, g.declarations[o]? = some e ∧ e.reassigned = true) :
      Bears g (.declaration id)
  | object (i : Nat) (m : LinkedModule) (id : Nat) (d : Declaration) (module : Nat) (members : Table Nat)
      (hm : g.modules[i]? = some m) (hid : m.object = some id) (hd : g.declarations[id]? = some d)
      (hkind : d.kind = .object module members true) (hused : d.used = true) : Bears g (.declaration id)
  | imported (e : External) (key : String) (id : Nat) (he : e ∈ g.externals) (hid : (key, id) ∈ e.declarations)
      (hdefault : key ≠ "default") (hwhole : key ≠ "*") : Bears g (.declaration id)

def bearers (g : Graph) (order : List Nat) : List Bearer :=
  (List.range g.externals.length).map .external ++
    ((order.flatMap fun i => (g.modules[i]?.map g.renderedDeclarations).getD []).map .declaration ++
      (g.externals.flatMap importedNames).map .declaration)

variable {g h k : Graph}

theorem mem_importedNames {e : External} {id : Nat} : id ∈ importedNames e ↔
    ∃ key, (key, id) ∈ e.declarations ∧ key ≠ "default" ∧ key ≠ "*" := by
  simp [importedNames]

theorem isReplaced_eq_false {d : Declaration} : g.isReplaced d = false ↔
    ∀ o, d.kind = .defaultValue (some o) → ∃ e, g.declarations[o]? = some e ∧ e.reassigned = true := by
  rw [isReplaced, Option.any_eq_false]
  refine forall_congr' fun o => imp_congr standsFor_eq_some ?_
  rw [isReassigned, Bool.not_eq_false', Option.any_eq_true]

theorem needsObject_iff {d : Declaration} : needsObject d = true ↔
    (∃ module members, d.kind = .object module members true) ∧ d.used = true := by
  rw [needsObject]
  cases d.kind <;> simp

theorem mem_renderedDeclarations {m : LinkedModule} {id : Nat} : id ∈ g.renderedDeclarations m ↔
    (∃ key d r, (key, id) ∈ m.declarations ∧ g.declarations[id]? = some d ∧ d.statement = some r ∧
      g.isIncluded r = true ∧ (key = "default" → g.isReplaced d = false)) ∨
    m.object = some id ∧ ∃ d, g.declarations[id]? = some d ∧ needsObject d = true := by
  rw [renderedDeclarations, List.mem_append]
  refine or_congr ⟨fun hid => ?_, ?_⟩ ?_
  · obtain ⟨⟨key, id⟩, hentry, rfl⟩ := List.mem_map.mp hid
    obtain ⟨hkey, hshown⟩ := List.mem_filter.mp hentry
    obtain ⟨d, hd, hshown⟩ := (Option.any_eq_true _ _).mp hshown
    obtain ⟨hincluded, hdefault⟩ := Bool.and_eq_true_iff.mp hshown
    obtain ⟨r, hr, hincluded⟩ := (Option.any_eq_true _ _).mp hincluded
    refine ⟨key, d, r, hkey, hd, hr, hincluded, fun h => ?_⟩
    simpa [h] using hdefault
  · rintro ⟨key, d, r, hkey, hd, hr, hincluded, hdefault⟩
    have hget : g.declaration? id = some d := hd
    refine List.mem_map.mpr ⟨(key, id), List.mem_filter.mpr ⟨hkey, ?_⟩, rfl⟩
    dsimp only
    rw [hget, Option.any_some, hr, Option.any_some, hincluded, Bool.true_and]
    by_cases h : key = "default"
    · rw [hdefault h, Bool.and_false, Bool.not_false]
    · simp [h]
  · rw [Option.mem_toList, Option.filter_eq_some_iff, Option.any_eq_true]
    rfl

theorem bears_iff {b : Bearer} : g.Bears b ↔ (∃ i, i < g.externals.length ∧ b = .external i) ∨
    (∃ (i : Nat) (m : LinkedModule) (id : Nat), g.modules[i]? = some m ∧ id ∈ g.renderedDeclarations m ∧
      b = .declaration id) ∨
    ∃ e ∈ g.externals, ∃ id ∈ importedNames e, b = .declaration id := by
  constructor
  · intro hb
    cases hb with
    | external i hi => exact .inl ⟨i, hi, rfl⟩
    | declared i m key id d r s hm hkey hd hr hs hincluded hdefault =>
      have hshown : g.isIncluded r = true := isIncluded_iff.mpr ⟨s, hs, hincluded⟩
      refine .inr (.inl ⟨i, m, id, hm, mem_renderedDeclarations.mpr (.inl ?_), rfl⟩)
      exact ⟨key, d, r, hkey, hd, hr, hshown, fun h => isReplaced_eq_false.mpr (hdefault h)⟩
    | object i m id d module members hm hid hd hkind hused =>
      refine .inr (.inl ⟨i, m, id, hm, mem_renderedDeclarations.mpr (.inr ⟨hid, d, hd, ?_⟩), rfl⟩)
      exact needsObject_iff.mpr ⟨⟨module, members, hkind⟩, hused⟩
    | imported e key id he hid hdefault hwhole =>
      exact .inr (.inr ⟨e, he, id, mem_importedNames.mpr ⟨key, hid, hdefault, hwhole⟩, rfl⟩)
  · rintro (⟨i, hi, rfl⟩ | ⟨i, m, id, hm, hid, rfl⟩ | ⟨e, he, id, hid, rfl⟩)
    · exact .external i hi
    · rcases mem_renderedDeclarations.mp hid with
        ⟨key, d, r, hkey, hd, hr, hshown, hdefault⟩ | ⟨hobject, d, hd, hneeds⟩
      · obtain ⟨s, hs, hincluded⟩ := isIncluded_iff.mp hshown
        exact .declared i m key id d r s hm hkey hd hr hs hincluded fun h => isReplaced_eq_false.mp (hdefault h)
      · obtain ⟨⟨module, members, hkind⟩, hused⟩ := needsObject_iff.mp hneeds
        exact .object i m id d module members hm hobject hd hkind hused
    · obtain ⟨key, hkey, hdefault, hwhole⟩ := mem_importedNames.mp hid
      exact .imported e key id he hkey hdefault hwhole

theorem bears_of_rendered {i : Nat} {m : LinkedModule} {id : Nat} (hm : g.modules[i]? = some m)
    (hid : id ∈ g.renderedDeclarations m) : g.Bears (.declaration id) :=
  bears_iff.mpr (.inr (.inl ⟨i, m, id, hm, hid, rfl⟩))

theorem Renamed.isReplaced (hr : Renamed g h) (d : Declaration) : h.isReplaced d = g.isReplaced d := by
  have hreassigned : ∀ id, h.isReassigned id = g.isReassigned id :=
    hr.any (f := (·.reassigned)) fun _ => rfl
  rw [Graph.isReplaced, Graph.isReplaced, funext hreassigned]

theorem Renamed.renderedDeclarations (hr : Renamed g h) (m : LinkedModule) :
    h.renderedDeclarations m = g.renderedDeclarations m := by
  have hincluded : h.isIncluded = g.isIncluded := funext hr.isIncluded
  have hreplaced : h.isReplaced = g.isReplaced := funext hr.isReplaced
  have hshown : ∀ (key : String) (id : Nat), ((h.declaration? id).any fun d =>
      d.statement.any h.isIncluded && !(key == "default" && h.isReplaced d)) =
        (g.declaration? id).any fun d =>
          d.statement.any g.isIncluded && !(key == "default" && g.isReplaced d) := by
    intro key id
    rw [hincluded, hreplaced]
    exact hr.any (fun _ => rfl) id
  have hobject : ∀ id, (h.declaration? id).any needsObject = (g.declaration? id).any needsObject :=
    hr.any fun _ => rfl
  rw [Graph.renderedDeclarations, Graph.renderedDeclarations]
  simp only [hshown, hobject]

namespace Naming

def give (n : Naming) : Bearer → Naming
  | .external index => n.nameExternal index
  | .declaration id => n.nameDeclaration id

theorem externals_give (n : Naming) (b : Bearer) :
    (n.give b).graph.externals.map (·.declarations) = n.graph.externals.map (·.declarations) := by
  cases b with
  | external index =>
    rw [give, nameExternal]
    split
    · rfl
    · next e _ =>
      have hsame : ∀ x : External, ({ x with name := (fresh n.taken e.name).1 } : External).declarations =
        x.declarations := fun _ => rfl
      exact map_modify_of_eq hsame n.graph.externals index
  | declaration id =>
    rw [give, nameDeclaration]
    split <;> rfl

theorem give_cases (n : Naming) (b : Bearer) : (b.name? n.graph = none ∧ n.give b = n) ∨
    ∃ name, b.name? (n.give b).graph = some name ∧
      (∃ old, b.name? n.graph = some old ∧ Relation.ReflTransGen Numbered old name) ∧ name ∉ n.taken.keys ∧
      (∀ k, k ∈ (n.give b).taken.keys ↔ k = name ∨ k ∈ n.taken.keys) ∧
      ∀ b', b' ≠ b → b'.name? (n.give b).graph = b'.name? n.graph := by
  cases b with
  | external index =>
    rw [give, nameExternal, Bearer.name?]
    cases he : n.graph.externals[index]? with
    | none => exact .inl ⟨rfl, rfl⟩
    | some e =>
      obtain ⟨hnew, hkeys⟩ := (gives_fresh n.taken e.name).new
      refine .inr ⟨(fresh n.taken e.name).1, ?_, ⟨e.name, rfl, (gives_fresh n.taken e.name).numbered⟩, hnew, hkeys,
        fun b' hb' => ?_⟩
      · simp [Bearer.name?, modifyExternal, he]
      · cases b' with
        | declaration id => rfl
        | external i =>
          have hi : index ≠ i := fun h => hb' (congrArg Bearer.external h.symm)
          simp [Bearer.name?, modifyExternal, hi]
  | declaration id =>
    rw [give, nameDeclaration, Bearer.name?]
    cases hd : n.graph.declaration? id with
    | none => exact .inl ⟨rfl, rfl⟩
    | some d =>
      have hget : n.graph.declarations[id]? = some d := hd
      obtain ⟨hnew, hkeys⟩ := (gives_fresh n.taken d.name).new
      refine .inr ⟨(fresh n.taken d.name).1, ?_, ⟨d.name, rfl, (gives_fresh n.taken d.name).numbered⟩, hnew, hkeys,
        fun b' hb' => ?_⟩
      · simp [Bearer.name?, modifyDeclaration, declaration?, hget]
      · cases b' with
        | external i => rfl
        | declaration i =>
          have hi : id ≠ i := fun h => hb' (congrArg Bearer.declaration h.symm)
          simp [Bearer.name?, modifyDeclaration, declaration?, hi]

theorem name?_give {n : Naming} {b b' : Bearer} {name' : String} (h : b'.name? (n.give b).graph = some name') :
    ∃ name, b'.name? n.graph = some name ∧ Relation.ReflTransGen Numbered name name' := by
  rcases give_cases n b with ⟨-, heq⟩ | ⟨name, hname, hold, -, -, hothers⟩
  · exact ⟨name', heq ▸ h, .refl⟩
  · by_cases hb : b' = b
    · subst hb
      obtain rfl := Option.some.inj (hname.symm.trans h)
      exact hold
    · exact ⟨name', hothers b' hb ▸ h, .refl⟩

theorem name?_gives {n : Naming} {bs : List Bearer} {b : Bearer} {name' : String}
    (h : b.name? (bs.foldl Naming.give n).graph = some name') :
    ∃ name, b.name? n.graph = some name ∧ Relation.ReflTransGen Numbered name name' := by
  induction bs generalizing n with
  | nil => exact ⟨name', h, .refl⟩
  | cons b' bs ih =>
    obtain ⟨name, hname, hlater⟩ := ih h
    obtain ⟨first, hfirst, hnumbered⟩ := name?_give hname
    exact ⟨first, hfirst, hnumbered.trans hlater⟩

/-- What has been given names, each its own, and none of those that were taken at the start. -/
structure Distinct (first : List String) (done : List Bearer) (n : Naming) : Prop where
  kept : ∀ name ∈ first, name ∈ n.taken.keys
  taken : ∀ b ∈ done, ∀ name, b.name? n.graph = some name → name ∈ n.taken.keys ∧ name ∉ first
  apart : ∀ b ∈ done, ∀ b' ∈ done, ∀ name, b.name? n.graph = some name →
    b'.name? n.graph = some name → b = b'

theorem Distinct.give {first : List String} {done : List Bearer} {n : Naming} (hn : Distinct first done n)
    (b : Bearer) : Distinct first (b :: done) (n.give b) := by
  rcases give_cases n b with ⟨hnone, heq⟩ | ⟨name, hname, -, hnew, hkeys, hothers⟩
  · rw [heq]
    have hdone : ∀ b' ∈ b :: done, ∀ name, b'.name? n.graph = some name → b' ∈ done := by
      intro b' hb' name hname
      refine (List.mem_cons.mp hb').resolve_left ?_
      rintro rfl
      rw [hnone] at hname
      cases hname
    exact ⟨hn.kept, fun b' hb' name h => hn.taken b' (hdone b' hb' name h) name h,
      fun b' hb' b'' hb'' name h h' => hn.apart b' (hdone b' hb' name h) b'' (hdone b'' hb'' name h') name h h'⟩
  · have hold : ∀ b' ∈ b :: done, b' ≠ b → ∀ name', b'.name? (n.give b).graph = some name' →
        b' ∈ done ∧ b'.name? n.graph = some name' := fun b' hb' hne name' h =>
      ⟨(List.mem_cons.mp hb').resolve_left hne, hothers b' hne ▸ h⟩
    -- only the new bearer has the new name, as that was not taken before
    have honly : ∀ b' ∈ b :: done, b'.name? (n.give b).graph = some name → b' = b := by
      intro b' hb' h
      refine Decidable.by_contra fun hne => ?_
      obtain ⟨hmem, h⟩ := hold b' hb' hne name h
      exact hnew (hn.taken b' hmem name h).1
    refine ⟨fun k hk => (hkeys k).mpr (.inr (hn.kept k hk)), fun b' hb' name' h => ?_,
      fun b' hb' b'' hb'' name' h h' => ?_⟩
    · by_cases hne : b' = b
      · subst hne
        obtain rfl := Option.some.inj (hname.symm.trans h)
        exact ⟨(hkeys name).mpr (.inl rfl), fun hs => hnew (hn.kept name hs)⟩
      · obtain ⟨hmem, h⟩ := hold b' hb' hne name' h
        obtain ⟨htaken, hs⟩ := hn.taken b' hmem name' h
        exact ⟨(hkeys name').mpr (.inr htaken), hs⟩
    · by_cases hne : b' = b
      · subst hne
        obtain rfl := Option.some.inj (hname.symm.trans h)
        exact (honly b'' hb'' h').symm
      · by_cases hne' : b'' = b
        · subst hne'
          obtain rfl := Option.some.inj (hname.symm.trans h')
          exact honly b' hb' h
        · obtain ⟨hmem, h⟩ := hold b' hb' hne name' h
          obtain ⟨hmem', h'⟩ := hold b'' hb'' hne' name' h'
          exact hn.apart b' hmem b'' hmem' name' h h'

theorem Distinct.gives {first : List String} {done : List Bearer} {n : Naming} (hn : Distinct first done n)
    (bs : List Bearer) : Distinct first (bs.reverse ++ done) (bs.foldl Naming.give n) := by
  induction bs generalizing done n with
  | nil => exact hn
  | cons b bs ih =>
    rw [List.reverse_cons, List.append_assoc]
    exact ih (hn.give b)

end Naming

def startNaming (g : Graph) : Naming := { graph := g, taken := g.globals.map fun name => (name, 1) }

theorem foldl_nameModule {n : Naming} (hr : Renamed g n.graph) (order : List Nat) :
    order.foldl Naming.nameModule n =
      ((order.flatMap fun i => (g.modules[i]?.map g.renderedDeclarations).getD []).map
        Bearer.declaration).foldl Naming.give n := by
  induction order generalizing n with
  | nil => rfl
  | cons i order ih =>
    have hmodule : n.nameModule i =
        (((g.modules[i]?.map g.renderedDeclarations).getD []).map Bearer.declaration).foldl Naming.give n := by
      rw [Naming.nameModule, hr.modules]
      cases g.modules[i]? with
      | none => rfl
      | some m =>
        dsimp only
        rw [hr.renderedDeclarations, Option.map_some, Option.getD_some, List.foldl_map]
        rfl
    rw [List.foldl_cons, List.flatMap_cons, List.map_append, List.foldl_append, ← hmodule]
    exact ih (hr.trans (renamed_nameModule n i))

theorem deconflict_eq (g : Graph) (order : List Nat) :
    (g.deconflict order).1 = ((g.bearers order).foldl Naming.give g.startNaming).graph := by
  have hr : Renamed g ((List.range g.externals.length).foldl Naming.nameExternal g.startNaming).graph :=
    renamed_foldl renamed_nameExternal _ g.startNaming
  rw [deconflict, bearers, List.foldl_append, List.foldl_append]
  dsimp only
  rw [List.foldl_map (l := g.externals.flatMap importedNames), List.foldl_map (l := List.range _)]
  exact congrArg (fun n => (List.foldl Naming.nameDeclaration n _).graph) (foldl_nameModule hr order)

theorem name?_deconflict {order : List Nat} {b : Bearer} {name' : String}
    (h : b.name? (g.deconflict order).1 = some name') :
    ∃ name, b.name? g = some name ∧ Relation.ReflTransGen Numbered name name' := by
  rw [deconflict_eq] at h
  exact Naming.name?_gives h

theorem externals_deconflict (g : Graph) (order : List Nat) :
    (g.deconflict order).1.externals.map (·.declarations) = g.externals.map (·.declarations) := by
  rw [deconflict_eq]
  have hfold : ∀ (bs : List Bearer) (n : Naming),
      (bs.foldl Naming.give n).graph.externals.map (·.declarations) =
        n.graph.externals.map (·.declarations) := by
    intro bs
    induction bs with
    | nil => exact fun _ => rfl
    | cons b bs ih => exact fun n => (ih (n.give b)).trans (Naming.externals_give n b)
  exact hfold _ _

theorem distinct_deconflict (g : Graph) (order : List Nat) :
    ∃ n : Naming, n.graph = (g.deconflict order).1 ∧ Naming.Distinct g.globals (g.bearers order).reverse n := by
  have hstart : Naming.Distinct g.globals [] g.startNaming := by
    refine ⟨fun name hname => ?_, nofun, nofun⟩
    simpa [startNaming, Table.keys] using hname
  have hn := hstart.gives (g.bearers order)
  rw [List.append_nil] at hn
  exact ⟨_, (deconflict_eq g order).symm, hn⟩

theorem Sound.isInternal (hg : g.Sound) {i : Nat} {m : LinkedModule} (hm : g.modules[i]? = some m) {id : Nat}
    (hid : id ∈ g.renderedDeclarations m) : g.isInternal id = true := by
  rcases List.mem_append.mp hid with hid | hid
  · obtain ⟨⟨name, id⟩, hmem, rfl⟩ := List.mem_map.mp hid
    have hroutes : g.routes[i]? = some m.routes := by rw [getElem?_routes, hm, Option.map_some]
    obtain ⟨d, hd, hentity, -⟩ := hg.own i m.routes name id hroutes (List.mem_filter.mp hmem).1
    exact isInternal_iff.mpr ⟨.own id, by rw [entity?, hd, Option.map_some, hentity], by simp⟩
  · obtain ⟨hobject, -⟩ := Option.filter_eq_some_iff.mp (Option.mem_toList.mp hid)
    refine isInternal_iff.mpr ⟨.whole i, (hg.object i id).mp ?_, by simp⟩
    rw [objectOf, hm, Option.bind_some, hobject]

theorem Bears.mem_bearers {order : List Nat} {b : Bearer}
    (horder : ∀ i, i < g.modules.length → i ∈ order) (hb : (g.deconflict order).1.Bears b) :
    b ∈ g.bearers order := by
  have hr := renamed_deconflict g order
  have hx := externals_deconflict g order
  rcases bears_iff.mp hb with ⟨i, hi, rfl⟩ | ⟨i, m, id, hm, hid, rfl⟩ | ⟨e, he, id, hid, rfl⟩
  · refine List.mem_append_left _ (List.mem_map_of_mem (List.mem_range.mpr ?_))
    rw [← hr.later.externals]
    exact hi
  · rw [hr.modules] at hm
    rw [hr.renderedDeclarations] at hid
    have hi := horder i (List.getElem?_eq_some_iff.mp hm).1
    refine List.mem_append_right _ (List.mem_append_left _ (List.mem_map_of_mem ?_))
    exact List.mem_flatMap.mpr ⟨i, hi, by rw [hm]; exact hid⟩
  · have hmem : e.declarations ∈ g.externals.map (·.declarations) := hx ▸ List.mem_map_of_mem he
    obtain ⟨e', he', heq⟩ := List.mem_map.mp hmem
    refine List.mem_append_right _ (List.mem_append_right _ (List.mem_map_of_mem ?_))
    refine List.mem_flatMap.mpr ⟨e', he', ?_⟩
    rw [importedNames, heq]
    exact hid

theorem Bears.named {passes : Nat} {order : List Nat} {b : Bearer} (hg : g.Linked)
    (hmark : mark.run g = .ok (passes, h)) (hb : (h.deconflict order).1.Bears b) :
    ∃ name, b.name? (h.deconflict order).1 = some name := by
  obtain ⟨R, n, hR, hw⟩ := hg.wired
  have hG : Grown g h := Scans.grown hR hw (.refl g) (mark_settles hR hw hmark).1
  have hr := renamed_deconflict h order
  cases hb with
  | external i hi => exact ⟨_, by rw [Bearer.name?, List.getElem?_eq_getElem hi, Option.map_some]⟩
  | declared i m key id d r s hm hkey hd => exact ⟨d.name, by rw [Bearer.name?, declaration?, hd, Option.map_some]⟩
  | object i m id d module members hm hid hd =>
    exact ⟨d.name, by rw [Bearer.name?, declaration?, hd, Option.map_some]⟩
  | imported e key id he hid =>
    have hregistered := hg.registered_mark hmark
    have hsound := hr.sound (hG.sound hw.fits.sound)
    have hmem : e.declarations ∈ h.externals.map (·.declarations) :=
      externals_deconflict h order ▸ List.mem_map_of_mem he
    obtain ⟨e', he', heq⟩ := List.mem_map.mp hmem
    obtain ⟨i, hi⟩ := List.mem_iff_getElem?.mp he
    have hget : e.declarations.get? key = some id := Table.get?_of_mem (heq ▸ hregistered.names e' he') hid
    have hentity := (hsound.external i key id).mp (by rw [externalId?, hi, Option.bind_some, hget])
    obtain ⟨d, hd, -⟩ := Option.map_eq_some_iff.mp hentity
    exact ⟨d.name, by rw [Bearer.name?, declaration?, hd, Option.map_some]⟩

theorem Linked.everywhere_global (hg : g.Linked) {passes : Nat} (hmark : mark.run g = .ok (passes, h)) :
    Everywhere (fun g _ r => r.binding = .global → r.name ∈ g.globals) h := by
  obtain ⟨modules, externals, stats, hf, hbind⟩ := hg
  have hw := wired_bind (ranged_starred hf) (wired_starred hf) hbind
  have hgrown : Grown g h := Scans.grown (ranged_starred hf) hw (.refl g) (mark_settles (ranged_starred hf) hw hmark).1
  have hlinked := everywhere_linked lasting_global hf hbind fun e he s hs r hr hunbound hglobal => by
    rw [hunbound] at hglobal
    cases hglobal
  exact hlinked.idles lasting_global hgrown.idles

/-- In the graph of a build that is linked and marked, the search for a name that is not taken always ends, and
after names were given, whatever has a name has one of its own. It is no global name, so none by which a reference
means what nothing in the build declares, and none that the wrappers use. -/
theorem given_names_distinct {passes : Nat} {order : List Nat} (hg : g.Linked)
    (hmark : mark.run g = .ok (passes, h)) (horder : order.Perm (List.range h.modules.length)) :
    (∀ taken name, Gives taken name (fresh taken name)) ∧
      ∀ b, (h.deconflict order).1.Bears b → ∃ name, b.name? (h.deconflict order).1 = some name ∧
        name ∉ h.globals ∧ name ∉ ["module", "exports", "require", "define"] ∧
        (∀ (i : Nat) (m : LinkedModule) (s : Statement) (r : Reference), (h.deconflict order).1.modules[i]? = some m →
          s ∈ m.statements → r ∈ s.references → r.binding = .global → r.name ≠ name) ∧
        ∀ b', (h.deconflict order).1.Bears b' → b'.name? (h.deconflict order).1 = some name → b' = b := by
  refine ⟨gives_fresh, fun b hb => ?_⟩
  have hall : ∀ i, i < h.modules.length → i ∈ order := fun i hi => horder.mem_iff.mpr (List.mem_range.mpr hi)
  have hregistered := hg.registered_mark hmark
  obtain ⟨n, hn, hdistinct⟩ := distinct_deconflict h order
  obtain ⟨name, hname⟩ := hb.named hg hmark
  have hmem := List.mem_reverse.mpr (hb.mem_bearers hall)
  have hglobal := (hdistinct.taken b hmem name (hn ▸ hname)).2
  refine ⟨name, hname, hglobal, fun hw => hglobal (hregistered.globals name hw), fun i m s r hm hs hr hfree heq => ?_,
    fun b' hb' hname' => ?_⟩
  · rw [(renamed_deconflict h order).modules] at hm
    exact hglobal (heq ▸ (hg.everywhere_global hmark).reference hm hs hr hfree)
  · exact hdistinct.apart b' (List.mem_reverse.mpr (hb'.mem_bearers hall)) b hmem name (hn ▸ hname') (hn ▸ hname)

def namesakes : List (Module × Table Target) :=
  [(wholeModule "0" .other [{ name := "a", start := 0, stop := 1, scope := 0 },
      { name := "b", start := 2, stop := 3, scope := 0 }]
      [("a", ⟨"./1", "a", 0⟩), ("b", ⟨"a", "a", 0⟩)] [] [⟨"a$1", "a$1", some 0⟩],
      [("./1", .inside 1), ("a", .outside 0)]),
    (wholeModule "1" .variable [] [] [("a", ⟨"a", none, 0⟩)] [⟨"a", "a", some 0⟩], [])]

theorem fetched_namesakes : Fetched namesakes [{ id := "a", name := "a" }] := by
  have htargets : ∀ e ∈ namesakes, ∀ s t, e.2.get? s = some t →
      s ∈ e.1.sources ∧ (t = .inside 1 ∨ t = .outside 0) := by
    intro e he s t h
    have hmem := lookup_mem h
    simp only [namesakes, List.mem_cons, List.not_mem_nil, or_false] at he
    rcases he with rfl | rfl
    · simp only [List.mem_cons, List.not_mem_nil, or_false, Prod.mk.injEq] at hmem
      rcases hmem with ⟨rfl, rfl⟩ | ⟨rfl, rfl⟩
      · exact ⟨by decide, .inl rfl⟩
      · exact ⟨by decide, .inr rfl⟩
    · cases hmem
  refine ⟨fun e he => ?_, fun e he s t h => (htargets e he s t h).1, fun e he s i h => ?_,
    fun e he s i h => ?_, fun e he => ?_⟩
  · simp only [namesakes, List.mem_cons, List.not_mem_nil, or_false] at he
    rcases he with rfl | rfl <;> exact ⟨by decide, by decide, by decide⟩
  · rcases (htargets e he s _ h).2 with h | h <;> cases h
    decide
  · rcases (htargets e he s _ h).2 with h | h <;> cases h
    decide
  · obtain rfl := List.mem_singleton.mp he
    rfl

theorem given_names_distinct_namesakes : ∃ g h passes, g.Linked ∧ mark.run g = .ok (passes, h) ∧
    [1, 0].Perm (List.range h.modules.length) ∧ (h.deconflict [1, 0]).1.Bears (.declaration 0) ∧
    (Bearer.declaration 0).name? (h.deconflict [1, 0]).1 = some "a$1$1" ∧ "a$1$1" ∉ h.globals ∧
    "a$1$1" ∉ ["module", "exports", "require", "define"] ∧ ∀ b, (h.deconflict [1, 0]).1.Bears b →
      b.name? (h.deconflict [1, 0]).1 = some "a$1$1" → b = .declaration 0 := by
  have hrun : (bind.run (ofModules namesakes [{ id := "a", name := "a" }])).toOption.bind (fun p =>
      (mark.run p.2).toOption.bind fun q =>
        let k := (q.2.deconflict [1, 0]).1
        k.modules[0]?.map fun m => (q.2.modules.length, k.renderedDeclarations m,
          k.declarations.map (·.name), k.externals.map (·.name))) =
      some (2, [0], ["a$1$1", "a$1", "a$2"], ["a"]) := by
    cbv
  obtain ⟨⟨stats, g⟩, hbind, hrun⟩ := Option.bind_eq_some_iff.mp hrun
  obtain ⟨⟨passes, h⟩, hmark, hrun⟩ := Option.bind_eq_some_iff.mp hrun
  obtain ⟨m, hm, hvalue⟩ := Option.map_eq_some_iff.mp hrun
  simp only [Prod.mk.injEq] at hvalue
  obtain ⟨hlength, hshown, hnames, -⟩ := hvalue
  have hg : g.Linked := ⟨_, _, stats, fetched_namesakes, ok_of_toOption hbind⟩
  have hperm : [1, 0].Perm (List.range h.modules.length) := by
    rw [hlength]
    decide
  have hb : (h.deconflict [1, 0]).1.Bears (.declaration 0) :=
    bears_of_rendered hm (by rw [hshown]; exact List.mem_singleton.mpr rfl)
  have hname : (Bearer.declaration 0).name? (h.deconflict [1, 0]).1 = some "a$1$1" := by
    rw [Bearer.name?, declaration?, ← List.getElem?_map, hnames]
    rfl
  obtain ⟨name, hname', hglobal, hwrapper, -, honly⟩ :=
    (given_names_distinct hg (ok_of_toOption hmark) hperm).2 _ hb
  obtain rfl := Option.some.inj (hname.symm.trans hname')
  exact ⟨g, h, passes, hg, ok_of_toOption hmark, hperm, hb, hname, hglobal, hwrapper, honly⟩

end Treeshake.Graph
