import Treeshake.Proofs.Graph.Built
/-!
Where the declarations of a build come from. Main statement: each declaration of the build's own is that of a binding of
a module. It stays in the statement of the binding, and what it was at first, unless it is a default export that has
come to stand for another declaration.
-/
set_option autoImplicit false

namespace Treeshake

theorem Declaration.not_own {d : Declaration} (hd : d.isExternal = true ∨ d.isObject = true) (id : Nat) :
    d.entity id ≠ .own id := by
  unfold isExternal isObject at hd
  unfold entity
  cases hkind : d.kind <;> simp [hkind] at hd ⊢

def TopBinding.declare (b : TopBinding) (module : Nat) : Declaration where
  name := b.name
  kind := if b.key == "default" then .defaultValue none else .binding
  statement := b.statement.map fun index => ⟨module, index⟩

namespace Graph

variable {g h k : Graph} {id : Nat} {d e : Declaration}

theorem Lasts.refl (g : Graph) (id : Nat) (d : Declaration) : Lasts g id d d := ⟨rfl, .inl rfl⟩

theorem Lasts.trans {f : Declaration} (h₁ : Lasts g id d e) (h₂ : Lasts g id e f) : Lasts g id d f where
  statement := h₂.statement.trans h₁.statement
  kind := by
    rcases h₂.kind with hsame | hother
    · have hobject : f.isObject = e.isObject := by rw [Declaration.isObject, Declaration.isObject, hsame]
      rw [hsame, hobject]
      exact h₁.kind
    · exact .inr hother

/-- Whether all declarations of a graph were there before, but for modules as a whole and names of external modules. -/
structure Stems (g h : Graph) : Prop where
  relinked : Relinked g h
  length : g.declarations.length ≤ h.declarations.length
  declarations : ∀ (id : Nat) (e : Declaration), h.declarations[id]? = some e →
    (∃ d, g.declarations[id]? = some d ∧ Lasts g id d e) ∨
      g.declarations.length ≤ id ∧ (e.isExternal = true ∨ e.isObject = true ∨ g.Surrogate id)

theorem Stems.of_declarations (hr : Relinked g h) (hd : h.declarations = g.declarations) : Stems g h :=
  ⟨hr, Nat.le_of_eq (congrArg List.length hd).symm, fun id e he => .inl ⟨e, hd ▸ he, .refl g id e⟩⟩

theorem Stems.refl (g : Graph) : Stems g g := .of_declarations (.refl g) rfl

theorem Stems.trans (h₁ : Stems g h) (h₂ : Stems h k) : Stems g k where
  relinked := h₁.relinked.trans h₂.relinked
  length := Nat.le_trans h₁.length h₂.length
  declarations id f hf := by
    have hsurrogate : h.Surrogate id → g.Surrogate id := h₁.relinked.surrogate.mp
    rcases h₂.declarations id f hf with ⟨e, he, hstatement, hkind⟩ | ⟨hid, hnew⟩
    · have hef : Lasts g id e f := ⟨hstatement, hkind.imp_right (·.imp_right (·.imp_left hsurrogate))⟩
      rcases h₁.declarations id e he with ⟨d, hd, hde⟩ | ⟨hid, hnew⟩
      · exact .inl ⟨d, hd, hde.trans hef⟩
      · refine .inr ⟨hid, ?_⟩
        rcases hef.kind with hsame | hobject | ⟨hid, -⟩
        · have hexternal : f.isExternal = e.isExternal := by
            rw [Declaration.isExternal, Declaration.isExternal, hsame]
          have hobject : f.isObject = e.isObject := by rw [Declaration.isObject, Declaration.isObject, hsame]
          rw [hexternal, hobject]
          exact hnew
        · exact .inr (.inl hobject)
        · exact .inr (.inr hid)
    · exact .inr ⟨Nat.le_trans h₁.length hid, hnew.imp_right (·.imp_right hsurrogate)⟩

theorem Tweak.stems (ht : Tweak g h) : Stems g h := by
  have hr : Relinked g h := Change.relinked (.tweak ht)
  cases ht with
  | push d hd hkind =>
    refine ⟨hr, by simp [Graph.push], fun id e he => ?_⟩
    rw [Graph.push, List.getElem?_append] at he
    split at he
    · exact .inl ⟨e, he, .refl g id e⟩
    · next hid =>
      obtain rfl := List.mem_singleton.mp (List.mem_of_getElem? he)
      exact .inr ⟨Nat.le_of_not_lt hid, hkind.imp_right .inl⟩
  | declaration i f hf =>
    refine ⟨hr, by simp [modifyDeclaration], fun id e he => ?_⟩
    rw [modifyDeclaration, getElem?_modify_eq] at he
    split at he
    · next hid =>
      subst hid
      obtain ⟨d, hd, rfl⟩ := Option.map_eq_some_iff.mp he
      exact .inl ⟨d, hd, (hf d).toLasts⟩
    · exact .inl ⟨e, he, .refl g id e⟩
  | external | whole | value | global => exact .of_declarations hr rfl

theorem Changes.stems (hc : Changes g h) : Stems g h := by
  induction hc with
  | refl => exact .refl g
  | tail _ hstep ih =>
    refine ih.trans ?_
    cases hstep with
    | tweak ht => exact ht.stems
    | stars => exact .of_declarations (Change.relinked .stars) rfl
    | references r references hr => exact .of_declarations (Change.relinked (.references r references hr)) rfl

theorem Grown.stems (hG : Grown g h) : Stems g h := by
  refine ⟨hG.relinked, Nat.le_of_not_lt fun hlt => ?_, fun id e he => ?_⟩
  · obtain ⟨e, he, -⟩ := hG.kept _ _ (List.getElem?_eq_getElem hlt)
    rw [List.getElem?_eq_none (Nat.le_refl _)] at he
    cases he
  · cases hd : g.declarations[id]? with
    | some d =>
      obtain ⟨e', he', hkept⟩ := hG.kept id d hd
      obtain rfl := Option.some.inj (he.symm.trans he')
      refine .inl ⟨d, rfl, hkept.statement, hkept.kind.imp_right fun ⟨i, members, _, hobject⟩ => .inl ?_⟩
      rw [Declaration.isObject, hobject]
    | none =>
      refine .inr ⟨List.getElem?_eq_none_iff.mp hd, ?_⟩
      obtain ⟨-, -, hown⟩ := hG.bare id e he hd
      have hentity := hown id
      unfold Declaration.entity at hentity
      cases hkind : e.kind <;> simp [hkind, Declaration.isExternal, Declaration.isObject] at hentity ⊢

theorem Renamed.stems (hr : Renamed g h) : Stems g h := by
  have hlength := congrArg List.length hr.declarations
  rw [List.length_map, List.length_map] at hlength
  have hmodules : Relinked g h := by
    rw [Relinked, hr.modules]
    exact Relinked.refl g
  refine ⟨hmodules, Nat.le_of_eq hlength.symm, fun id e he => ?_⟩
  obtain ⟨d, hd, heq⟩ := hr.declaration he
  have hstatement : d.statement = e.statement := congrArg (·.statement) heq
  have hkind : d.kind = e.kind := congrArg (·.kind) heq
  exact .inl ⟨d, hd, hstatement.symm, .inl hkind.symm⟩

theorem Stems.own (hs : Stems g h) (hg : ∀ id, g.Surrogate id → id < g.declarations.length)
    (he : h.declarations[id]? = some e) (hown : e.entity id = .own id) :
    ∃ d, g.declarations[id]? = some d ∧ e.statement = d.statement ∧
      (e.kind = d.kind ∨ g.Surrogate id ∧ ∃ k, e.kind = .defaultValue (some k)) := by
  rcases hs.declarations id e he with ⟨d, hd, hstatement, hkind⟩ | ⟨hid, hnew⟩
  · refine ⟨d, hd, hstatement, hkind.imp_right fun h => h.resolve_left fun hobject => ?_⟩
    exact Declaration.not_own (.inr hobject) id hown
  · rcases hnew with hexternal | hobject | hsurrogate
    · exact absurd hown (Declaration.not_own (.inl hexternal) id)
    · exact absurd hown (Declaration.not_own (.inr hobject) id)
    · exact absurd hid (Nat.not_le_of_lt (hg id hsurrogate))

theorem binding_linkAll {next module j : Nat} {ms : List (Module × Table Target)}
    (hd : (linkAll next module ms).2[j]? = some d) : ∃ (i : Nat) (l : LinkedModule) (b : TopBinding),
      (linkAll next module ms).1[i]? = some l ∧ b ∈ l.bindings ∧ (b.key, next + j) ∈ l.declarations ∧
      d = b.declare (module + i) := by
  induction ms generalizing next module j with
  | nil => cases hd
  | cons p ms ih =>
    obtain ⟨m, targets⟩ := p
    rw [linkAll_cons] at hd ⊢
    dsimp only at hd ⊢
    rw [List.getElem?_append] at hd
    split at hd
    · rw [declareBindings, List.getElem?_map] at hd
      obtain ⟨b, hb, rfl⟩ := Option.map_eq_some_iff.mp hd
      obtain ⟨hj, heq⟩ := List.getElem?_eq_some_iff.mp hb
      refine ⟨0, _, b, rfl, List.mem_of_getElem? hb, List.mem_mapIdx.mpr ⟨j, hj, ?_⟩, rfl⟩
      rw [heq]
    · next hj =>
      obtain ⟨i, l, b, hl, hb, hid, heq⟩ := ih hd
      refine ⟨i + 1, l, b, hl, hb, ?_, ?_⟩
      · rwa [Nat.add_assoc, Nat.add_sub_cancel' (Nat.le_of_not_lt hj)] at hid
      · rw [heq, Nat.add_assoc, Nat.add_comm 1 i]

theorem declared_linkAll {next module i : Nat} {ms : List (Module × Table Target)} {l : LinkedModule} {key : String}
    (hl : (linkAll next module ms).1[i]? = some l) (hid : (key, id) ∈ l.declarations) :
    ∃ b ∈ l.bindings, b.key = key ∧ next ≤ id ∧
      (linkAll next module ms).2[id - next]? = some (b.declare (module + i)) := by
  induction ms generalizing next module i with
  | nil => cases hl
  | cons p ms ih =>
    obtain ⟨m, targets⟩ := p
    rw [linkAll_cons] at hl ⊢
    dsimp only at hl ⊢
    cases i with
    | zero =>
      obtain rfl := Option.some.inj hl
      obtain ⟨j, hj, heq⟩ := List.mem_mapIdx.mp hid
      obtain ⟨rfl, rfl⟩ := Prod.mk.inj heq
      refine ⟨m.bindings[j], List.getElem_mem hj, rfl, Nat.le_add_right next j, ?_⟩
      rw [Nat.add_sub_cancel_left, List.getElem?_append_left (by rwa [declareBindings, List.length_map]),
        declareBindings, List.getElem?_map, List.getElem?_eq_getElem hj]
      rfl
    | succ i =>
      obtain ⟨b, hb, hkey, hle, hd⟩ := ih hl
      refine ⟨b, hb, hkey, by omega, ?_⟩
      rw [List.getElem?_append_right (by omega), Nat.sub_sub, hd, Nat.add_assoc, Nat.add_comm 1 i]

theorem keys_linkAll {next module i : Nat} {ms : List (Module × Table Target)} {l : LinkedModule}
    (hl : (linkAll next module ms).1[i]? = some l) : l.declarations.keys = l.bindings.map (·.key) := by
  induction ms generalizing next module i with
  | nil => cases hl
  | cons p ms ih =>
    rw [linkAll_cons] at hl
    cases i with
    | zero =>
      obtain rfl := Option.some.inj hl
      refine List.ext_getElem? fun j => ?_
      rw [Table.keys, declareBindings, List.getElem?_map, List.getElem?_mapIdx, List.getElem?_map, Option.map_map]
      rfl
    | succ i => exact ih hl

/-- A declaration of a binding of a module that has been linked. -/
structure StemsFrom (g : Graph) (id : Nat) (e : Declaration) (i : Nat) (l m : LinkedModule) (b : TopBinding) :
    Prop where
  module : g.modules[i]? = some m
  relinked : l.Relinked m
  keys : m.declarations.keys = l.bindings.map (·.key)
  binding : b ∈ l.bindings
  own : (b.key, id) ∈ m.declarations
  statement : e.statement = (b.declare i).statement
  kind : e.kind = (b.declare i).kind ∨ g.Surrogate id ∧ ∃ k, e.kind = .defaultValue (some k)

theorem StemsFrom.get? {i : Nat} {l m : LinkedModule} {b : TopBinding} (hs : StemsFrom g id e i l m b)
    (hkeys : (l.bindings.map (·.key)).Nodup) : m.declarations.get? b.key = some id :=
  Table.get?_of_mem (e := (b.key, id)) (hs.keys ▸ hkeys) hs.own

section
variable {modules : List (Module × Table Target)} {externals : List External} (hf : Fetched modules externals)
  (hg : Built modules externals g)
include hf hg

theorem Built.stems : Stems (ofModules modules externals) g := by
  obtain ⟨stats, l, passes, h, order, hbind, hmark, rfl⟩ := hg
  have hR := ranged_starred hf
  have hw := wired_bind hR (wired_starred hf) hbind
  have hgrown : Grown l h := Scans.grown hR hw (.refl l) (mark_settles hR hw hmark).1
  exact ((Changes.stems (takes_bind stats l hbind)).trans hgrown.stems).trans (renamed_deconflict h order).stems

omit hg in
theorem Fetched.surrogate_lt (hid : (ofModules modules externals).Surrogate id) :
    id < (ofModules modules externals).declarations.length := by
  have hstarred : (starred modules externals).Surrogate id := (Change.relinked .stars).surrogate.mpr hid
  obtain ⟨i, m, identifier, hm, hdefault, -⟩ := hstarred
  obtain ⟨d, hd, -⟩ := (sound_starred hf).own i m.routes "default" id (by rw [getElem?_routes, hm, Option.map_some])
    (lookup_mem hdefault)
  exact (List.getElem?_eq_some_iff.mp hd).1

theorem Built.stemsFrom (he : g.declarations[id]? = some e) (hown : e.entity id = .own id) :
    ∃ i l m b, (ofModules modules externals).modules[i]? = some l ∧ StemsFrom g id e i l m b := by
  have hstems := hg.stems hf
  obtain ⟨d, hd, hstatement, hkind⟩ := hstems.own (fun _ => hf.surrogate_lt) he hown
  obtain ⟨i, l, b, hl, hb, hid, rfl⟩ := binding_linkAll hd
  obtain ⟨m, hm, hlm⟩ := forall₂_getElem? hstems.relinked hl
  have hdeclarations : m.declarations = l.declarations := congrArg (·.declarations) hlm.same
  rw [Nat.zero_add] at hid hstatement hkind
  refine ⟨i, l, m, b, hl, hm, hlm, ?_, hb, hdeclarations ▸ hid, hstatement, ?_⟩
  · rw [hdeclarations, keys_linkAll hl]
  · exact hkind.imp_right (·.imp_left hstems.relinked.surrogate.mpr)

theorem Built.stemsFrom_of_mem {i : Nat} {m : LinkedModule} {key : String} (hm : g.modules[i]? = some m)
    (hid : (key, id) ∈ m.declarations) : ∃ e l b, g.declarations[id]? = some e ∧ b.key = key ∧
      (ofModules modules externals).modules[i]? = some l ∧ StemsFrom g id e i l m b := by
  have hstems := hg.stems hf
  obtain ⟨l, hl, hlm⟩ := forall₂_getElem? hstems.relinked.flip hm
  have hdeclarations : m.declarations = l.declarations := congrArg (·.declarations) hlm.same
  obtain ⟨b, hb, rfl, -, hd⟩ := declared_linkAll hl (hdeclarations ▸ hid)
  rw [Nat.sub_zero, Nat.zero_add] at hd
  have hroutes : g.routes[i]? = some m.routes := by rw [getElem?_routes, hm, Option.map_some]
  obtain ⟨e, he, hown, -⟩ := (hg.fits hf).sound.own i m.routes b.key id hroutes hid
  obtain ⟨d, hd', hstatement, hkind⟩ := hstems.own (fun _ => hf.surrogate_lt) he hown
  obtain rfl := Option.some.inj (hd.symm.trans hd')
  refine ⟨e, l, b, he, rfl, hl, hm, hlm, ?_, hb, hid, hstatement, ?_⟩
  · rw [hdeclarations, keys_linkAll hl]
  · exact hkind.imp_right (·.imp_left hstems.relinked.surrogate.mpr)

theorem Built.stemsFrom_default {id : Nat} {e : Declaration} {underlying : Option Nat} (he : g.declaration? id = some e)
    (hkind : e.kind = .defaultValue underlying) : ∃ i l m b, b.key = "default" ∧
      (ofModules modules externals).modules[i]? = some l ∧ StemsFrom g id e i l m b := by
  have hown : e.entity id = .own id := by rw [Declaration.entity, hkind]
  obtain ⟨i, l, m, b, hl, hstems⟩ := hg.stemsFrom hf he hown
  rcases hstems.kind with hsame | ⟨⟨i', m', identifier, hm', hdefault, -⟩, -⟩
  · refine ⟨i, l, m, b, ?_, hl, hstems⟩
    by_contra hkey
    rw [hkind, TopBinding.declare, if_neg (by simpa using hkey)] at hsame
    cases hsame
  · obtain ⟨e', l', b', he', hkey, hl', hstems'⟩ := hg.stemsFrom_of_mem hf hm' (lookup_mem hdefault)
    obtain rfl := Option.some.inj (he.symm.trans he')
    exact ⟨i', l', m', b', hkey, hl', hstems'⟩

end

end Graph

end Treeshake
