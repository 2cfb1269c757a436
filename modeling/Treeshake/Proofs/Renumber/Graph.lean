import Mathlib
import Treeshake.Proofs.Graph.Growth
import Treeshake.Proofs.Module.Fresh
/-!
Graphs that differ in the numbers of their declarations only. Main statement: steps of a build that
respect the numbers do so one after the other.
-/
set_option autoImplicit false

namespace Treeshake

variable {π : Equiv.Perm Nat}

namespace Table

def renumber (π : Equiv.Perm Nat) (t : Table Nat) : Table Nat := t.map fun e => (e.1, π e.2)

@[simp] theorem values_renumber (t : Table Nat) : values (renumber π t) = (values t).map π := by
  simp [values, renumber]

@[simp] theorem has_renumber (key : String) (t : Table Nat) : has key (renumber π t) = has key t := by
  simp [has, renumber, List.any_map, Function.comp_def]

@[simp] theorem get?_renumber (key : String) (t : Table Nat) :
    get? key (renumber π t) = (get? key t).map π := by
  induction t with
  | nil => rfl
  | cons e t ih =>
    obtain ⟨k, id⟩ := e
    simp only [get?, renumber, List.map_cons, List.lookup_cons] at ih ⊢
    cases key == k with
    | true => rfl
    | false => exact ih

@[simp] theorem renumber_insert (key : String) (id : Nat) (t : Table Nat) :
    renumber π (insert key id t) = insert key (π id) (renumber π t) := by
  induction t with
  | nil => rfl
  | cons e t ih =>
    simp only [insert, renumber, List.map_cons] at ih ⊢
    split
    · rfl
    · simp only [List.map_cons, ih]

end Table

def Binding.renumber (π : Equiv.Perm Nat) : Binding → Binding
  | .declared id => .declared (π id)
  | b => b

def Reference.renumber (π : Equiv.Perm Nat) (r : Reference) : Reference :=
  { r with binding := r.binding.renumber π }

@[simp] theorem Reference.declaration?_renumber (r : Reference) :
    (r.renumber π).declaration? = r.declaration?.map π := by
  obtain ⟨_, _, _, _, _, b, _, _, _⟩ := r
  cases b <;> rfl

def Statement.renumber (π : Equiv.Perm Nat) (s : Statement) : Statement :=
  { s with references := s.references.map (·.renumber π) }

def LinkedModule.renumber (π : Equiv.Perm Nat) (m : LinkedModule) : LinkedModule :=
  { m with
    statements := m.statements.map (·.renumber π)
    declarations := m.declarations.renumber π
    object := m.object.map π }

def External.renumber (π : Equiv.Perm Nat) (e : External) : External :=
  { e with declarations := e.declarations.renumber π }

def DeclarationKind.renumber (π : Equiv.Perm Nat) : DeclarationKind → DeclarationKind
  | .binding => .binding
  | .defaultValue standsFor => .defaultValue (standsFor.map π)
  | .object module members asValue => .object module (members.renumber π) asValue
  | .external outside name => .external outside name

def Declaration.renumber (π : Equiv.Perm Nat) (d : Declaration) : Declaration :=
  { d with kind := d.kind.renumber π, aliases := d.aliases.map π }

section Twice

variable (ρ : Equiv.Perm Nat)

theorem Table.renumber_renumber (t : Table Nat) : (t.renumber π).renumber ρ = t.renumber (π.trans ρ) := by
  simp [Table.renumber, Function.comp_def]

theorem Binding.renumber_renumber (b : Binding) : (b.renumber π).renumber ρ = b.renumber (π.trans ρ) := by
  cases b <;> rfl

theorem Statement.renumber_renumber (s : Statement) :
    (s.renumber π).renumber ρ = s.renumber (π.trans ρ) := by
  simp [Statement.renumber, Reference.renumber, Binding.renumber_renumber, Function.comp_def]

theorem LinkedModule.renumber_renumber (m : LinkedModule) :
    (m.renumber π).renumber ρ = m.renumber (π.trans ρ) := by
  simp [LinkedModule.renumber, Statement.renumber_renumber, Table.renumber_renumber, Function.comp_def]

theorem External.renumber_renumber (e : External) : (e.renumber π).renumber ρ = e.renumber (π.trans ρ) := by
  simp [External.renumber, Table.renumber_renumber]

theorem Declaration.renumber_renumber (d : Declaration) :
    (d.renumber π).renumber ρ = d.renumber (π.trans ρ) := by
  obtain ⟨name, kind, statement, reassigned, exported, used, aliases⟩ := d
  cases kind <;>
    simp [Declaration.renumber, DeclarationKind.renumber, Table.renumber_renumber, Function.comp_def]

end Twice

section Same

theorem Table.renumber_refl (t : Table Nat) : t.renumber (.refl Nat) = t := by simp [Table.renumber]

theorem Reference.renumber_refl (r : Reference) : r.renumber (.refl Nat) = r := by
  obtain ⟨_, _, _, _, _, b, _, _, _⟩ := r
  cases b <;> rfl

theorem Statement.renumber_refl (s : Statement) : s.renumber (.refl Nat) = s := by
  simp [Statement.renumber, Reference.renumber_refl]

theorem LinkedModule.renumber_refl (m : LinkedModule) : m.renumber (.refl Nat) = m := by
  simp [LinkedModule.renumber, Statement.renumber_refl, Table.renumber_refl]

theorem External.renumber_refl (e : External) : e.renumber (.refl Nat) = e := by
  simp [External.renumber, Table.renumber_refl]

theorem Declaration.renumber_refl (d : Declaration) : d.renumber (.refl Nat) = d := by
  obtain ⟨name, kind, statement, reassigned, exported, used, aliases⟩ := d
  cases kind <;> simp [Declaration.renumber, DeclarationKind.renumber, Table.renumber_refl]

end Same

namespace Graph

theorem map_modify_comm {α β : Type} {p : α → β} {f : α → α} {f' : β → β}
    (hf : ∀ a, f' (p a) = p (f a)) (l : List α) (i : Nat) :
    (l.map p).modify i f' = (l.modify i f).map p := by
  refine List.ext_getElem? fun j => ?_
  simp only [List.getElem?_map, getElem?_modify_eq]
  split
  · simp [Function.comp_def, hf]
  · rfl

theorem renumber_modifyStatement (F E : Statement → Statement)
    (hF : ∀ s, E (s.renumber π) = (F s).renumber π) (m : LinkedModule) (index : Nat) :
    { m.renumber π with statements := (m.renumber π).statements.modify index E } =
      ({ m with statements := m.statements.modify index F } : LinkedModule).renumber π :=
  congrArg (fun statements => { m.renumber π with statements }) (map_modify_comm hF m.statements index)

/-- The second graph is the first with other numbers for its declarations. -/
structure Renumbers (π : Equiv.Perm Nat) (g h : Graph) : Prop where
  modules : h.modules = g.modules.map (·.renumber π)
  externals : h.externals = g.externals.map (·.renumber π)
  length : h.declarations.length = g.declarations.length
  declarations : ∀ id, h.declarations[π id]? = g.declarations[id]?.map (·.renumber π)
  beyond : ∀ id, g.declarations.length ≤ id → π id = id
  globals : h.globals = g.globals
  objects : h.objects = g.objects.map π
  entryExports : h.entryExports = g.entryExports.renumber π

namespace Renumbers

variable {g h : Graph}

theorem symm (R : Renumbers π g h) : Renumbers π.symm h g where
  modules := by
    simp [R.modules, LinkedModule.renumber_renumber, LinkedModule.renumber_refl, Function.comp_def]
  externals := by
    simp [R.externals, External.renumber_renumber, External.renumber_refl, Function.comp_def]
  length := R.length.symm
  declarations id := by
    have hd := R.declarations (π.symm id)
    rw [π.apply_symm_apply] at hd
    simp [hd, Declaration.renumber_renumber, Declaration.renumber_refl, Function.comp_def]
  beyond id hid := (Equiv.symm_apply_eq π).mpr (R.beyond id (R.length ▸ hid)).symm
  globals := R.globals.symm
  objects := by simp [R.objects]
  entryExports := by simp [R.entryExports, Table.renumber_renumber, Table.renumber_refl]

theorem trans {ρ : Equiv.Perm Nat} {k : Graph} (R : Renumbers π g h) (S : Renumbers ρ h k) :
    Renumbers (π.trans ρ) g k where
  modules := by simp [S.modules, R.modules, LinkedModule.renumber_renumber, Function.comp_def]
  externals := by simp [S.externals, R.externals, External.renumber_renumber, Function.comp_def]
  length := S.length.trans R.length
  declarations id := by
    simp [S.declarations, R.declarations, Declaration.renumber_renumber, Function.comp_def]
  beyond id hid := by rw [Equiv.trans_apply, R.beyond id hid, S.beyond id (R.length ▸ hid)]
  globals := S.globals.trans R.globals
  objects := by simp [S.objects, R.objects]
  entryExports := by rw [S.entryExports, R.entryExports, Table.renumber_renumber]

@[simp] theorem declaration? (R : Renumbers π g h) (id : Nat) :
    h.declaration? (π id) = (g.declaration? id).map (·.renumber π) := R.declarations id

theorem module? (R : Renumbers π g h) (i : Nat) : h.modules[i]? = g.modules[i]?.map (·.renumber π) := by
  rw [R.modules, List.getElem?_map]

theorem external? (R : Renumbers π g h) (i : Nat) :
    h.externals[i]? = g.externals[i]?.map (·.renumber π) := by
  rw [R.externals, List.getElem?_map]

theorem statement? (R : Renumbers π g h) (r : StatementRef) :
    h.statement? r = (g.statement? r).map (·.renumber π) := by
  rw [Graph.statement?, Graph.statement?, R.module?]
  cases g.modules[r.module]? with
  | none => rfl
  | some m => exact List.getElem?_map

theorem moduleId (R : Renumbers π g h) (i : Nat) : h.moduleId i = g.moduleId i := by
  rw [Graph.moduleId, Graph.moduleId, R.module?, Option.map_map]
  rfl

theorem modifyModule {F E : LinkedModule → LinkedModule} (R : Renumbers π g h) (i : Nat)
    (hF : ∀ m, E (m.renumber π) = (F m).renumber π) :
    Renumbers π (g.modifyModule i F) (h.modifyModule i E) :=
  { R with
    modules := by
      rw [Graph.modifyModule, R.modules]
      exact map_modify_comm hF _ i }

theorem modifyExternal {F E : External → External} (R : Renumbers π g h) (i : Nat)
    (hF : ∀ e, E (e.renumber π) = (F e).renumber π) :
    Renumbers π (g.modifyExternal i F) (h.modifyExternal i E) :=
  { R with
    externals := by
      rw [Graph.modifyExternal, R.externals]
      exact map_modify_comm hF _ i }

theorem modifyDeclaration {F E : Declaration → Declaration} (R : Renumbers π g h) (id : Nat)
    (hF : ∀ d, E (d.renumber π) = (F d).renumber π) :
    Renumbers π (g.modifyDeclaration id F) (h.modifyDeclaration (π id) E) :=
  { R with
    length := by simpa [Graph.modifyDeclaration] using R.length
    beyond := fun id' h' => R.beyond id' (by simpa [Graph.modifyDeclaration] using h')
    declarations := fun j => by
      simp only [Graph.modifyDeclaration, getElem?_modify_eq, R.declarations,
        EmbeddingLike.apply_eq_iff_eq]
      split
      · simp [Function.comp_def, hF]
      · rfl }

theorem push (R : Renumbers π g h) (d : Declaration) :
    Renumbers π (g.push d) (h.push (d.renumber π)) :=
  { R with
    length := by simp [Graph.push, R.length]
    beyond := fun id h' => R.beyond id (by simp [Graph.push] at h'; omega)
    declarations := fun id => by
      rcases Nat.lt_trichotomy id g.declarations.length with hlt | rfl | hgt
      · have hlt' : π id < h.declarations.length := by
          have hsome := R.declarations id
          rw [List.getElem?_eq_getElem hlt] at hsome
          exact (List.getElem?_eq_some_iff.mp hsome).1
        simp only [Graph.push, List.getElem?_append_left hlt, List.getElem?_append_left hlt',
          R.declarations]
      · have hlast : (h.push (d.renumber π)).declarations[h.declarations.length]? =
            some (d.renumber π) := by simp [Graph.push]
        rw [R.beyond _ (Nat.le_refl _), ← R.length, hlast]
        simp [Graph.push, R.length]
      · have hnone : ∀ (k : Graph) (d' : Declaration), k.declarations.length = g.declarations.length →
            (k.push d').declarations[id]? = none := fun k d' hk => by
          simp [Graph.push, hk]
          omega
        rw [R.beyond id (Nat.le_of_lt hgt), hnone h _ R.length, hnone g _ rfl]
        rfl }

end Renumbers

section Steps

variable {α α' β β' : Type} {φ : α → α'} {ψ : β → β'}

/-- Results that differ in numbers only: the same failure, or values and graphs that go together. -/
def Follows (π : Equiv.Perm Nat) (φ : α → α') : Except Error (α × Graph) → Except Error (α' × Graph) → Prop
  | .ok r, .ok r' => r'.1 = φ r.1 ∧ Renumbers π r.2 r'.2
  | .error e, .error e' => e' = e
  | _, _ => False

theorem Follows.ok_or_error {x : Except Error (α × Graph)} {y : Except Error (α' × Graph)}
    (h : Follows π φ x y) : (∃ e, x = .error e ∧ y = .error e) ∨
      ∃ a g k, x = .ok (a, g) ∧ y = .ok (φ a, k) ∧ Renumbers π g k := by
  match x, y, h with
  | .error e, .error _, rfl => exact .inl ⟨e, rfl, rfl⟩
  | .ok (a, g), .ok (_, k), ⟨rfl, R⟩ => exact .inr ⟨a, g, k, rfl, rfl, R⟩

/-- Steps that do the same to graphs that differ in numbers only. -/
def Respects (π : Equiv.Perm Nat) (φ : α → α') (x : Build α) (y : Build α') : Prop :=
  ∀ g h, Renumbers π g h → Follows π φ (x.run g) (y.run h)

namespace Respects

theorem pure {a : α} {a' : α'} (h : a' = φ a) : Respects π φ (pure a) (pure a') :=
  fun _ _ R => ⟨h, R⟩

theorem throw (e : Error) : Respects π φ (throw e) (throw e) := fun _ _ _ => rfl

theorem set {g h : Graph} (R : Renumbers π g h) : Respects π (fun _ => ()) (set g) (set h) :=
  fun _ _ _ => ⟨rfl, R⟩

theorem modify {F E : Graph → Graph} (hF : ∀ g h, Renumbers π g h → Renumbers π (F g) (E h)) :
    Respects π (fun _ => ()) (modify F) (modify E) :=
  fun g h R => ⟨rfl, hF g h R⟩

theorem bind {x : Build α} {y : Build α'} {k : α → Build β} {k' : α' → Build β'}
    (hx : Respects π φ x y) (hk : ∀ a, Respects π ψ (k a) (k' (φ a))) :
    Respects π ψ (x >>= k) (y >>= k') := by
  intro g h R
  rw [StateT.run_bind, StateT.run_bind]
  obtain ⟨e, hg, hh⟩ | ⟨a, g', h', hg, hh, R'⟩ := (hx g h R).ok_or_error
  · rw [hg, hh]
    exact rfl
  · rw [hg, hh]
    exact hk a g' h' R'

theorem ite {c c' : Prop} [Decidable c] [Decidable c'] {x x' : Build α} {y y' : Build α'} (hc : c ↔ c')
    (ht : c → Respects π φ x y) (hf : ¬c → Respects π φ x' y') :
    Respects π φ (if c then x else x') (if c' then y else y') := by
  by_cases h : c
  · rw [if_pos h, if_pos (hc.mp h)]
    exact ht h
  · rw [if_neg h, if_neg fun h' => h (hc.mpr h')]
    exact hf h

theorem get_bind {k : Graph → Build β} {k' : Graph → Build β'}
    (hk : ∀ g h, Renumbers π g h → Respects π ψ (k g) (k' h)) :
    Respects π ψ (get >>= k) (get >>= k') :=
  fun g h R => hk g h R g h R

theorem foldlM {γ γ' : Type} {χ : γ → γ'} {step : α → γ → Build α} {step' : α' → γ' → Build α'}
    (hstep : ∀ a c, Respects π φ (step a c) (step' (φ a) (χ c))) (l : List γ) (a : α) :
    Respects π φ (l.foldlM step a) ((l.map χ).foldlM step' (φ a)) := by
  induction l generalizing a with
  | nil => exact pure rfl
  | cons c l ih =>
    rw [List.map_cons, List.foldlM_cons, List.foldlM_cons]
    exact (hstep a c).bind ih

theorem foldlM_same {γ : Type} {step : α → γ → Build α} {step' : α' → γ → Build α'}
    (hstep : ∀ a c, Respects π φ (step a c) (step' (φ a) c)) (l : List γ) (a : α) :
    Respects π φ (l.foldlM step a) (l.foldlM step' (φ a)) := by
  have hfold := foldlM (χ := fun c => c) hstep l a
  rwa [List.map_id'] at hfold

theorem mapM {step : α → Build β} {step' : α → Build β'}
    (hstep : ∀ a, Respects π ψ (step a) (step' a)) (l : List α) :
    Respects π (List.map ψ) (l.mapM step) (l.mapM step') := by
  induction l with
  | nil => exact pure rfl
  | cons a l ih =>
    rw [List.mapM_cons, List.mapM_cons]
    exact (hstep a).bind fun b => ih.bind fun bs => pure rfl

theorem forM {step step' : α → Build Unit} (hstep : ∀ a, Respects π (fun _ => ()) (step a) (step' a))
    (l : List α) : Respects π (fun _ => ()) (l.forM step) (l.forM step') := by
  induction l with
  | nil => exact pure rfl
  | cons a l ih => exact (hstep a).bind fun _ => ih

end Respects

end Steps

end Graph

end Treeshake
