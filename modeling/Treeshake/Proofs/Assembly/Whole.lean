import Treeshake.Output.Wrapper
import Treeshake.Proofs.Assembly.Map
import Treeshake.Proofs.Draft.Whole
/-!
Drafts in assemblies. Main statement: what trimming a draft leaves true of it, and indenting it, is still true of it in
the wrapper of every format.
-/
set_option autoImplicit false

namespace Treeshake

/-- What trimming leaves true of a draft, and indenting it by a unit. -/
structure Draft.Lasting (unit : String) (P : Draft → Prop) : Prop where
  trimStart : ∀ d, P d → P (d.trimStart Text.isBlank)
  trimEnd : ∀ d, P d → P (d.trimEnd Text.isBlank)
  indent : ∀ d atStart, P d → P (d.indent unit d.protectedRanges atStart)

theorem Draft.lasting_guards (unit : String) (start : Nat) (first : Char) (inner : List Char) (last : Char) :
    Lasting unit (Guards unit start first inner last) where
  trimStart _ h := h.trimStart
  trimEnd _ h := h.trimEnd
  indent _ atStart h := h.indent atStart

def Part.Holds (file : String) (P : Draft → Prop) (p : Part) : Prop := p.filename = some file ∧ P p.draft

/-- The unit that goes in front of the lines of modules, if one is guessed from them. Only a format that wraps them in a
function moves them inward. -/
def OutputOptions.unit (o : OutputOptions) (guessed : String) : String :=
  if o.format = .es6 ∨ o.format = .cjs then "" else o.indent.resolve guessed

def OutputOptions.Indents (o : OutputOptions) : Prop := o.unit "\t" ≠ ""

instance (o : OutputOptions) : Decidable o.Indents := inferInstanceAs (Decidable (_ ≠ _))

theorem OutputOptions.indents_of_unit {o : OutputOptions} {guessed : String} (h : o.unit guessed ≠ "") : o.Indents := by
  rw [Indents]
  unfold unit at h ⊢
  split
  · next hplain =>
    rw [if_pos hplain] at h
    exact h
  · next hwrapped =>
    rw [if_neg hwrapped] at h
    cases hindent : o.indent with
    | auto => exact (by decide : "\t" ≠ "")
    | none | unit =>
      rw [hindent] at h
      exact h

namespace Assembly

variable {file unit : String} {P : Draft → Prop} {a a' : Assembly} {ps : List Part}

/-- A file has a part whose draft is such. -/
def Holds (file : String) (P : Draft → Prop) (a : Assembly) : Prop := ∃ p ∈ a.parts, p.Holds file P

theorem exists_cutParts {cut : Draft → Draft} (hcut : ∀ d, P d → P (cut d)) (h : ∃ p ∈ ps, p.Holds file P) :
    ∃ p ∈ (cutParts cut ps).1, p.Holds file P := by
  induction ps with
  | nil =>
    obtain ⟨p, hp, -⟩ := h
    cases hp
  | cons q ps ih =>
    obtain ⟨p, hp, hfile, hdraft⟩ := h
    rw [cutParts]
    dsimp only
    split
    · rcases List.mem_cons.mp hp with rfl | hp
      · exact ⟨_, List.mem_cons_self, hfile, hcut _ hdraft⟩
      · obtain ⟨p', hp', hholds⟩ := ih ⟨p, hp, hfile, hdraft⟩
        exact ⟨p', List.mem_cons_of_mem _ hp', hholds⟩
    · rcases List.mem_cons.mp hp with rfl | hp
      · exact ⟨_, List.mem_cons_self, hfile, hcut _ hdraft⟩
      · exact ⟨p, List.mem_cons_of_mem _ hp, hfile, hdraft⟩

theorem exists_indentParts {separator : String} {first afterBreak : Bool}
    (hindent : ∀ d atStart, P d → P (d.indent unit d.protectedRanges atStart)) (h : ∃ p ∈ ps, p.Holds file P) :
    ∃ p ∈ indentParts separator unit first afterBreak ps, p.Holds file P := by
  induction ps generalizing first afterBreak with
  | nil =>
    obtain ⟨p, hp, -⟩ := h
    cases hp
  | cons q ps ih =>
    obtain ⟨p, hp, hfile, hdraft⟩ := h
    rw [indentParts]
    rcases List.mem_cons.mp hp with rfl | hp
    · exact ⟨_, List.mem_cons_self, hfile, hindent _ _ hdraft⟩
    · obtain ⟨p', hp', hholds⟩ := ih ⟨p, hp, hfile, hdraft⟩
      exact ⟨p', List.mem_cons_of_mem _ hp', hholds⟩

theorem parts_add {d : Draft} {filename : Option String} (h : a.add d filename = .ok a') :
    a'.parts = a.parts ++ [⟨d, filename, none⟩] := by
  unfold add at h
  split at h
  · obtain rfl := Except.ok.inj h
    rfl
  · split at h
    · obtain rfl := Except.ok.inj h
      rfl
    · split at h
      · obtain rfl := Except.ok.inj h
        rfl
      · cases h

theorem holds_add {d : Draft} {filename : Option String} (h : a.Holds file P) (hadd : a.add d filename = .ok a') :
    a'.Holds file P := by
  obtain ⟨p, hp, hholds⟩ := h
  exact ⟨p, parts_add hadd ▸ List.mem_append_left _ hp, hholds⟩

theorem holds_append (h : a.Holds file P) (text : String) : (a.append text).Holds file P := by
  obtain ⟨p, hp, hholds⟩ := h
  exact ⟨p, List.mem_append_left _ hp, hholds⟩

theorem holds_prepend (h : a.Holds file P) (text : String) : (a.prepend text).Holds file P := h

theorem holds_indent (hP : Draft.Lasting unit P) (h : a.Holds file P) : (a.indent unit).Holds file P :=
  exists_indentParts hP.indent h

theorem holds_trimStart (hP : Draft.Lasting unit P) (h : a.Holds file P) : a.trimStart.Holds file P := by
  unfold trimStart
  dsimp only
  split
  · exact h
  · exact exists_cutParts hP.trimStart h

theorem holds_trimEnd (hP : Draft.Lasting unit P) (h : a.Holds file P) : a.trimEnd.Holds file P := by
  unfold trimEnd
  dsimp only
  split
  · exact h
  · obtain ⟨p, hp, hholds⟩ := h
    obtain ⟨p', hp', hholds'⟩ := exists_cutParts hP.trimEnd ⟨p, List.mem_reverse.mpr hp, hholds⟩
    exact ⟨p', List.mem_reverse.mpr hp', hholds'⟩

theorem holds_trim (hP : Draft.Lasting unit P) (h : a.Holds file P) : a.trim.Holds file P :=
  holds_trimEnd hP (holds_trimStart hP h)

theorem part_mem_stretches {p : Part} (h : p ∈ a.parts) : .part p ∈ a.stretches := by
  have hparts : ∀ (first : Bool) (ps : List Part), p ∈ ps → .part p ∈ partStretches a.separator first ps := by
    intro first ps hp
    induction ps generalizing first with
    | nil => cases hp
    | cons q ps ih =>
      rw [partStretches]
      rcases List.mem_cons.mp hp with rfl | hp
      · exact List.mem_cons_of_mem _ List.mem_cons_self
      · exact List.mem_cons_of_mem _ (List.mem_cons_of_mem _ (ih false hp))
  exact List.mem_append_left _ (List.mem_cons_of_mem _ (hparts true a.parts h))

theorem infix_characters {p : Part} (hp : p ∈ a.parts) (hfile : p.filename = some file) {cells : List Cell}
    (hcells : cells <:+: p.draft.cells) :
    (cells.map fun c => (c.char, c.origin.map (file, ·))) <:+: a.characters := by
  have hpart : (cells.map fun c => (c.char, c.origin.map (file, ·))) <:+: (Stretch.part p).characters := by
    rw [Stretch.characters, hfile]
    exact hcells.map _
  obtain ⟨us, vs, hstretches⟩ := List.append_of_mem (part_mem_stretches hp)
  rw [characters, hstretches, List.flatMap_append, List.flatMap_cons, ← List.append_assoc]
  exact hpart.trans (List.infix_append _ _ _)

end Assembly

namespace Wrapper

open Assembly

variable {file unit : String} {P : Draft → Prop} {a : Assembly} {w : Wrapper}

theorem holds_prependBlock (h : a.Holds file P) (text : String) : (prependBlock text a).Holds file P := by
  rw [prependBlock]
  split
  · exact h
  · exact holds_prepend h _

theorem holds_appendBlock (h : a.Holds file P) (text : String) : (appendBlock text a).Holds file P := by
  rw [appendBlock]
  split
  · exact h
  · exact holds_append h _

theorem holds_body (h : a.Holds file P) (mechanism : String) : (w.body mechanism a).Holds file P :=
  holds_appendBlock (holds_prependBlock h _) _

theorem holds_wrap (hunit : w.indent = w.options.indent.resolve w.guessed)
    (hP : Draft.Lasting (w.options.unit w.guessed) P) (h : a.Holds file P) : (w.wrap a).Holds file P := by
  have hindent : ¬(w.options.format = .es6 ∨ w.options.format = .cjs) → Draft.Lasting w.indent P := by
    intro hwrapped
    rw [OutputOptions.unit, if_neg hwrapped] at hP
    exact hunit ▸ hP
  rw [wrap]
  split
  · exact holds_trim hP (holds_appendBlock (holds_prependBlock h _) _)
  · exact holds_appendBlock (holds_prepend h _) _
  · next hamd =>
    have hP := hindent (by rw [hamd]; decide)
    exact holds_prepend (holds_append (holds_indent hP (holds_body h _)) _) _
  · next hiife =>
    have hP := hindent (by rw [hiife]; decide)
    exact holds_append (holds_prepend (holds_indent hP (holds_body h _)) _) _
  · next humd =>
    have hP := hindent (by rw [humd]; decide)
    exact holds_prepend (holds_append (holds_indent hP (holds_trim hP (holds_body h _))) _) _

end Wrapper

end Treeshake
