import Treeshake.Assembly
import Treeshake.Proofs.Draft.Edits
/-!
Building assemblies. Main statement: whatever is added, indented and trimmed, every part keeps an intact
draft of the text that is recorded under its filename.
-/
set_option autoImplicit false

namespace Treeshake

namespace Assembly

/-- The changes an assembly can undergo; what is added was edited before. -/
inductive Change where
  | add (source : String) (edits : List Edit) (filename : Option String)
  | append (text : String)
  | prepend (text : String)
  | indent (unit : String)
  | trim
  | trimStart
  | trimEnd
  deriving DecidableEq, Repr

def Change.apply (a : Assembly) : Change → Except EditFault Assembly
  | .add source edits filename => a.add ((Draft.ofText source).edit edits) filename
  | .append text => .ok (a.append text)
  | .prepend text => .ok (a.prepend text)
  | .indent unit => .ok (a.indent unit)
  | .trim => .ok a.trim
  | .trimStart => .ok a.trimStart
  | .trimEnd => .ok a.trimEnd

/-- Changes one after the other. One that is refused changes nothing. -/
def change (a : Assembly) : List Change → Assembly
  | [] => a
  | c :: cs => ((c.apply a).toOption.getD a).change cs

/-- A part's draft is intact, and the text it began with is the one recorded under its filename. -/
def Sound (a : Assembly) : Prop :=
  ∀ p ∈ a.parts, p.draft.Intact ∧
    ∀ f, p.filename = some f → a.sources.lookup f = some p.draft.source

def Follows (p q : Part) : Prop :=
  q.filename = p.filename ∧ q.draft.source = p.draft.source ∧ (p.draft.Intact → q.draft.Intact)

theorem follows_refl (p : Part) : Follows p p := ⟨rfl, rfl, id⟩

theorem Sound.of_follows {a b : Assembly} (ha : a.Sound) (hs : b.sources = a.sources)
    (hp : ∀ q ∈ b.parts, ∃ p ∈ a.parts, Follows p q) : b.Sound := by
  intro q hq
  obtain ⟨p, hmem, hname, hsource, hintact⟩ := hp q hq
  obtain ⟨hi, hf⟩ := ha p hmem
  refine ⟨hintact hi, fun f hqf => ?_⟩
  rw [hs, hsource]
  exact hf f (hname ▸ hqf)

theorem follows_indentParts {separator unit : String} {first afterBreak : Bool} {ps : List Part}
    {q : Part} (h : q ∈ indentParts separator unit first afterBreak ps) :
    ∃ p ∈ ps, Follows p q := by
  induction ps generalizing first afterBreak with
  | nil => simp [indentParts] at h
  | cons p ps ih =>
    rcases List.mem_cons.mp h with rfl | h
    · exact ⟨p, by simp, rfl, rfl, fun hi => Draft.intact_indent _ _ _ hi⟩
    · obtain ⟨r, hr, hf⟩ := ih h
      exact ⟨r, List.mem_cons_of_mem _ hr, hf⟩

theorem follows_cutParts {cut : Draft → Draft} {ps : List Part} {q : Part}
    (h : q ∈ (cutParts cut ps).1) (hsource : ∀ d, (cut d).source = d.source)
    (hintact : ∀ d, d.Intact → (cut d).Intact) : ∃ p ∈ ps, Follows p q := by
  induction ps with
  | nil => simp [cutParts] at h
  | cons p ps ih =>
    have hcut : Follows p { p with draft := cut p.draft } := ⟨rfl, hsource _, hintact _⟩
    simp only [cutParts] at h
    split at h
    · rcases List.mem_cons.mp h with rfl | h
      · exact ⟨p, by simp, hcut⟩
      · obtain ⟨r, hr, hf⟩ := ih h
        exact ⟨r, List.mem_cons_of_mem _ hr, hf⟩
    · rcases List.mem_cons.mp h with rfl | h
      · exact ⟨p, by simp, hcut⟩
      · exact ⟨q, List.mem_cons_of_mem _ h, follows_refl q⟩

theorem sound_trimStart {a : Assembly} (ha : a.Sound) : a.trimStart.Sound := by
  unfold trimStart
  dsimp only
  split
  · exact ha.of_follows rfl fun q hq => ⟨q, hq, follows_refl q⟩
  · exact ha.of_follows rfl fun q hq =>
      follows_cutParts hq (fun _ => rfl) fun _ => Draft.intact_trimStart _

theorem sound_trimEnd {a : Assembly} (ha : a.Sound) : a.trimEnd.Sound := by
  unfold trimEnd
  dsimp only
  split
  · exact ha.of_follows rfl fun q hq => ⟨q, hq, follows_refl q⟩
  · refine ha.of_follows rfl fun q hq => ?_
    obtain ⟨p, hp, hf⟩ := follows_cutParts (List.mem_reverse.mp hq) (fun _ => rfl)
      fun _ => Draft.intact_trimEnd _
    exact ⟨p, List.mem_reverse.mp hp, hf⟩

theorem sound_add {a b : Assembly} {d : Draft} {filename : Option String} (ha : a.Sound)
    (hd : d.Intact) (h : a.add d filename = .ok b) : b.Sound := by
  unfold add at h
  cases filename with
  | none =>
    obtain rfl := Except.ok.inj h
    intro p hp
    rcases List.mem_append.mp hp with hp | hp
    · exact ha p hp
    · obtain rfl := List.mem_singleton.mp hp
      exact ⟨hd, by simp⟩
  | some name =>
    cases hl : a.sources.lookup name with
    | none =>
      simp only [hl] at h
      obtain rfl := Except.ok.inj h
      intro p hp
      rcases List.mem_append.mp hp with hp | hp
      · exact ⟨(ha p hp).1, fun f hf => by simp [List.lookup_append, (ha p hp).2 f hf]⟩
      · obtain rfl := List.mem_singleton.mp hp
        refine ⟨hd, fun f hf => ?_⟩
        obtain rfl := Option.some.inj hf
        rw [List.lookup_append, hl]
        simp
    | some text =>
      simp only [hl] at h
      split at h
      · next ht =>
        obtain rfl := Except.ok.inj h
        intro p hp
        rcases List.mem_append.mp hp with hp | hp
        · exact ha p hp
        · obtain rfl := List.mem_singleton.mp hp
          exact ⟨hd, by simp [hl, ht]⟩
      · cases h

theorem sound_apply {a b : Assembly} {c : Change} (ha : a.Sound) (h : c.apply a = .ok b) :
    b.Sound := by
  cases c with
  | add source edits filename =>
    exact sound_add ha (Draft.intact_edit (Draft.intact_ofText source) edits) h
  | append text =>
    obtain rfl := Except.ok.inj h
    intro p hp
    rcases List.mem_append.mp hp with hp | hp
    · exact ha p hp
    · obtain rfl := List.mem_singleton.mp hp
      exact ⟨Draft.intact_ofText text, by simp⟩
  | prepend text =>
    exact Except.ok.inj h ▸ ha.of_follows rfl fun q hq => ⟨q, hq, follows_refl q⟩
  | indent unit => exact Except.ok.inj h ▸ ha.of_follows rfl fun q hq => follows_indentParts hq
  | trim => exact Except.ok.inj h ▸ sound_trimEnd (sound_trimStart ha)
  | trimStart => exact Except.ok.inj h ▸ sound_trimStart ha
  | trimEnd => exact Except.ok.inj h ▸ sound_trimEnd ha

theorem sound_change {a : Assembly} (ha : a.Sound) (cs : List Change) : (a.change cs).Sound := by
  induction cs generalizing a with
  | nil => exact ha
  | cons c cs ih =>
    cases h : c.apply a with
    | error f => simpa [change, h, Except.toOption] using ih ha
    | ok b => simpa [change, h, Except.toOption] using ih (sound_apply ha h)

end Assembly

end Treeshake
