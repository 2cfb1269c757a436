import Treeshake.Graph.Render
import Treeshake.Proofs.Draft.Edits
import Treeshake.Proofs.Fallible
/-!
Rendered modules. Main statement: the text of a module in the output is a draft of the text of the module.
-/
set_option autoImplicit false

namespace Treeshake

/-- Whatever draft there is, it is one of a text. -/
def Draft.Of (text : String) (x : Except EditFault Draft) : Prop := ∀ d, x = .ok d → d.source = text

namespace Draft.Of

variable {text : String} {d : Draft}

theorem ok (hd : d.source = text) : Of text (.ok d) := fun _ h => Except.ok.inj h ▸ hd

theorem bind {x : Except EditFault Draft} {f : Draft → Except EditFault Draft} (hx : Of text x)
    (hf : ∀ d, d.source = text → Of text (f d)) : Of text (x >>= f) := by
  intro d h
  obtain ⟨d₁, hd₁, h⟩ := bind_eq_ok.mp h
  exact hf d₁ (hx d₁ hd₁) d h

theorem foldlM {α : Type} {f : Draft → α → Except EditFault Draft} (l : List α)
    (hf : ∀ d a, d.source = text → Of text (f d a)) (hd : d.source = text) : Of text (l.foldlM f d) :=
  fun _ h => foldlM_keeps (P := (·.source = text)) (fun d a d' hd h => hf d a hd d' h) hd h

theorem insert (hd : d.source = text) (offset : Nat) (new : String) : Of text (d.insert offset new) :=
  fun _ h => (source_insert h).trans hd

theorem overwrite (hd : d.source = text) (start stop : Nat) (new : String) (storeName : Bool) :
    Of text (d.overwrite start stop new storeName) :=
  fun _ h => (source_overwrite h).trans hd

theorem remove (hd : d.source = text) (start stop : Nat) : Of text (d.remove start stop) :=
  fun _ h => (source_remove h).trans hd

end Draft.Of

namespace Graph

open Draft

variable {text : String} {d : Draft}

theorem of_substitute (hd : d.source = text) (r : Reference) (name : String) : Of text (substitute d r name) := by
  rw [substitute]
  split
  · exact .insert hd r.stop _
  · exact .overwrite hd r.start r.stop name true

theorem of_replaceReferences (g : Graph) (m : LinkedModule) (es6 : Bool) (s : Statement) (hd : d.source = text) :
    Of text (g.replaceReferences m es6 s d) := by
  refine .bind (.foldlM _ (fun d r hd => ?_) hd) fun d hd => .foldlM _ (fun d r hd => ?_) hd
  · split
    · exact of_substitute hd r _
    · exact .ok hd
  · split
    · exact of_substitute hd r _
    · exact .ok hd

theorem of_renderDefault (g : Graph) (m : LinkedModule) (es6 : Bool) (s : Statement) (declarationStart : Nat)
    (form : DefaultForm) (hd : d.source = text) : Of text (g.renderDefault m es6 s declarationStart form d) := by
  rw [renderDefault]
  split
  · exact .remove hd _ _
  · split
    · exact .ok hd
    · split
      · exact .remove hd _ _
      · dsimp only
        split
        · exact .overwrite hd _ _ _ false
        · exact .overwrite hd _ _ _ false

theorem of_renderDeclarator (s : Statement) (keyword : Option String) (separatorEnd : Nat) (last : Bool)
    (hd : d.source = text) : Of text (renderDeclarator d s keyword separatorEnd last) := by
  have hstop : ∀ d : Draft, d.source = text → Of text
      (if s.stop = separatorEnd then d.insert s.stop (if last then ";" else ";\n")
        else d.overwrite s.stop separatorEnd (if last then ";" else ";\n") false) := by
    intro d hd
    split
    · exact .insert hd s.stop _
    · exact .overwrite hd s.stop separatorEnd _ false
  cases keyword with
  | none => exact hstop d hd
  | some keyword => exact .bind (.insert hd s.start _) hstop

theorem of_renderStatement (g : Graph) (m : LinkedModule) (es6 : Bool) (s : Statement) (hd : d.source = text) :
    Of text (g.renderStatement m es6 d s) := by
  have hprotected : (s.literals.foldl (fun d r => d.protect r.1 r.2) d).source = text := by
    generalize s.literals = literals
    induction literals generalizing d with
    | nil => exact hd
    | cons r literals ih => exact ih (d := d.protect r.1 r.2) hd
  rw [renderStatement]
  split
  · exact .remove hprotected _ _
  · exact .remove hprotected _ _
  · exact .remove hprotected _ _
  · exact .bind (of_renderDeclarator s _ _ _ hprotected) fun d hd => of_replaceReferences g m es6 s hd
  · exact .bind (of_replaceReferences g m es6 s hprotected) fun d hd => .remove hd _ _
  · exact .bind (of_replaceReferences g m es6 s hprotected) fun d hd => of_renderDefault g m es6 s _ _ hd
  · exact of_replaceReferences g m es6 s hprotected
  · exact of_replaceReferences g m es6 s hprotected

theorem of_renderModule {g : Graph} {i : Nat} {m : LinkedModule} (hm : g.modules[i]? = some m) (es6 : Bool) :
    Of m.draft.source (g.renderModule i es6) := by
  rw [renderModule, hm]
  refine .bind (.foldlM _ (fun d s hd => ?_) rfl) fun d hd => ?_
  · split
    · exact .remove hd s.start s.next
    · exact of_renderStatement g m es6 s hd
  · dsimp only
    split
    · exact .ok hd
    · exact .ok hd

end Graph

end Treeshake
