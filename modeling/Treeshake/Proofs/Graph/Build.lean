import Treeshake.Graph.Basic
import Treeshake.Proofs.Fallible
/-!
Runs of a build. Main statement: a run of two steps succeeds if and only if the first does and the second
does from where the first ends.
-/
set_option autoImplicit false

namespace Treeshake.Graph

variable {α β : Type} {g g' : Graph}

theorem run_pure_ok {a b : α} :
    (pure a : Build α).run g = .ok (b, g') ↔ a = b ∧ g = g' := by
  rw [StateT.run_pure]
  simp [pure, Except.pure]

theorem run_get_bind {f : Graph → Build β} : (get >>= f).run g = (f g).run g := rfl

theorem run_bind_of_ok {x : Build α} {f : α → Build β} {a : α} {h : Graph}
    (hx : x.run g = .ok (a, h)) : (x >>= f).run g = (f a).run h := by
  rw [StateT.run_bind, hx]
  rfl

theorem run_bind_ok {x : Build α} {f : α → Build β} {b : β} :
    (x >>= f).run g = .ok (b, g') ↔
      ∃ a h, x.run g = .ok (a, h) ∧ (f a).run h = .ok (b, g') := by
  constructor
  · intro hrun
    cases hx : x.run g with
    | error e =>
      rw [StateT.run_bind, hx] at hrun
      cases hrun
    | ok p => exact ⟨p.1, p.2, rfl, (run_bind_of_ok hx).symm.trans hrun⟩
  · rintro ⟨a, h, hx, hf⟩
    exact (run_bind_of_ok hx).trans hf

end Treeshake.Graph
