import Treeshake.Module.Basic
import Treeshake.Proofs.Draft.Stretch
/-!
How the text of a module is divided among its statements.
-/
set_option autoImplicit false

namespace Treeshake

/-- A reference lies within a range, with all that it may come to stand for. -/
structure Reference.Within (start stop : Nat) (r : Reference) : Prop where
  first : start ≤ r.start
  last : start ≤ r.stop ∧ r.stop ≤ stop
  accesses : ∀ a ∈ r.accesses, start ≤ a.stop ∧ a.stop ≤ stop

def StatementKind.offsets : StatementKind → List Nat
  | .declarator _ _ separatorEnd _ => [separatorEnd]
  | .exportDeclaration declarationStart declaratorStart _ => declarationStart :: declaratorStart.toList
  | .exportDefault declarationStart form =>
    match form with
    | .anonymousFunction headEnd => [declarationStart, headEnd]
    | _ => [declarationStart]
  | _ => []

namespace Statement

/-- A statement's offsets lie between its start and the start of the next. -/
structure Contained (s : Statement) : Prop where
  node : s.start ≤ s.nodeStart
  stop : s.start ≤ s.stop ∧ s.stop ≤ s.next
  offsets : ∀ offset ∈ s.kind.offsets, offset ≤ s.next
  references : ∀ r ∈ s.references, r.Within s.start s.next

/-- Statements stand one behind the other from an offset on, up to the end of a text. -/
def Tile (length : Nat) : Nat → List Statement → Prop
  | start, [] => start = length
  | start, s :: rest => s.start = start ∧ Tile length s.next rest

end Statement

/-- The text of a module is divided among its statements, but for what stands in front of the first, and its draft
has only lost text. -/
structure Module.LaidOut (m : Module) : Prop where
  bare : m.draft.Bare
  tiles : ∃ start, Statement.Tile m.draft.length start m.statements
  contained : ∀ s ∈ m.statements, s.Contained
  usable : ∀ s ∈ m.statements, Text.usable s.start m.draft.source.toList = true

namespace Statement

variable {length start : Nat} {s t : Statement} {ss : List Statement}

theorem Contained.le (h : s.Contained) : s.start ≤ s.next := Nat.le_trans h.stop.1 h.stop.2

theorem Tile.bounds (ht : Tile length start ss) (hc : ∀ s ∈ ss, s.Contained) :
    start ≤ length ∧ ∀ s ∈ ss, start ≤ s.start ∧ s.next ≤ length := by
  induction ss generalizing start with
  | nil => exact ⟨Nat.le_of_eq ht, nofun⟩
  | cons s ss ih =>
    obtain ⟨rfl, hrest⟩ := ht
    have hle := (hc s List.mem_cons_self).le
    obtain ⟨hend, hbounds⟩ := ih hrest fun t ht => hc t (List.mem_cons_of_mem s ht)
    refine ⟨Nat.le_trans hle hend, fun t ht => ?_⟩
    rcases List.mem_cons.mp ht with rfl | ht
    · exact ⟨Nat.le_refl _, hend⟩
    · exact ⟨Nat.le_trans hle (hbounds t ht).1, (hbounds t ht).2⟩

theorem Tile.apart (ht : Tile length start ss) (hc : ∀ s ∈ ss, s.Contained) :
    ss.Pairwise fun s t => s.next ≤ t.start := by
  induction ss generalizing start with
  | nil => exact .nil
  | cons s ss ih =>
    have hcontained := fun t ht => hc t (List.mem_cons_of_mem s ht)
    exact .cons (fun t ht' => (ht.2.bounds hcontained).2 t ht' |>.1) (ih ht.2 hcontained)

theorem Tile.usable {cs : List Char} (ht : Tile (Text.size cs) start ss)
    (hu : ∀ s ∈ ss, Text.usable s.start cs = true) : Text.usable start cs = true := by
  cases ss with
  | nil =>
    obtain rfl : start = Text.size cs := ht
    have hend := Text.before?_size_append cs []
    rw [List.append_nil] at hend
    rw [Text.usable, hend]
    rfl
  | cons s ss =>
    obtain ⟨rfl, -⟩ := ht
    exact hu s List.mem_cons_self

end Statement

end Treeshake
