import Treeshake.Proofs.Syntax.Lexed
/-!
The text of literals. Main statement: a range of it that is enclosed by two marks is a part of the text, with the one in
front of it and the other behind it.
-/
set_option autoImplicit false

namespace Treeshake

namespace Text

variable {start stop k : Nat} {cs text rest code : List Char}

/-- A character that may stand at an end of quoted text: no blank, and of one byte. -/
def IsMark (c : Char) : Prop := c.utf8Size = 1 ∧ isBlank c = false

instance (c : Char) : Decidable (IsMark c) := inferInstanceAs (Decidable (_ ∧ _))

def Enclosed (code : List Char) (start stop : Nat) : Prop :=
  0 < start ∧ start ≤ stop ∧ ∃ text ∈ slice? (start - 1) (stop + 1) code,
    (∃ c ∈ text.head?, IsMark c) ∧ ∃ c ∈ text.getLast?, IsMark c

instance (code : List Char) (start stop : Nat) : Decidable (Enclosed code start stop) :=
  decidable_of_iff (0 < start ∧ start ≤ stop ∧ (slice? (start - 1) (stop + 1) code).any (fun text =>
      text.head?.any (IsMark ·) && text.getLast?.any (IsMark ·)) = true)
    (by simp only [Enclosed, Option.any_eq_true, Bool.and_eq_true, decide_eq_true_eq, Option.mem_def])

theorem Enclosed.split (h : Enclosed code start stop) : ∃ x first inner last y,
    slice? (start - 1) (stop + 1) code = some (first :: inner ++ [last]) ∧
      code = x ++ (first :: inner ++ [last]) ++ y ∧ start = size x + 1 ∧ stop = start + size inner ∧
      IsMark first ∧ IsMark last := by
  obtain ⟨hstart, hle, text, hslice, ⟨first, hhead, hfirst⟩, last, hend, hlast⟩ := h
  obtain ⟨x, y, rfl, hx, hsize⟩ := slice?_eq_some hslice
  obtain ⟨rest, rfl⟩ := List.head?_eq_some_iff.mp hhead
  rcases List.eq_nil_or_concat rest with rfl | ⟨inner, c, rfl⟩
  · rw [size, size, hfirst.1] at hsize
    omega
  · rw [List.concat_eq_append] at hslice hend hsize ⊢
    obtain rfl : c = last := by
      rw [← List.cons_append, List.getLast?_concat] at hend
      exact Option.some.inj hend
    rw [size, size_append, size, size, hfirst.1, hlast.1] at hsize
    exact ⟨x, first, inner, c, y, hslice, rfl, by omega, by omega, hfirst, hlast⟩

end Text

namespace Node

/-- The ranges of the text of a literal without its marks: all of a string, and what is outside the substitutions of a
template. -/
def chunks (n : Node) : List (Nat × Nat) :=
  match n.kind with
  | "string" => [(n.start + 1, n.stop - 1)]
  | "template_string" => Survey.templateRanges (n.start + 1) (n.stop - 1) n.children
  | _ => []

/-- A node that is taken as a whole: a comment, a string, a name, or a chain of plain accesses. -/
def isAtom (code : List Char) (n : Node) : Bool :=
  n.kind == "comment" || n.kind == "string" || n.isName || (n.chain? code).isSome

/-- Nothing that an exported function has in front of its parameters, or an exported declaration in front of its first
variable, is a literal. -/
def HeadsPlain (n : Node) : Prop :=
  ∀ x ∈ n.exported?, ∀ m ∈ n.nodes, ∀ r ∈ m.chunks, x.start < r.1 →
    (x.isFunctionExpression = true → x.headEnd < r.1) ∧ ∀ d ∈ x.declarators.head?, d.start < r.1

instance (n : Node) : Decidable n.HeadsPlain :=
  inferInstanceAs (Decidable (∀ x ∈ n.exported?, ∀ m ∈ n.nodes, ∀ r ∈ m.chunks, x.start < r.1 →
    (x.isFunctionExpression = true → x.headEnd < r.1) ∧ ∀ d ∈ x.declarators.head?, d.start < r.1))

end Node

/-- A tree of a text whose literals a grammar has told apart from all else. Their text is enclosed by their marks, and
no name overlaps it. What is taken as a whole has no literal under it, and neither has a token. Where something may be
exported under the name of a string, nothing is declared. -/
structure SyntaxTree.Quoted (code : List Char) (t : SyntaxTree) : Prop where
  enclosed : ∀ n ∈ t.root.nodes, ∀ r ∈ n.chunks, n.start < r.1 ∧ r.2 < n.stop ∧ Text.Enclosed code r.1 r.2
  apart : ∀ n ∈ t.root.nodes, ∀ r ∈ n.chunks, ∀ e ∈ t.root.nodes,
    e.isName = true ∨ (e.chain? code).isSome = true → e.stop < r.1 ∨ r.2 < e.start
  tokens : ∀ m ∈ t.root.nodes, m.named = false → ∀ n ∈ m.nodes, n.chunks = []
  atoms : ∀ m ∈ t.root.nodes, m.isAtom code = true → ∀ n ∈ Node.nodesOf m.children, n.chunks = []
  root : t.root.chunks = []
  specifiers : ∀ n ∈ t.root.children, (n.kind = "export_statement" → n.exported?.isSome = true) →
    ∀ m ∈ n.nodes, m.kind ≠ "export_specifier"
  heads : ∀ n ∈ t.root.children, n.kind = "export_statement" → n.HeadsPlain

instance (code : List Char) (t : SyntaxTree) : Decidable (t.Quoted code) :=
  decidable_of_iff ((∀ n ∈ t.root.nodes, ∀ r ∈ n.chunks, n.start < r.1 ∧ r.2 < n.stop ∧ Text.Enclosed code r.1 r.2) ∧
    (∀ n ∈ t.root.nodes, ∀ r ∈ n.chunks, ∀ e ∈ t.root.nodes,
      e.isName = true ∨ (e.chain? code).isSome = true → e.stop < r.1 ∨ r.2 < e.start) ∧
    (∀ m ∈ t.root.nodes, m.named = false → ∀ n ∈ m.nodes, n.chunks = []) ∧
    (∀ m ∈ t.root.nodes, m.isAtom code = true → ∀ n ∈ Node.nodesOf m.children, n.chunks = []) ∧
    t.root.chunks = [] ∧
    (∀ n ∈ t.root.children, (n.kind = "export_statement" → n.exported?.isSome = true) →
      ∀ m ∈ n.nodes, m.kind ≠ "export_specifier") ∧
    ∀ n ∈ t.root.children, n.kind = "export_statement" → n.HeadsPlain)
    ⟨fun h => ⟨h.1, h.2.1, h.2.2.1, h.2.2.2.1, h.2.2.2.2.1, h.2.2.2.2.2.1, h.2.2.2.2.2.2⟩,
      fun h => ⟨h.enclosed, h.apart, h.tokens, h.atoms, h.root, h.specifiers, h.heads⟩⟩

end Treeshake
