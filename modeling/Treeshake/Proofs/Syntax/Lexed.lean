import Treeshake.Proofs.Module.Steps
import Treeshake.Scope.Analysis
/-!
Trees whose nodes stand in their text as the tokens of a language do.
-/
set_option autoImplicit false

namespace Treeshake

namespace Node

def isUse (n : Node) : Bool := n.isName || n.kind == "member_expression"

/-- What a node exports has something in front of it, as have the uses of names in the node, which end before it starts
or, if it is a function, start behind its keyword. -/
def ExportsBehind (n : Node) : Prop :=
  ∀ x ∈ n.exported?, n.start < x.start ∧ ∀ m ∈ n.nodes, m.isUse = true → n.start < m.start ∧
    (m.stop < x.start ∨ x.start ≤ m.start ∧ (x.isFunctionExpression = true → x.headEnd ≤ m.start))

instance (n : Node) : Decidable n.ExportsBehind :=
  inferInstanceAs (Decidable (∀ x ∈ n.exported?, n.start < x.start ∧ ∀ m ∈ n.nodes, m.isUse = true → n.start < m.start ∧
    (m.stop < x.start ∨ x.start ≤ m.start ∧ (x.isFunctionExpression = true → x.headEnd ≤ m.start))))

end Node

/-- A tree of a text whose tokens a grammar has told apart. Nodes end where characters do, and names do not touch each
other. A shorthand property has something behind it in all nodes that it is in, and what an export statement exports
has something in front of it. Nothing stands in the line of a hash bang, and behind a declarator that ends its
statement a break or a comment has to follow. -/
structure SyntaxTree.Lexed (code : List Char) (t : SyntaxTree) : Prop where
  stops : ∀ m ∈ t.root.nodes, Text.usable m.stop code = true
  names : ∀ m ∈ t.root.nodes, ∀ m' ∈ t.root.nodes, m.isName = true → m'.isName = true → m.stop ≠ m'.start
  shorthand : ∀ n ∈ t.root.nodes, n.isShorthand = false → ∀ m ∈ n.nodes, m.isShorthand = true → m.stop < n.stop
  statements : ∀ n ∈ t.root.children, n.isShorthand = false
  exported : ∀ n ∈ t.root.nodes, n.kind = "export_statement" → n.ExportsBehind
  hashBang : t.root.namedChildren.Pairwise fun n m =>
    n.kind = "hash_bang_line" → Reading.lineEnd code n.stop ≤ m.start
  closed : t.root.namedChildren.Pairwise fun n m => m.kind ≠ "comment" →
    ∀ d ∈ n.nodes, d.kind = "variable_declarator" → d.stop < m.start

section
variable (code : List Char)

mutual

def Node.decidableNested : (n : Node) → Decidable (n.Nested code)
  | .mk head cs =>
    have := decidableNestedFrom head.start head.stop cs
    inferInstanceAs (Decidable (Text.usable head.start code = true ∧ NestedFrom code head.start head.stop cs))

def Node.decidableNestedFrom : (start stop : Nat) → (ns : List Node) → Decidable (NestedFrom code start stop ns)
  | start, stop, [] => inferInstanceAs (Decidable (start ≤ stop))
  | start, stop, n :: ns =>
    have := decidableNested n
    have := decidableNestedFrom n.stop stop ns
    inferInstanceAs (Decidable (start ≤ n.start ∧ n.Nested code ∧ NestedFrom code n.stop stop ns))

end

instance (n : Node) : Decidable (n.Nested code) := n.decidableNested code

instance (n : Node) : Decidable (n.Spelled code) :=
  decidable_of_iff ((∀ m ∈ n.nodes, m.isName = true → m.start < m.stop ∧ '.' ∉ (m.text code).toList) ∧
    (∀ m ∈ n.nodes, m.kind = "property_identifier" → '.' ∉ (m.text code).toList) ∧
    ∀ m ∈ n.nodes, m.kind = "member_expression" →
      ∀ o ∈ m.childAt? "object", ∀ p ∈ m.childAt? "property", o.stop ≤ p.start)
    ⟨fun h => ⟨h.1, h.2.1, h.2.2⟩, fun h => ⟨h.name, h.property, h.member⟩⟩

instance (t : SyntaxTree) : Decidable (t.Proper code) :=
  decidable_of_iff (t.root.Nested code ∧ t.root.stop ≤ Text.size code ∧ t.root.Spelled code)
    ⟨fun h => ⟨h.1, h.2.1, h.2.2⟩, fun h => ⟨h.nested, h.within, h.spelled⟩⟩

instance (t : SyntaxTree) : Decidable (t.Lexed code) :=
  decidable_of_iff ((∀ m ∈ t.root.nodes, Text.usable m.stop code = true) ∧
    (∀ m ∈ t.root.nodes, ∀ m' ∈ t.root.nodes, m.isName = true → m'.isName = true → m.stop ≠ m'.start) ∧
    (∀ n ∈ t.root.nodes, n.isShorthand = false → ∀ m ∈ n.nodes, m.isShorthand = true → m.stop < n.stop) ∧
    (∀ n ∈ t.root.children, n.isShorthand = false) ∧
    (∀ n ∈ t.root.nodes, n.kind = "export_statement" → n.ExportsBehind) ∧
    (t.root.namedChildren.Pairwise fun n m =>
      n.kind = "hash_bang_line" → Reading.lineEnd code n.stop ≤ m.start) ∧
    t.root.namedChildren.Pairwise fun n m => m.kind ≠ "comment" →
      ∀ d ∈ n.nodes, d.kind = "variable_declarator" → d.stop < m.start)
    ⟨fun h => ⟨h.1, h.2.1, h.2.2.1, h.2.2.2.1, h.2.2.2.2.1, h.2.2.2.2.2.1, h.2.2.2.2.2.2⟩,
      fun h => ⟨h.stops, h.names, h.shorthand, h.statements, h.exported, h.hashBang, h.closed⟩⟩

end

end Treeshake
