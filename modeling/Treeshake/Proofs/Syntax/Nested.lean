import Treeshake.Proofs.Draft.Places
import Treeshake.Syntax.Node
/-!
The nodes of a tree, their ranges and their names. Main statement: in a tree whose nodes hold their children, in their
order, every node lies within the range of every node that it is under.
-/
set_option autoImplicit false

namespace Treeshake

namespace Node

variable {n m c : Node}

theorem mem_nodesOf {ns : List Node} : m ∈ nodesOf ns ↔ ∃ n ∈ ns, m ∈ n.nodes := by
  induction ns with
  | nil => exact ⟨fun h => (by cases h), fun ⟨_, h, _⟩ => (by cases h)⟩
  | cons n ns ih => simp only [nodesOf, List.mem_append, ih, List.mem_cons, exists_eq_or_imp]

theorem self_mem_nodes (n : Node) : n ∈ n.nodes := by
  cases n with
  | mk h cs => exact List.mem_cons_self

theorem mem_nodes_of_child (hc : c ∈ n.children) (hm : m ∈ c.nodes) : m ∈ n.nodes := by
  cases n with
  | mk h cs => exact List.mem_cons_of_mem _ (mem_nodesOf.mpr ⟨c, hc, hm⟩)

theorem child_mem_nodes (hc : c ∈ n.children) : c ∈ n.nodes := mem_nodes_of_child hc (self_mem_nodes c)

mutual

theorem nodes_trans : ∀ {n m c : Node}, m ∈ n.nodes → c ∈ m.nodes → c ∈ n.nodes
  | .mk _ _, m, c, hm, hc => by
    rcases List.mem_cons.mp hm with rfl | hm
    · exact hc
    · exact List.mem_cons_of_mem _ (nodesOf_trans hm hc)

theorem nodesOf_trans : ∀ {ns : List Node} {m c : Node}, m ∈ nodesOf ns → c ∈ m.nodes → c ∈ nodesOf ns
  | _ :: _, m, c, hm, hc => by
    rcases List.mem_append.mp hm with hm | hm
    · exact List.mem_append_left _ (nodes_trans hm hc)
    · exact List.mem_append_right _ (nodesOf_trans hm hc)

end

theorem mem_children_of_childAt? {field : String} (h : n.childAt? field = some c) : c ∈ n.children :=
  List.mem_of_find?_eq_some h

def Marks (n : Node) (offset : Nat) : Prop := ∃ m ∈ n.nodes, offset = m.start ∨ offset = m.stop

theorem marks_start (hm : m ∈ n.nodes) : n.Marks m.start := ⟨m, hm, .inl rfl⟩

theorem marks_stop (hm : m ∈ n.nodes) : n.Marks m.stop := ⟨m, hm, .inr rfl⟩

theorem Marks.of_node {offset : Nat} (hm : m ∈ n.nodes) (h : m.Marks offset) : n.Marks offset := by
  obtain ⟨c, hc, hoffset⟩ := h
  exact ⟨c, nodes_trans hm hc, hoffset⟩

mutual

/-- Nodes start where characters of the text do, and children lie within the range of their parent, one behind
the other. -/
def Nested (code : List Char) : Node → Prop
  | .mk h cs => Text.usable h.start code = true ∧ NestedFrom code h.start h.stop cs

/-- Nodes that lie one behind the other between two offsets. -/
def NestedFrom (code : List Char) (start stop : Nat) : List Node → Prop
  | [] => start ≤ stop
  | n :: ns => start ≤ n.start ∧ Nested code n ∧ NestedFrom code n.stop stop ns

end

variable {code : List Char} {start stop : Nat} {ns ms : List Node}

theorem Nested.usable (h : n.Nested code) : Text.usable n.start code = true := by
  cases n with
  | mk head cs => exact h.1

theorem Nested.children (h : n.Nested code) : NestedFrom code n.start n.stop n.children := by
  cases n with
  | mk head cs => exact h.2

mutual

theorem Nested.le : ∀ {n : Node}, n.Nested code → n.start ≤ n.stop
  | .mk _ _, h => NestedFrom.le h.2

theorem NestedFrom.le {start stop : Nat} : ∀ {ns : List Node}, NestedFrom code start stop ns → start ≤ stop
  | [], h => h
  | _ :: _, ⟨hstart, hn, hrest⟩ => Nat.le_trans hstart (Nat.le_trans hn.le hrest.le)

end

theorem NestedFrom.mono {start' : Nat} (hle : start ≤ start') (h : NestedFrom code start' stop ns) :
    NestedFrom code start stop ns := by
  cases ns with
  | nil => exact Nat.le_trans hle h
  | cons n ns => exact ⟨Nat.le_trans hle h.1, h.2⟩

theorem NestedFrom.sublist (h : NestedFrom code start stop ns) (hms : ms.Sublist ns) :
    NestedFrom code start stop ms := by
  induction hms generalizing start with
  | slnil => exact h
  | cons n _ ih => exact (ih h.2.2).mono (Nat.le_trans h.1 h.2.1.le)
  | cons_cons n _ ih => exact ⟨h.1, h.2.1, ih h.2.2⟩

theorem NestedFrom.append {mid : Nat} (hns : NestedFrom code start mid ns) (hms : NestedFrom code mid stop ms) :
    NestedFrom code start stop (ns ++ ms) := by
  induction ns generalizing start with
  | nil => exact hms.mono hns
  | cons n ns ih => exact ⟨hns.1, hns.2.1, ih hns.2.2⟩

theorem NestedFrom.mem (h : NestedFrom code start stop ns) (hn : n ∈ ns) :
    n.Nested code ∧ start ≤ n.start ∧ n.stop ≤ stop := by
  have hn := h.sublist (List.singleton_sublist.mpr hn)
  exact ⟨hn.2.1, hn.1, hn.2.2⟩

theorem NestedFrom.pairwise (h : NestedFrom code start stop ns) : ns.Pairwise fun n m => n.stop ≤ m.start := by
  induction ns generalizing start with
  | nil => exact .nil
  | cons n ns ih => exact .cons (fun m hm => (h.2.2.mem hm).2.1) (ih h.2.2)

theorem NestedFrom.eq_of_byte (h : NestedFrom code start stop ns) {k : Nat} (hn : n ∈ ns) (hm : m ∈ ns)
    (hnk : n.start ≤ k ∧ k < n.stop) (hmk : m.start ≤ k ∧ k < m.stop) : n = m := by
  induction ns generalizing start with
  | nil => cases hn
  | cons c ns ih =>
    have hbehind : ∀ d ∈ ns, c.stop ≤ d.start := fun d hd => (h.2.2.mem hd).2.1
    rcases List.mem_cons.mp hn with rfl | hn'
    · rcases List.mem_cons.mp hm with rfl | hm
      · rfl
      · have := hbehind m hm
        omega
    · rcases List.mem_cons.mp hm with rfl | hm
      · have := hbehind n hn'
        omega
      · exact ih h.2.2 hn' hm

mutual

theorem Nested.node : ∀ {n m : Node}, n.Nested code → m ∈ n.nodes →
    m.Nested code ∧ n.start ≤ m.start ∧ m.stop ≤ n.stop
  | .mk _ _, m, h, hm => by
    rcases List.mem_cons.mp hm with rfl | hm
    · exact ⟨h, Nat.le_refl _, Nat.le_refl _⟩
    · exact NestedFrom.node h.2 hm

theorem NestedFrom.node {start stop : Nat} : ∀ {ns : List Node} {m : Node}, NestedFrom code start stop ns →
    m ∈ nodesOf ns → m.Nested code ∧ start ≤ m.start ∧ m.stop ≤ stop
  | n :: ns, m, ⟨hstart, hn, hrest⟩, hm => by
    rcases List.mem_append.mp hm with hm | hm
    · obtain ⟨hnested, hfirst, hlast⟩ := Nested.node hn hm
      exact ⟨hnested, Nat.le_trans hstart hfirst, Nat.le_trans hlast hrest.le⟩
    · obtain ⟨hnested, hfirst, hlast⟩ := NestedFrom.node hrest hm
      exact ⟨hnested, Nat.le_trans hstart (Nat.le_trans hn.le hfirst), hlast⟩

end

theorem Nested.mem_nodes_of_byte (h : n.Nested code) {k : Nat} (hc : c ∈ n.children) (hm : m ∈ n.nodes) (hne : m ≠ n)
    (hmk : m.start ≤ k ∧ k < m.stop) (hck : c.start ≤ k ∧ k < c.stop) : m ∈ c.nodes := by
  cases n with
  | mk head cs =>
    obtain ⟨c', hc', hm⟩ := mem_nodesOf.mp ((List.mem_cons.mp hm).resolve_left hne)
    obtain ⟨-, hfirst, hlast⟩ := (h.2.mem hc').1.node hm
    exact h.2.eq_of_byte hc' hc ⟨by omega, by omega⟩ hck ▸ hm

theorem Nested.marks {offset : Nat} (h : n.Nested code) (ho : n.Marks offset) :
    n.start ≤ offset ∧ offset ≤ n.stop := by
  obtain ⟨m, hm, hoffset⟩ := ho
  obtain ⟨hnested, hfirst, hlast⟩ := h.node hm
  obtain rfl | rfl := hoffset
  · exact ⟨hfirst, Nat.le_trans hnested.le hlast⟩
  · exact ⟨Nat.le_trans hfirst hnested.le, hlast⟩

def isName (n : Node) : Bool :=
  ["identifier", "shorthand_property_identifier", "shorthand_property_identifier_pattern"].contains n.kind

def isShorthand (n : Node) : Bool :=
  ["shorthand_property_identifier", "shorthand_property_identifier_pattern"].contains n.kind

theorem isName_of_identifier (h : n.kind = "identifier") : n.isName = true := by
  rw [isName, h]
  rfl

/-- Names as the grammar has them: not empty and without dots, as properties are, and an object that is accessed stands
in front of the property. -/
structure Spelled (code : List Char) (n : Node) : Prop where
  name : ∀ m ∈ n.nodes, m.isName = true → m.start < m.stop ∧ '.' ∉ (m.text code).toList
  property : ∀ m ∈ n.nodes, m.kind = "property_identifier" → '.' ∉ (m.text code).toList
  member : ∀ m ∈ n.nodes, m.kind = "member_expression" →
    ∀ o ∈ m.childAt? "object", ∀ p ∈ m.childAt? "property", o.stop ≤ p.start

theorem Spelled.node (h : n.Spelled code) (hm : m ∈ n.nodes) : m.Spelled code where
  name c hc := h.name c (nodes_trans hm hc)
  property c hc := h.property c (nodes_trans hm hc)
  member c hc := h.member c (nodes_trans hm hc)

end Node

/-- A tree of a text as a grammar makes it. -/
structure SyntaxTree.Proper (code : List Char) (t : SyntaxTree) : Prop where
  nested : t.root.Nested code
  within : t.root.stop ≤ Text.size code
  spelled : t.root.Spelled code

end Treeshake
