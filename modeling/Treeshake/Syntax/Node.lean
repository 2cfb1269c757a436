import Treeshake.Error
import Treeshake.Text.Offset
/-!
Syntax trees of module text. A node knows its kind, its range, and the field that it fills in its
parent; identities number the nodes of a tree in the order in which they start.
-/
set_option autoImplicit false

namespace Treeshake

structure NodeHead where
  kind : String
  start : Nat
  stop : Nat
  field : String := ""
  named : Bool := true
  missing : Bool := false
  erroneous : Bool := false
  identity : Nat := 0
  deriving DecidableEq, Repr, Inhabited

inductive Node where
  | mk (head : NodeHead) (children : List Node)
  deriving Inhabited

namespace Node

def head : Node → NodeHead
  | .mk h _ => h

def children : Node → List Node
  | .mk _ cs => cs

def kind (n : Node) : String := n.head.kind

def start (n : Node) : Nat := n.head.start

def stop (n : Node) : Nat := n.head.stop

def named (n : Node) : Bool := n.head.named

def identity (n : Node) : Nat := n.head.identity

def namedChildren (n : Node) : List Node := n.children.filter (·.named)

def childAt? (field : String) (n : Node) : Option Node := n.children.find? (·.head.field == field)

def isChildAt (field : String) (n child : Node) : Bool :=
  (n.childAt? field).any (·.identity == child.identity)

def text (code : List Char) (n : Node) : String := Text.slice n.start n.stop code

/-- A stand-in for what the text should hold, or text that fits nowhere. -/
def faulty (n : Node) : Bool := n.head.missing || n.head.erroneous

mutual

def firstFault? : Node → Option Node
  | .mk h cs => if h.missing || h.erroneous then some (.mk h cs) else firstFaultOf? cs

def firstFaultOf? : List Node → Option Node
  | [] => none
  | n :: ns => (firstFault? n).or (firstFaultOf? ns)

end

mutual

/-- The tree with its nodes numbered from `next` on, and the number after the last. -/
def number (next : Nat) : Node → Node × Nat
  | .mk h cs =>
    let (cs, after) := numberAll (next + 1) cs
    (.mk { h with identity := next } cs, after)

def numberAll (next : Nat) : List Node → List Node × Nat
  | [] => ([], next)
  | n :: ns =>
    let (n, after) := number next n
    let (ns, after) := numberAll after ns
    (n :: ns, after)

end

mutual

def nodes : Node → List Node
  | .mk h cs => .mk h cs :: nodesOf cs

def nodesOf : List Node → List Node
  | [] => []
  | n :: ns => nodes n ++ nodesOf ns

end

mutual

def bound : Node → List Node
  | .mk h cs =>
    match h.kind with
    | "identifier" | "shorthand_property_identifier_pattern" => [.mk h cs]
    | "object_pattern" | "array_pattern" | "formal_parameters" => boundOf cs
    | "pair_pattern" => boundAt "value" cs
    | "assignment_pattern" | "object_assignment_pattern" => boundAt "left" cs
    | "rest_pattern" => boundFirst cs
    | _ => []

def boundOf : List Node → List Node
  | [] => []
  | n :: ns => (if n.named then bound n else []) ++ boundOf ns

def boundAt (field : String) : List Node → List Node
  | [] => []
  | n :: ns => if n.head.field == field then bound n else boundAt field ns

def boundFirst : List Node → List Node
  | [] => []
  | n :: ns => if n.named then bound n else boundFirst ns

end

end Node

structure SyntaxTree where
  text : String
  root : Node

namespace SyntaxTree

def of (text : String) (root : Node) : SyntaxTree := ⟨text, (root.number 0).1⟩

def row (t : SyntaxTree) (offset : Nat) : Nat :=
  Text.breaks ((Text.before? offset t.text.toList).getD t.text.toList)

def fault (code : List Char) (n : Node) : SyntaxFault :=
  if n.head.missing then .expected n.kind
  else
    match (Text.slice? n.start n.stop code).bind List.head? with
    | some c => .unexpected c
    | none => .endOfInput

/-- A tree without faults; otherwise the first one is told, as a place of the module's text. -/
def validate (id : String) (code : List Char) (t : SyntaxTree) : Except Error SyntaxTree :=
  match t.root.firstFault? with
  | none => .ok t
  | some n => .error (.parse id (fault code n) (Location.ofOffset code n.start))

end SyntaxTree

abbrev Grammar := String → Option SyntaxTree

def Grammar.parse (g : Grammar) (id code : String) : Except Error SyntaxTree :=
  match g code with
  | some t => t.validate id code.toList
  | none => .error (.parse id .noTree ⟨1, 0⟩)

end Treeshake
