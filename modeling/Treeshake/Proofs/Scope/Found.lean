import Mathlib.Data.List.Induction
import Treeshake.Proofs.Fallible
import Treeshake.Proofs.Syntax.Nested
import Treeshake.Scope.Analysis
/-!
What the walk over a statement finds. Main statement: every reference that it finds is the use of a name under the
node it started at, or of the root of a chain of accesses, and bound to nothing yet.
-/
set_option autoImplicit false

namespace Treeshake

namespace Text

theorem utf8ByteSize_slice_le (start stop : Nat) (cs : List Char) :
    (slice start stop cs).utf8ByteSize ≤ stop - start := by
  rw [utf8ByteSize_eq, slice, String.toList_ofList]
  cases hslice : slice? start stop cs with
  | none => exact Nat.zero_le _
  | some text =>
    unfold slice? at hslice
    split at hslice
    · cases hslice
    · obtain ⟨rest, -, hbefore⟩ := Option.bind_eq_some_iff.mp hslice
      obtain ⟨a, b, rfl, hsize⟩ := eq_append_of_usable (Option.isSome_of_eq_some hbefore)
      rw [hsize, before?_size_append] at hbefore
      obtain rfl := Option.some.inj hbefore
      exact Nat.le_of_eq hsize.symm

end Text

/-- A reference as it is found at a node, with the accesses behind it. -/
structure Reference.Spells (code : List Char) (m : Node) (accesses : List Access) (r : Reference) : Prop where
  name : r.name = m.text code
  start : r.start = m.start
  stop : r.stop = m.stop
  accesses : r.accesses = accesses
  unbound : r.binding = .unbound

namespace Node

variable {code : List Char} {n : Node} {r : Reference}

theorem chainObject?_eq_some {cs : List Node} {p : Node × List Access} (h : chainObject? code cs = some p) :
    ∃ o, cs.find? (·.head.field == "object") = some o ∧ o.chain? code = some p := by
  induction cs with
  | nil => cases h
  | cons c cs ih =>
    rw [chainObject?] at h
    rw [List.find?_cons]
    split at h
    · next hfield => exact ⟨c, by rw [hfield], h⟩
    · next hfield =>
      rw [Bool.not_eq_true] at hfield
      rw [hfield]
      exact ih h

theorem chain?_eq_some {root : Node} {accesses : List Access} (h : n.chain? code = some (root, accesses)) :
    (root = n ∧ accesses = [] ∧ n.kind = "identifier") ∨
    ∃ o p rest, n.kind = "member_expression" ∧ n.childAt? "object" = some o ∧ n.childAt? "property" = some p ∧
      p.kind = "property_identifier" ∧ o.chain? code = some (root, rest) ∧
      accesses = rest ++ [⟨p.text code, p.stop⟩] := by
  cases n with
  | mk head cs =>
    rw [chain?] at h
    split at h
    · next hkind =>
      obtain ⟨p, hp, h⟩ := Option.bind_eq_some_iff.mp h
      split at h
      · next hproperty =>
        obtain ⟨⟨inner, rest⟩, hinner, h⟩ := Option.bind_eq_some_iff.mp h
        obtain ⟨rfl, rfl⟩ := Prod.mk.inj (Option.some.inj h)
        obtain ⟨o, ho, hchain⟩ := chainObject?_eq_some hinner
        exact .inr ⟨o, p, rest, eq_of_beq hkind, ho, hp, eq_of_beq hproperty, hchain, rfl⟩
      · cases h
    · split at h
      · next hkind =>
        obtain ⟨rfl, rfl⟩ := Prod.mk.inj (Option.some.inj h)
        exact .inl ⟨rfl, rfl, eq_of_beq hkind⟩
      · cases h

theorem chain_induction {root : Node} {P : Node → List Access → Prop} (hname : root.kind = "identifier" → P root [])
    (haccess : ∀ n o p rest, n.kind = "member_expression" → n.childAt? "object" = some o →
      n.childAt? "property" = some p → p.kind = "property_identifier" → P o rest →
      P n (rest ++ [⟨p.text code, p.stop⟩]))
    {accesses : List Access} (h : n.chain? code = some (root, accesses)) : P n accesses := by
  induction accesses using List.reverseRecOn generalizing n with
  | nil =>
    obtain ⟨rfl, -, hkind⟩ | ⟨_, _, _, -, -, -, -, -, heq⟩ := chain?_eq_some h
    · exact hname hkind
    · exact absurd heq.symm (List.append_ne_nil_of_right_ne_nil _ (List.cons_ne_nil _ _))
  | append_singleton accesses a ih =>
    obtain ⟨-, heq, -⟩ | ⟨o, p, rest, hkind, ho, hp, hproperty, hchain, heq⟩ := chain?_eq_some h
    · exact absurd heq (List.append_ne_nil_of_right_ne_nil _ (List.cons_ne_nil _ _))
    · obtain ⟨rfl, ha⟩ := List.append_inj' heq rfl
      rw [ha]
      exact haccess n o p accesses hkind ho hp hproperty (ih hchain)

theorem chain_nodes {root : Node} {accesses : List Access} (h : n.chain? code = some (root, accesses)) :
    root ∈ n.nodes ∧ root.kind = "identifier" ∧ ∀ a ∈ accesses, n.Marks a.stop := by
  refine chain_induction (P := fun n accesses => root ∈ n.nodes ∧ root.kind = "identifier" ∧
    ∀ a ∈ accesses, n.Marks a.stop) (fun hkind => ⟨self_mem_nodes root, hkind, List.forall_mem_nil _⟩) ?_ h
  intro n o p rest _ ho hp _ ⟨hroot, hkind, hrest⟩
  have hchild := mem_children_of_childAt? ho
  have hproperty := marks_stop (child_mem_nodes (mem_children_of_childAt? hp))
  exact ⟨mem_nodes_of_child hchild hroot, hkind, List.forall_mem_append.mpr
    ⟨fun a ha => .of_node (child_mem_nodes hchild) (hrest a ha), List.forall_mem_singleton.mpr hproperty⟩⟩

theorem chain_plain {root : Node} {accesses : List Access} (hn : n.Nested code) (hs : n.Spelled code)
    (h : n.chain? code = some (root, accesses)) :
    ∀ a ∈ accesses, '.' ∉ a.name.toList ∧ root.start + a.name.utf8ByteSize < a.stop := by
  refine (chain_induction (P := fun n accesses => n.Nested code → n.Spelled code → root ∈ n.nodes ∧
    root.isName = true ∧ ∀ a ∈ accesses, '.' ∉ a.name.toList ∧ root.start + a.name.utf8ByteSize < a.stop)
    (fun hkind _ _ => ⟨self_mem_nodes root, isName_of_identifier hkind, List.forall_mem_nil _⟩) ?_ h hn hs).2.2
  intro n o p rest hkind ho hp hproperty ih hn hs
  have hobject := mem_children_of_childAt? ho
  have hpm := child_mem_nodes (mem_children_of_childAt? hp)
  obtain ⟨hroot, hname, hrest⟩ := ih (hn.children.mem hobject).1 (hs.node (child_mem_nodes hobject))
  have hrm := mem_nodes_of_child hobject hroot
  refine ⟨hrm, hname, List.forall_mem_append.mpr ⟨hrest, List.forall_mem_singleton.mpr
    ⟨hs.property p hpm hproperty, ?_⟩⟩⟩
  have hlong : root.start < root.stop := (hs.name root hrm hname).1
  have hwithin : root.stop ≤ o.stop := ((hn.children.mem hobject).1.node hroot).2.2
  have hfront : o.stop ≤ p.start := hs.member n (self_mem_nodes n) hkind o ho p hp
  have hle : p.start ≤ p.stop := (hn.node hpm).1.le
  have hsize : (p.text code).utf8ByteSize ≤ p.stop - p.start := Text.utf8ByteSize_slice_le ..
  dsimp only
  omega

/-- A reference that nodes under `n` tell. -/
inductive Tells (code : List Char) (n : Node) (r : Reference) : Prop where
  | name (m : Node) (hm : m ∈ n.nodes) (hname : m.isName = true) (hr : r.Spells code m [])
  | chain (e root : Node) (accesses : List Access) (he : e ∈ n.nodes) (hchain : e.chain? code = some (root, accesses))
      (hr : r.Spells code root accesses)

theorem Tells.of_node {m : Node} (hm : m ∈ n.nodes) (h : m.Tells code r) : n.Tells code r := by
  cases h with
  | name c hc hname hr => exact .name c (nodes_trans hm hc) hname hr
  | chain e root accesses he hchain hr => exact .chain e root accesses (nodes_trans hm he) hchain hr

theorem Tells.unbound (h : n.Tells code r) : r.binding = .unbound := by
  cases h with
  | name _ _ _ hr => exact hr.unbound
  | chain _ _ _ _ _ hr => exact hr.unbound

end Node

inductive Node.Yields (code : List Char) (e : Node) (r : Reference) : Prop where
  | name (hname : e.isName = true) (hr : r.Spells code e []) (hshorthand : r.shorthand = true → e.isShorthand = true)
  | chain (root : Node) (accesses : List Access) (hchain : e.chain? code = some (root, accesses))
      (hr : r.Spells code root accesses) (hshorthand : r.shorthand = false)

theorem Node.Yields.tells {code : List Char} {e : Node} {r : Reference} (h : e.Yields code r) : e.Tells code r := by
  cases h with
  | name hname hr _ => exact .name e (self_mem_nodes e) hname hr
  | chain root accesses hchain hr _ => exact .chain e root accesses (self_mem_nodes e) hchain hr

namespace Survey

variable {v : Survey}

/-- What a visit can make of a node: what it finds there, and whether it goes deeper. -/
inductive Visited (v : Survey) (n : Node) : Findings → Bool → Prop where
  | comment (hkind : n.kind = "comment") : Visited v n {} false
  | string (hkind : n.kind = "string") :
      Visited v n { literals := if (n.text v.code).contains '\n' then [(n.start + 1, n.stop - 1)] else [] } false
  | template (hkind : n.kind = "template_string") :
      Visited v n { literals := templateRanges (n.start + 1) (n.stop - 1) n.children } true
  | name (o : Outlook) (shorthand : Bool) (hname : n.isName = true)
      (hshorthand : shorthand = true → n.isShorthand = true) : Visited v n (v.reference o n [] shorthand) false
  | chain (o : Outlook) (root : Node) (accesses : List Access) (hkind : n.kind = "member_expression")
      (hchain : n.chain? v.code = some (root, accesses)) : Visited v n (v.reference o root accesses false) false
  | exported (hkind : n.kind = "export_specifier") : Visited v n {} false
  | exportedName (o : Outlook) (name : Node) (hkind : n.kind = "export_specifier") (hchild : name ∈ n.children)
      (hname : name.kind = "identifier") : Visited v n (v.reference o name [] false) false
  | deeper (effects : Effects) (hplain : n.kind ≠ "string" ∧ n.kind ≠ "template_string") :
      Visited v n { effects } true

theorem visited {n : Node} {o : Outlook} {p : Findings × Outlook × Bool} (h : v.visit o n = .ok p) :
    v.Visited n p.1 p.2.2 := by
  unfold visit at h
  extract_lets scope deferred here below assigns at h
  have hassigns : ∀ field, n.kind ≠ "string" ∧ n.kind ≠ "template_string" → assigns field = .ok p →
      v.Visited n p.1 p.2.2 := by
    intro field hplain h
    simp only [assigns] at h
    split at h
    · obtain rfl := Except.ok.inj h
      exact .deeper _ hplain
    · obtain ⟨q, -, h⟩ := bind_eq_ok.mp h
      obtain rfl := Except.ok.inj h
      exact .deeper _ hplain
  split at h
  · next hkind =>
    obtain rfl := Except.ok.inj h
    exact .comment hkind
  · next hkind =>
    obtain rfl := Except.ok.inj h
    exact .string hkind
  · next hkind =>
    obtain rfl := Except.ok.inj h
    exact .template hkind
  · next hkind =>
    obtain rfl := Except.ok.inj h
    exact .name _ false (Node.isName_of_identifier hkind) Bool.noConfusion
  · next hkind =>
    obtain rfl := Except.ok.inj h
    exact .name _ true (by rw [Node.isName, hkind]; rfl) fun _ => by rw [Node.isShorthand, hkind]; rfl
  · next hkind =>
    obtain rfl := Except.ok.inj h
    exact .name _ true (by rw [Node.isName, hkind]; rfl) fun _ => by rw [Node.isShorthand, hkind]; rfl
  · next hkind =>
    split at h
    · next root accesses hchain =>
      obtain rfl := Except.ok.inj h
      exact .chain _ root accesses hkind hchain
    · obtain rfl := Except.ok.inj h
      exact .deeper _ (by rw [hkind]; decide)
  · next hkind =>
    split at h
    · next name hchild =>
      obtain rfl := Except.ok.inj h
      dsimp only
      split
      · next hname => exact .exportedName _ name hkind (Node.mem_children_of_childAt? hchild) (eq_of_beq hname)
      · exact .exported hkind
    · obtain rfl := Except.ok.inj h
      exact .exported hkind
  · next hkind => exact hassigns _ (by rw [hkind]; decide) h
  · next hkind => exact hassigns _ (by rw [hkind]; decide) h
  · next hkind => exact hassigns _ (by rw [hkind]; decide) h
  · next hkind =>
    obtain rfl := Except.ok.inj h
    exact .deeper _ (by rw [hkind]; decide)
  · next hkind =>
    obtain rfl := Except.ok.inj h
    exact .deeper _ (by rw [hkind]; decide)
  · obtain rfl := Except.ok.inj h
    exact .deeper _ ⟨by assumption, by assumption⟩

theorem yields_visit {n : Node} {o : Outlook} {p : Findings × Outlook × Bool} (h : v.visit o n = .ok p) :
    p.1.references = [] ∨ p.2.2 = false ∧ ∃ e r, (e = n ∨ e ∈ n.children) ∧ p.1.references = [r] ∧
      e.Yields v.code r := by
  obtain ⟨found, below, deeper⟩ := p
  cases (visited h : v.Visited n found deeper) with
  | name o shorthand hname hshorthand =>
    exact .inr ⟨rfl, n, _, .inl rfl, rfl, .name hname ⟨rfl, rfl, rfl, rfl, rfl⟩ hshorthand⟩
  | chain o root accesses _ hchain =>
    exact .inr ⟨rfl, n, _, .inl rfl, rfl, .chain root accesses hchain ⟨rfl, rfl, rfl, rfl, rfl⟩ rfl⟩
  | exportedName o name _ hchild hname =>
    have hyields := Node.isName_of_identifier hname
    exact .inr ⟨rfl, name, _, .inr hchild, rfl, .name hyields ⟨rfl, rfl, rfl, rfl, rfl⟩ Bool.noConfusion⟩
  | comment | string | template | exported | deeper => exact .inl rfl

theorem tells_visit {n : Node} {o : Outlook} {p : Findings × Outlook × Bool} (h : v.visit o n = .ok p) :
    ∀ r ∈ p.1.references, n.Tells v.code r := by
  rcases yields_visit h with hnone | ⟨-, e, r, he, hone, hyields⟩
  · exact hnone ▸ List.forall_mem_nil _
  · rw [hone, List.forall_mem_singleton]
    refine .of_node ?_ hyields.tells
    rcases he with rfl | he
    · exact Node.self_mem_nodes e
    · exact Node.child_mem_nodes he

theorem collectAll_cons {n : Node} {ns : List Node} {o : Outlook} {f : Findings}
    (h : v.collectAll o (n :: ns) = .ok f) : ∃ first rest,
      (n.named = true ∧ v.collect o n = .ok first ∨ n.named = false ∧ first = {}) ∧
        v.collectAll o ns = .ok rest ∧ first ++ rest = f := by
  rw [collectAll] at h
  split at h
  · next hnamed =>
    obtain ⟨first, hfirst, h⟩ := bind_eq_ok.mp h
    obtain ⟨rest, hrest, h⟩ := bind_eq_ok.mp h
    exact ⟨first, rest, .inl ⟨hnamed, hfirst⟩, hrest, Except.ok.inj h⟩
  · next hunnamed =>
    obtain ⟨first, hnone, h⟩ := bind_eq_ok.mp h
    obtain ⟨rest, hrest, h⟩ := bind_eq_ok.mp h
    obtain rfl := Except.ok.inj hnone
    exact ⟨{}, rest, .inr ⟨Bool.eq_false_iff.mpr hunnamed, rfl⟩, hrest, Except.ok.inj h⟩

mutual

theorem tells_collect : ∀ {n : Node} {o : Outlook} {f : Findings}, v.collect o n = .ok f →
    ∀ r ∈ f.references, n.Tells v.code r
  | .mk head cs, o, f, h => by
    rw [collect] at h
    obtain ⟨⟨found, below, deeper⟩, hvisit, h⟩ := bind_eq_ok.mp h
    have hfound := tells_visit hvisit
    dsimp only at h
    split at h
    · obtain ⟨rest, hrest, h⟩ := bind_eq_ok.mp h
      obtain rfl := Except.ok.inj h
      refine List.forall_mem_append.mpr ⟨hfound, fun r hr => ?_⟩
      obtain ⟨c, hc, hr⟩ := tells_collectAll hrest r hr
      exact .of_node (Node.child_mem_nodes (n := .mk head cs) hc) hr
    · obtain rfl := Except.ok.inj h
      exact hfound

theorem tells_collectAll : ∀ {ns : List Node} {o : Outlook} {f : Findings}, v.collectAll o ns = .ok f →
    ∀ r ∈ f.references, ∃ n ∈ ns, n.Tells v.code r
  | [], o, f, h => by
    obtain rfl := Except.ok.inj h
    exact List.forall_mem_nil _
  | n :: ns, o, f, h => by
    obtain ⟨first, rest, hfirst, hrest, rfl⟩ := collectAll_cons h
    refine List.forall_mem_append.mpr ⟨fun r hr => ⟨n, List.mem_cons_self, ?_⟩, fun r hr => ?_⟩
    · rcases hfirst with ⟨-, hfirst⟩ | ⟨-, rfl⟩
      · exact tells_collect hfirst r hr
      · cases hr
    · obtain ⟨m, hm, hr⟩ := tells_collectAll hrest r hr
      exact ⟨m, List.mem_cons_of_mem _ hm, hr⟩

end

end Survey

end Treeshake
