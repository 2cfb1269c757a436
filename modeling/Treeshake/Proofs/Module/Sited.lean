import Treeshake.Proofs.Module.Comments
import Treeshake.Proofs.Scope.Sited
/-!
Where the statements of a module that was parsed stand. Main statement: all that a statement tells of lies between
characters, apart from each other, and where nothing has been removed but comments that name source maps.
-/
set_option autoImplicit false

namespace Treeshake

namespace Statement

/-- Up to where a statement tells of its text; a declarator also tells of what is behind it. -/
def reach (s : Statement) : Nat :=
  match s.kind with
  | .declarator _ _ separatorEnd _ => max separatorEnd (s.stop + 1)
  | _ => s.stop

theorem le_reach (s : Statement) : s.stop ≤ s.reach := by
  rw [reach]
  split <;> omega

/-- The offsets of a declarator are in their order, and so are those of a default export, where references stand in
front of what is exported or in it, but not in its head. -/
def Ordered (s : Statement) : Prop :=
  match s.kind with
  | .declarator _ _ separatorEnd _ => s.start = s.nodeStart ∧ s.stop ≤ separatorEnd
  | .exportDefault declarationStart form => s.nodeStart < declarationStart ∧
    (∀ k, form = .anonymousFunction k → declarationStart ≤ k) ∧
    ∀ r ∈ s.references, s.nodeStart < r.start ∧ ((∀ k ∈ r.ends, k < declarationStart) ∨
      declarationStart ≤ r.start ∧ ∀ k, form = .anonymousFunction k → k ≤ r.start)
  | _ => True

/-- A statement tells of places between characters of its text, each reference in front of the next. -/
structure Sited (code : List Char) (s : Statement) : Prop where
  first : Text.usable s.nodeStart code = true
  last : s.nodeStart ≤ s.stop ∧ Text.usable s.stop code = true
  offsets : ∀ k ∈ s.kind.offsets, Text.usable k code = true ∧ s.nodeStart ≤ k ∧ k ≤ s.reach
  references : ∀ r ∈ s.references, r.Sited code s.nodeStart s.stop
  ahead : s.references.Pairwise Reference.Ahead
  ordered : s.Ordered

end Statement

/-- The statements of a module tell of places where the draft has its text, but for comments that name source maps. -/
structure Module.Sited (m : Module) : Prop where
  source : m.draft.source.toList = m.code
  statements : ∀ s ∈ m.statements, s.Sited m.code
  keeps : ∀ s ∈ m.statements, ∀ k, s.nodeStart ≤ k → k < s.reach → m.draft.Keeps m.code k

structure Piece.Sited (code : List Char) (t : SyntaxTree) (p : Piece) : Prop where
  statement : p.statement.Sited code
  walked : ∀ w ∈ p.walked, w.1 ∈ t.root.nodes ∧ w.1.isShorthand = false ∧ w.1.start = p.statement.nodeStart ∧
    w.1.stop = p.statement.stop ∧ ((∃ d form, p.statement.kind = .exportDefault d form) → p.statement.kind.Frames w.1)

structure Outline.Sited (code : List Char) (t : SyntaxTree) (ns : List Node) (o : Outline) : Prop where
  intact : o.draft.Intact
  source : o.draft.source.toList = code
  pieces : ∀ p ∈ o.pieces, p.Sited code t
  before : ∀ p ∈ o.pieces, ∀ m ∈ ns, m.kind ≠ "comment" → p.statement.reach ≤ m.start
  behind : ∀ p ∈ o.pieces, ∀ k, p.statement.nodeStart ≤ k → k < p.statement.reach → o.draft.Keeps code k
  ahead : ∀ m ∈ ns, m.kind ≠ "comment" → ∀ k, m.start ≤ k → o.draft.Keeps code k

namespace Outline.Sited

variable {code : List Char} {t : SyntaxTree} {n : Node} {ns : List Node} {o : Outline}

theorem tail (ho : o.Sited code t (n :: ns)) : o.Sited code t ns where
  intact := ho.intact
  source := ho.source
  pieces := ho.pieces
  before p hp m hm := ho.before p hp m (List.mem_cons_of_mem _ hm)
  behind := ho.behind
  ahead m hm := ho.ahead m (List.mem_cons_of_mem _ hm)

theorem remove {draft : Draft} {first last : Nat} (ho : o.Sited code t (n :: ns)) (hkind : n.kind ≠ "comment")
    (hfirst : Text.usable first code = true) (hlast : Text.usable last code = true) (hle : n.start ≤ first)
    (hbehind : ∀ m ∈ ns, last ≤ m.start) (h : o.draft.remove first last = .ok draft) :
    ({ o with draft } : Outline).Sited code t ns where
  intact := Draft.intact_remove ho.intact h
  source := (congrArg _ (Draft.source_remove h)).trans ho.source
  pieces := ho.pieces
  before p hp m hm := ho.before p hp m (List.mem_cons_of_mem _ hm)
  behind p hp k hk hlt := by
    have hfront := Nat.lt_of_lt_of_le hlt (ho.before p hp n List.mem_cons_self hkind)
    exact (ho.behind p hp k hk hlt).remove ho.intact (ho.source ▸ hfirst) (ho.source ▸ hlast) h
      (.inl (Nat.lt_of_lt_of_le hfront hle))
  ahead m hm hcomment k hk :=
    (ho.ahead m (List.mem_cons_of_mem _ hm) hcomment k hk).remove ho.intact (ho.source ▸ hfirst) (ho.source ▸ hlast) h
      (.inr (Nat.le_trans (hbehind m hm) hk))

end Outline.Sited

namespace Reading

theorem usable_lineEnd {code : List Char} {k : Nat} (hk : Text.usable k code = true) :
    Text.usable (lineEnd code k) code = true ∧ k ≤ lineEnd code k := by
  obtain ⟨before, rest, rfl, rfl⟩ := Text.eq_append_of_usable hk
  have hrest : (Text.after? (Text.size before) (before ++ rest)).getD [] = rest := by
    rw [Text.after?_size_append]
    rfl
  rw [lineEnd, hrest]
  refine ⟨?_, by omega⟩
  have hsplit := List.takeWhile_append_dropWhile (p := (· != '\n')) (l := rest)
  cases hdrop : rest.dropWhile (· != '\n') with
  | nil =>
    rw [hdrop, List.append_nil] at hsplit
    rw [hsplit, if_neg (Nat.lt_irrefl _), Nat.add_zero, ← Text.size_append]
    have hend := Text.usable_size_append (before ++ rest) []
    rwa [List.append_nil] at hend
  | cons c tail =>
    have hbreak : c = '\n' := by
      have hhead := List.head?_dropWhile_not (p := (· != '\n')) (l := rest)
      rw [hdrop] at hhead
      simpa using hhead
    have hlt : (rest.takeWhile (· != '\n')).length < rest.length := by
      have hlength := congrArg List.length hsplit
      rw [hdrop, List.length_append, List.length_cons] at hlength
      omega
    rw [if_pos hlt]
    have hwhole : before ++ rest = (before ++ rest.takeWhile (· != '\n') ++ [c]) ++ tail := by
      rw [List.append_assoc, List.append_assoc, List.singleton_append, ← hdrop, hsplit]
    have hsize : Text.size before + Text.size (rest.takeWhile (· != '\n')) + 1 =
        Text.size (before ++ rest.takeWhile (· != '\n') ++ [c]) := by
      rw [Text.size_append, Text.size_append, hbreak]
      rfl
    rw [hsize, hwhole]
    exact Text.usable_size_append _ _

section
variable {r : Reading} {n : Node} {o o' : Outline} {start : Nat}

theorem nodeStart_le_headEnd {x : Node} (hx : x.Nested r.code) : x.start ≤ x.headEnd :=
  (hx.marks (Node.marks_headEnd x)).1

theorem keeps_split {declaration : Node} {d d' : Draft} (hd : d.Intact) (hsource : d.source.toList = r.code)
    (hn : n.Nested r.code) (hdeclaration : declaration ∈ n.nodes)
    (hdraft : d' = d ∨ ∃ c ∈ declaration.declarators.head?, d.remove n.start c.start = .ok d') :
    d'.Intact ∧ d'.source = d.source ∧ ∀ k, d.Keeps r.code k →
      (k < n.start ∨ ∃ c ∈ declaration.declarators, c.start ≤ k) ∨ n.stop ≤ k → d'.Keeps r.code k := by
  obtain ⟨hnested, -, hlast⟩ := hn.node hdeclaration
  rcases hdraft with rfl | ⟨c, hc, hremove⟩
  · exact ⟨hd, rfl, fun k hk _ => hk⟩
  · obtain ⟨rest, hrest⟩ := List.head?_eq_some_iff.mp hc
    have hmem : c ∈ declaration.declarators := hrest ▸ List.mem_cons_self
    obtain ⟨hcnested, -, hcstop⟩ := hnested.declarators.mem hmem
    refine ⟨Draft.intact_remove hd hremove, Draft.source_remove hremove, fun k hk hout => ?_⟩
    refine hk.remove hd (hsource ▸ hn.usable) (hsource ▸ hcnested.usable) hremove ?_
    rcases hout with (hfront | ⟨c', hc', hle⟩) | hbehind
    · exact .inl hfront
    · have hfirst : c.start ≤ c'.start := by
        have hall := hnested.declarators.pairwise
        rw [hrest] at hall hc'
        rcases List.mem_cons.mp hc' with rfl | hc'
        · exact Nat.le_refl _
        · exact Nat.le_trans hcnested.le ((List.pairwise_cons.mp hall).1 c' hc')
      exact .inr (Nat.le_trans hfirst hle)
    · exact .inr (Nat.le_trans (Nat.le_trans hcnested.le (Nat.le_trans hcstop hlast)) hbehind)

variable (ht : r.tree.Lexed r.code)
include ht

theorem sited_declaratorPieces {declaration : Node} (keyword : String) (ancestors : List Node) {ds : List Node}
    (hdeclaration : declaration ∈ r.tree.root.nodes)
    (hds : Node.NestedFrom r.code start declaration.stop ds) (hmem : ∀ d ∈ ds, d ∈ declaration.declarators) :
    ∀ p ∈ declaratorPieces r.code keyword ancestors declaration.stop ds, p.Sited r.code r.tree ∧ ∃ d ∈ ds,
      p.statement.nodeStart = d.start ∧ p.statement.reach ≤ max declaration.stop (d.stop + 1) := by
  induction ds generalizing start with
  | nil => exact List.forall_mem_nil _
  | cons d ds ih =>
    obtain ⟨hd, hmem⟩ := List.forall_mem_cons.mp hmem
    obtain ⟨-, hnested, hrest⟩ := hds
    have hnode : d ∈ r.tree.root.nodes :=
      Node.nodes_trans hdeclaration (Node.child_mem_nodes (Node.mem_children_of_declarators hd))
    have hkind : d.kind = "variable_declarator" := eq_of_beq (List.mem_filter.mp hd).2
    have hplain : d.isShorthand = false := by
      rw [Node.isShorthand, hkind]
      rfl
    have hend : d.stop ≤ (ds.head?.map (·.start)).getD declaration.stop := hrest.opening.1
    have husable : Text.usable ((ds.head?.map (·.start)).getD declaration.stop) r.code = true := by
      cases ds with
      | nil => exact ht.stops _ hdeclaration
      | cons d' ds => exact hrest.2.1.usable
    have hwithin : (ds.head?.map (·.start)).getD declaration.stop ≤ declaration.stop := hrest.opening.2.le
    refine List.forall_mem_cons.mpr ⟨⟨⟨⟨hnested.usable, ⟨hnested.le, ht.stops d hnode⟩,
      List.forall_mem_singleton.mpr ⟨husable, ?_, ?_⟩, List.forall_mem_nil _, .nil, rfl, hend⟩, fun w hw => ?_⟩,
      d, List.mem_cons_self, rfl, ?_⟩, fun p hp' => ?_⟩
    · exact Nat.le_trans hnested.le hend
    · exact Nat.le_max_left _ _
    · cases hw
      refine ⟨hnode, hplain, rfl, rfl, ?_⟩
      rintro ⟨_, _, h⟩
      cases h
    · exact Nat.max_le.mpr ⟨Nat.le_trans hwithin (Nat.le_max_left _ _), Nat.le_max_right _ _⟩
    · obtain ⟨hsited, d', hd', hstart, hreach⟩ := ih hrest hmem p hp'
      exact ⟨hsited, d', List.mem_cons_of_mem _ hd', hstart, hreach⟩

variable (hp : r.tree.Proper r.code)
include hp

theorem sited_piece (start : Nat) {kind : StatementKind} {walked : Option (Node × List Node)}
    (hn : n ∈ r.tree.root.children) (hoffsets : ∀ offset ∈ kind.offsets, n.Marks offset)
    (hwalked : ∀ w ∈ walked, w.1 = n) (hframes : kind.Frames n) :
    (piece kind n start walked).Sited r.code r.tree ∧ (piece kind n start walked).statement.reach = n.stop := by
  have hmem : n ∈ r.tree.root.nodes := Node.child_mem_nodes hn
  have hnested : n.Nested r.code := (hp.nested.node hmem).1
  have hreach : (piece kind n start walked).statement.reach = n.stop := by
    cases kind with
    | declarator => exact hframes.elim
    | _ => rfl
  refine ⟨⟨⟨hnested.usable, ⟨hnested.le, ht.stops n hmem⟩, fun k hk => ⟨?_, ?_⟩, List.forall_mem_nil _, .nil, ?_⟩,
    fun w hw => ?_⟩, hreach⟩
  · exact Node.usable_of_marks hp ht hmem (hoffsets k hk)
  · rw [hreach]
    exact hnested.marks (hoffsets k hk)
  · cases kind with
    | declarator => exact hframes.elim
    | exportDefault declarationStart form =>
      obtain ⟨hkind, x, hx, rfl, hform⟩ := hframes
      refine ⟨(ht.exported n hmem hkind x hx).1, fun k hk => ?_, List.forall_mem_nil _⟩
      obtain ⟨-, rfl⟩ := hform k hk
      have hchild : x ∈ n.children := Node.mem_children_of_exported? hx
      exact nodeStart_le_headEnd (hnested.children.mem hchild).1
    | _ => trivial
  · obtain rfl := hwalked w hw
    exact ⟨hmem, ht.statements _ hn, rfl, rfl, fun _ => hframes⟩

theorem sited_step {ns : List Node} (hn : n ∈ r.tree.root.children) (hbefore : ∀ m ∈ ns, n.stop ≤ m.start)
    (hclosed : ∀ m ∈ ns, m.kind ≠ "comment" → ∀ d ∈ n.nodes, d.kind = "variable_declarator" → d.stop < m.start)
    (hkind : n.kind ≠ "comment") (ho : o.Sited r.code r.tree (n :: ns)) (h : r.Step n start o o') :
    o'.Sited r.code r.tree ns := by
  have hmem : n ∈ r.tree.root.nodes := Node.child_mem_nodes hn
  have hnested : n.Nested r.code := (hp.nested.node hmem).1
  have hold : ∀ p ∈ o.pieces, ∀ m ∈ ns, m.kind ≠ "comment" → p.statement.reach ≤ m.start :=
    fun p hp' m hm => ho.before p hp' m (List.mem_cons_of_mem _ hm)
  have hahead : ∀ m ∈ ns, m.kind ≠ "comment" → ∀ k, m.start ≤ k → o.draft.Keeps r.code k :=
    fun m hm => ho.ahead m (List.mem_cons_of_mem _ hm)
  cases h with
  | nothing => exact ⟨ho.intact, ho.source, ho.pieces, hold, ho.behind, hahead⟩
  | @one o₁ kind walked halike hoffsets hwalked hframes =>
    obtain ⟨hsited, hreach⟩ := sited_piece ht hp start hn hoffsets hwalked hframes
    have hpieces : ∀ P : Piece → Prop, (∀ p ∈ o.pieces, P p) → P (piece kind n start walked) →
        ∀ p ∈ (push o₁ kind n start walked).pieces, P p := by
      intro P hfirst hlast
      rw [push, halike.pieces]
      exact List.forall_mem_append.mpr ⟨hfirst, List.forall_mem_singleton.mpr hlast⟩
    have hdraft : (push o₁ kind n start walked).draft = o.draft := halike.draft
    refine ⟨hdraft ▸ ho.intact, hdraft ▸ ho.source, hpieces _ ho.pieces hsited, hpieces _ hold fun m hm _ => ?_, ?_, ?_⟩
    · exact hreach ▸ hbefore m hm
    · rw [hdraft]
      exact hpieces _ ho.behind fun k hk _ => ho.ahead n List.mem_cons_self hkind k hk
    · rw [hdraft]
      exact hahead
  | split declaration keyword ancestors hdeclaration hdraft hpieces =>
    have hdeclaration := hdeclaration.mem_nodes
    obtain ⟨hdnested, hdfirst, hdlast⟩ := hnested.node hdeclaration
    have hsited := sited_declaratorPieces ht keyword ancestors (Node.nodes_trans hmem hdeclaration)
      hdnested.declarators fun d hd => hd
    have hnew : ∀ m ∈ ns, m.kind ≠ "comment" → ∀ d ∈ declaration.declarators, d.stop < m.start := by
      intro m hm hcomment d hd
      refine hclosed m hm hcomment d (Node.nodes_trans hdeclaration (Node.child_mem_nodes ?_)) ?_
      · exact Node.mem_children_of_declarators hd
      · exact eq_of_beq (List.mem_filter.mp hd).2
    obtain ⟨hintact, hsource, hkeeps⟩ := keeps_split ho.intact ho.source hnested hdeclaration hdraft
    have hpiece : ∀ P : Piece → Prop, (∀ p ∈ o.pieces, P p) →
        (∀ p ∈ declaratorPieces r.code keyword ancestors declaration.stop declaration.declarators, P p) →
        ∀ p ∈ o'.pieces, P p := by
      intro P hfirst hlast
      rw [hpieces]
      exact List.forall_mem_append.mpr ⟨hfirst, hlast⟩
    refine ⟨hintact, (congrArg _ hsource).trans ho.source, hpiece _ ho.pieces fun p hp' => (hsited p hp').1,
      hpiece _ hold fun p hp' m hm hcomment => ?_, hpiece _ (fun p hp' k hle hlt => ?_) fun p hp' k hle _ => ?_,
      fun m hm hcomment k hle => ?_⟩
    · obtain ⟨-, d, hd, -, hreach⟩ := hsited p hp'
      have hend : declaration.stop ≤ m.start := Nat.le_trans hdlast (hbefore m hm)
      exact Nat.le_trans hreach (Nat.max_le.mpr ⟨hend, hnew m hm hcomment d hd⟩)
    · have hfront := ho.before p hp' n List.mem_cons_self hkind
      exact hkeeps k (ho.behind p hp' k hle hlt) (.inl (.inl (Nat.lt_of_lt_of_le hlt hfront)))
    · obtain ⟨-, d, hd, hstart, -⟩ := hsited p hp'
      have hdk : d.start ≤ k := hstart ▸ hle
      have hnk : n.start ≤ k := Nat.le_trans hdfirst (Nat.le_trans (hdnested.declarators.mem hd).2.1 hdk)
      exact hkeeps k (ho.ahead n List.mem_cons_self hkind k hnk) (.inl (.inr ⟨d, hd, hdk⟩))
    · exact hkeeps k (hahead m hm hcomment k hle) (.inr (Nat.le_trans (hbefore m hm) hle))

theorem sited_outlineFrom {row comment : Option Nat} {first last : Nat} {ns : List Node}
    (hmem : ∀ n ∈ ns, n ∈ r.tree.root.children) (hns : Node.NestedFrom r.code first last ns)
    (hbang : ns.Pairwise fun n m => n.kind = "hash_bang_line" → lineEnd r.code n.stop ≤ m.start)
    (hclosed : ns.Pairwise fun n m => m.kind ≠ "comment" →
      ∀ d ∈ n.nodes, d.kind = "variable_declarator" → d.stop < m.start)
    (ho : o.Sited r.code r.tree ns) (h : r.outlineFrom row comment o ns = .ok o') : o'.Sited r.code r.tree [] := by
  induction ns generalizing row comment o first with
  | nil =>
    obtain rfl := Except.ok.inj h
    exact ho
  | cons n ns ih =>
    obtain ⟨hn, hmem⟩ := List.forall_mem_cons.mp hmem
    obtain ⟨hbefore, -⟩ := List.pairwise_cons.mp hns.pairwise
    obtain ⟨hbangs, hbang⟩ := List.pairwise_cons.mp hbang
    obtain ⟨hcloses, hclosed⟩ := List.pairwise_cons.mp hclosed
    rw [outlineFrom] at h
    split at h
    · next hkind =>
      obtain ⟨draft, hdraft, h⟩ := bind_eq_ok.mp h
      obtain ⟨husable, -⟩ := usable_lineEnd (ht.stops n (Node.child_mem_nodes hn))
      have hcomment : n.kind ≠ "comment" := by
        rw [hkind]
        decide
      have hremoved := ho.remove hcomment hns.2.1.usable husable (Nat.le_refl _) (fun m hm => hbangs m hm hkind)
        (mapError_eq_ok.mp hdraft)
      exact ih hmem hns.2.2 hbang hclosed hremoved h
    · exact ih hmem hns.2.2 hbang hclosed ho.tail h
    · exact ih hmem hns.2.2 hbang hclosed ho.tail h
    · next hcomment _ =>
      obtain ⟨o₁, hstatement, h⟩ := bind_eq_ok.mp h
      have hread := sited_step ht hp hn hbefore hcloses hcomment ho (step_statement hstatement)
      exact ih hmem hns.2.2 hbang hclosed hread h

theorem sited_outline {draft : Draft} (hdraft : draft.Intact) (hsource : draft.source.toList = r.code)
    (hkeeps : ∀ k, draft.Keeps r.code k) (h : r.outline draft = .ok o) : o.Sited r.code r.tree [] := by
  have hstart : ({ draft } : Outline).Sited r.code r.tree r.tree.root.namedChildren :=
    ⟨hdraft, hsource, List.forall_mem_nil _, List.forall_mem_nil _, List.forall_mem_nil _, fun _ _ _ k _ => hkeeps k⟩
  exact sited_outlineFrom ht hp (fun n hn => (List.mem_filter.mp hn).1) hp.nested.namedChildren ht.hashBang ht.closed
    hstart h

end

end Reading

namespace Statement

theorem Sited.read {code : List Char} {t : SyntaxTree} {s s' : Statement} {w : Node} (hp : t.Proper code)
    (ht : t.Lexed code) (hs : s.Sited code) (hw : w ∈ t.root.nodes)
    (hplain : w.isShorthand = false) (hstart : w.start = s.nodeStart) (hstop : w.stop = s.stop)
    (hframes : (∃ d form, s.kind = .exportDefault d form) → s.kind.Frames w)
    (hsame : s'.kind = s.kind ∧ s'.start = s.start ∧ s'.nodeStart = s.nodeStart ∧ s'.stop = s.stop)
    (hread : ReadOff code w.start w.stop w.nodes s'.references) : s'.Sited code := by
  obtain ⟨hkind, hfirst, hnode, hlast⟩ := hsame
  obtain ⟨hreferences, hahead⟩ := Node.sited_of_readOff hp ht hw hplain hread
  have hreach : s'.reach = s.reach := by rw [reach, reach, hkind, hlast]
  refine ⟨hnode ▸ hs.first, ⟨hnode ▸ hlast ▸ hs.last.1, hlast ▸ hs.last.2⟩, ?_, ?_, hahead, ?_⟩
  · rw [hkind, hnode, hreach]
    exact hs.offsets
  · rw [hnode, hlast, ← hstart, ← hstop]
    exact hreferences
  · have hordered := hs.ordered
    rw [Ordered] at hordered ⊢
    rw [hkind, hfirst, hnode, hlast]
    cases hcase : s.kind with
    | exportDefault declarationStart form =>
      rw [hcase] at hordered hframes
      obtain ⟨hexport, x, hx, rfl, hform⟩ := hframes ⟨declarationStart, form, rfl⟩
      refine ⟨hordered.1, hordered.2.1, fun r hr => ?_⟩
      obtain ⟨es, hes, hmem, hyields⟩ := hread
      obtain ⟨e, he, hyield⟩ := forall₂_mem hyields hr
      obtain ⟨hbefore, hends⟩ := hyield.bounds (hes.mem he).1
      obtain ⟨hfar, hapart⟩ := (ht.exported w hw hexport x hx).2 e (hmem e he) hyield.root.1
      refine ⟨hstart ▸ Nat.lt_of_lt_of_le hfar hbefore, hapart.imp (fun hlt k hk => ?_) fun hin => ?_⟩
      · exact Nat.lt_of_le_of_lt (hends k hk) hlt
      · refine ⟨Nat.le_trans hin.1 hbefore, fun k hk => ?_⟩
        obtain ⟨hfunction, rfl⟩ := hform k hk
        exact Nat.le_trans (hin.2 hfunction) hbefore
    | declarator keyword name separatorEnd last =>
      rw [hcase] at hordered
      exact hordered
    | _ => trivial

end Statement

namespace Module

theorem sited_analyse {id : String} {code : List Char} {imports : Table ImportSpecifier} {t : SyntaxTree}
    {forest forest' : ScopeForest} {ps : List Piece} {ss : List Statement} (hp : t.Proper code) (ht : t.Lexed code)
    (hps : ∀ p ∈ ps, p.Sited code t) (h : analyse id code imports forest ps = .ok (ss, forest')) :
    ∀ s ∈ ss, s.Sited code ∧ ∃ p ∈ ps, s.nodeStart = p.statement.nodeStart ∧ s.reach = p.statement.reach := by
  induction ps generalizing forest forest' ss with
  | nil =>
    obtain ⟨rfl, -⟩ := Prod.mk.inj (Except.ok.inj h)
    exact List.forall_mem_nil _
  | cons p ps ih =>
    obtain ⟨hpiece, hps⟩ := List.forall_mem_cons.mp hps
    have hcons : ∀ {s : Statement} {rest : List Statement} {forest₁ : ScopeForest}, s.Sited code →
        s.nodeStart = p.statement.nodeStart → s.reach = p.statement.reach →
        analyse id code imports forest₁ ps = .ok (rest, forest') → ∀ s' ∈ s :: rest, s'.Sited code ∧
          ∃ p' ∈ p :: ps, s'.nodeStart = p'.statement.nodeStart ∧ s'.reach = p'.statement.reach := by
      intro s rest forest₁ hs hnode hreach hrest
      refine List.forall_mem_cons.mpr ⟨⟨hs, p, List.mem_cons_self, hnode, hreach⟩, fun s' hs' => ?_⟩
      obtain ⟨hsited, p', hp', hsame⟩ := ih hps hrest s' hs'
      exact ⟨hsited, p', List.mem_cons_of_mem _ hp', hsame⟩
    rw [analyse] at h
    split at h
    · obtain ⟨⟨rest, forest₁⟩, hanalyse, h⟩ := bind_eq_ok.mp h
      obtain ⟨rfl, rfl⟩ := Prod.mk.inj (Except.ok.inj h)
      exact hcons hpiece.statement rfl rfl hanalyse
    · rename_i n ancestors hwalked
      obtain ⟨⟨a, forest₁⟩, ha, h⟩ := bind_eq_ok.mp h
      obtain ⟨⟨rest, forest₂⟩, hanalyse, h⟩ := bind_eq_ok.mp h
      obtain ⟨rfl, rfl⟩ := Prod.mk.inj (Except.ok.inj h)
      obtain ⟨findings, hfindings, ha⟩ := bind_eq_ok.mp ha
      obtain ⟨rfl, rfl⟩ := Prod.mk.inj (Except.ok.inj ha)
      obtain ⟨hn, hplain, hstart, hstop, hframes⟩ := hpiece.walked (n, ancestors) hwalked
      have hread := Survey.readOff_collect (hp.nested.node hn).1 hfindings
      refine hcons (Statement.Sited.read hp ht hpiece.statement hn hplain hstart hstop hframes
        ⟨rfl, rfl, rfl, rfl⟩ hread) rfl rfl hanalyse

theorem sited_parse {grammar : Grammar} {id : String} {source : Source} {m : Module}
    (htree : ∀ tree, treeOf grammar id source = .ok tree →
      tree.Proper source.code.toList ∧ tree.Lexed source.code.toList)
    (h : parse grammar id source = .ok m) : m.Sited := by
  obtain ⟨tree, hparsed, h⟩ := bind_eq_ok.mp h
  obtain ⟨draft, hdraft, h⟩ := bind_eq_ok.mp h
  obtain ⟨outline, houtline, h⟩ := bind_eq_ok.mp h
  obtain ⟨⟨ss, scopes⟩, hanalyse, h⟩ := bind_eq_ok.mp h
  obtain rfl := Except.ok.inj h
  obtain ⟨hproper, hlexed⟩ := htree tree hparsed
  have hstart := mapError_eq_ok.mp hdraft
  have hsited := Reading.sited_outline hlexed hproper (bare_startDraft hstart).intact
    (congrArg _ (source_startDraft hstart)) (keeps_startDraft hstart) houtline
  have hstatements := sited_analyse hproper hlexed hsited.pieces hanalyse
  refine ⟨hsited.source, fun s hs => ?_, fun s hs k hle hlt => ?_⟩
  · obtain ⟨t, ht, next, rfl⟩ := mem_chain hs
    have hsited := (hstatements t ht).1
    exact ⟨hsited.first, hsited.last, hsited.offsets, hsited.references, hsited.ahead, hsited.ordered⟩
  · obtain ⟨t, ht, next, rfl⟩ := mem_chain hs
    obtain ⟨-, p, hp, hnode, hreach⟩ := hstatements t ht
    exact hsited.behind p hp k (hnode ▸ hle) (hreach ▸ hlt)

end Module

end Treeshake
