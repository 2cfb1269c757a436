import Treeshake.Proofs.Module.Sited
import Treeshake.Proofs.Scope.Literals
/-!
The literals of statements. Main statement: what a statement of a module that was parsed tells of leaves out the text of
every literal in it, but of those that stand in front of what it exports, and it has noted that text, unless it is that
of a string without a line feed.
-/
set_option autoImplicit false

namespace Treeshake

namespace StatementKind

def declarationStart? : StatementKind → Option Nat
  | .exportDeclaration declarationStart _ _ | .exportDefault declarationStart _ => some declarationStart
  | _ => none

/-- Up to where the text in front of what is exported may be taken away. -/
def cuts : StatementKind → List Nat
  | .declarator .. => []
  | kind => kind.offsets

end StatementKind

namespace Statement

/-- What a statement tells of leaves out a range within it. -/
structure Skips (start stop : Nat) (s : Statement) : Prop where
  within : s.nodeStart < start ∧ stop < s.stop
  references : ∀ q ∈ s.references, (∀ k ∈ q.ends, k < start) ∨ stop < q.start
  cuts : ∀ k ∈ s.kind.cuts, k < start

/-- A statement leaves out the text of the literals in it, but of those in front of what it exports, and has noted it
where it has to. -/
def Quotes (code : List Char) (t : SyntaxTree) (s : Statement) : Prop :=
  s.kind.IsLink ∨ ∀ n ∈ t.root.nodes, ∀ r ∈ n.chunks, s.nodeStart < r.1 → r.2 < s.stop →
    (∀ d ∈ s.kind.declarationStart?, d < r.1) → s.Skips r.1 r.2 ∧ (r ∈ n.noted code → r ∈ s.literals)

end Statement

def Piece.Quotes (code : List Char) (t : SyntaxTree) (p : Piece) : Prop :=
  p.statement.kind.IsLink ∨ ∃ w ancestors, p.walked = some (w, ancestors) ∧ w ∈ t.root.nodes ∧ w.Walkable code ∧
    w.start = p.statement.nodeStart ∧ w.stop = p.statement.stop ∧
    ∀ n ∈ t.root.nodes, ∀ r ∈ n.chunks, w.start < r.1 → r.2 < w.stop → n ∈ w.nodes ∧
      ((∀ d ∈ p.statement.kind.declarationStart?, d < r.1) → ∀ k ∈ p.statement.kind.cuts, k < r.1)

namespace Reading

variable {r : Reading} {o o' : Outline} {n m c : Node} {start : Nat} {code : List Char} {t : SyntaxTree}

theorem mem_declaratorPieces (keyword : String) (ancestors : List Node) (stop : Nat) (ds : List Node) :
    ∀ p ∈ declaratorPieces code keyword ancestors stop ds, ∃ d ∈ ds, p.walked = some (d, ancestors) ∧
      d.start = p.statement.nodeStart ∧ d.stop = p.statement.stop ∧ p.statement.kind.cuts = [] := by
  induction ds with
  | nil => exact List.forall_mem_nil _
  | cons d ds ih =>
    refine List.forall_mem_cons.mpr ⟨⟨d, List.mem_cons_self, rfl, rfl, rfl, rfl⟩, fun p hp => ?_⟩
    obtain ⟨d', hd', hpiece⟩ := ih p hp
    exact ⟨d', List.mem_cons_of_mem _ hd', hpiece⟩

theorem chunks_of_kind {kind : String} (hkind : n.kind = kind) (hstring : kind ≠ "string")
    (htemplate : kind ≠ "template_string") : n.chunks = [] :=
  Node.chunks_eq_nil (hkind ▸ hstring) (hkind ▸ htemplate)

theorem mem_child_of_chunk {k : Nat × Nat} (ht : t.Quoted code) (hn : n.Nested code) (hm : m ∈ t.root.nodes)
    (hmn : m ∈ n.nodes) (hnone : n.chunks = []) (hk : k ∈ m.chunks) (hc : c ∈ n.children) (hfirst : c.start < k.1)
    (hlast : k.2 < c.stop) : m ∈ c.nodes := by
  obtain ⟨hfront, hbehind, -, hle, -⟩ := ht.enclosed m hm k hk
  have hne : m ≠ n := by
    rintro rfl
    rw [hnone] at hk
    cases hk
  exact hn.mem_nodes_of_byte (k := k.1 - 1) hc hmn hne ⟨by omega, by omega⟩ ⟨by omega, by omega⟩

variable (hp : r.tree.Proper r.code) (ht : r.tree.Quoted r.code)
include hp ht

theorem quotes_piece (start : Nat) {kind : StatementKind} {walked : Option (Node × List Node)}
    (hn : n ∈ r.tree.root.children) (hwalked : ∀ w ∈ walked, w.1 = n) (hframes : kind.Frames n)
    (hread : walked.isSome = true ∨ kind.IsLink) : (piece kind n start walked).Quotes r.code r.tree := by
  rcases hread with hsome | hlink
  · obtain ⟨⟨w, ancestors⟩, rfl⟩ := Option.isSome_iff_exists.mp hsome
    obtain rfl : w = n := hwalked _ rfl
    by_cases hlink : kind.IsLink
    · exact .inl hlink
    · have hexport : w.kind = "export_statement" → w.exported?.isSome = true := by
        intro hkind
        cases kind with
        | declarator => exact hframes.elim
        | exportDeclaration | exportDefault =>
          obtain ⟨-, x, hx, -⟩ := hframes
          exact Option.isSome_of_eq_some hx
        | «variable» | other => exact absurd hkind hframes
        | importing => exact absurd (.inl rfl) hlink
        | exportClause => exact absurd (.inr (.inl rfl)) hlink
        | reexport => exact absurd (.inr (.inr rfl)) hlink
      refine .inr ⟨w, ancestors, rfl, Node.child_mem_nodes hn, ht.walkable hn hexport (Node.self_mem_nodes w), rfl, rfl,
        fun m hm k hk hfirst hlast => ?_⟩
      have hmem := mem_child_of_chunk ht hp.nested hm hm ht.root hk hn hfirst hlast
      refine ⟨hmem, fun hbehind => ?_⟩
      cases kind with
      | exportDeclaration declarationStart declaratorStart name =>
        obtain ⟨hkind, x, hx, rfl, hdeclarator⟩ := hframes
        have hstart : x.start < k.1 := hbehind x.start rfl
        refine List.forall_mem_cons.mpr ⟨hstart, fun o ho => ?_⟩
        obtain ⟨d, hd, rfl⟩ := hdeclarator o (Option.mem_toList.mp ho)
        exact (ht.heads w hn hkind x hx m hmem k hk hstart).2 d hd
      | exportDefault declarationStart form =>
        obtain ⟨hkind, x, hx, rfl, hform⟩ := hframes
        have hstart : x.start < k.1 := hbehind x.start rfl
        cases form with
        | anonymousFunction headEnd =>
          obtain ⟨hfunction, rfl⟩ := hform headEnd rfl
          refine List.forall_mem_cons.mpr ⟨hstart, List.forall_mem_singleton.mpr ?_⟩
          exact (ht.heads w hn hkind x hx m hmem k hk hstart).1 hfunction
        | declaration | expression => exact List.forall_mem_singleton.mpr hstart
      | _ => exact List.forall_mem_nil _
  · exact .inl hlink

theorem quotes_step (hn : n ∈ r.tree.root.children) (ho : ∀ p ∈ o.pieces, p.Quotes r.code r.tree)
    (h : r.Step n start o o') : ∀ p ∈ o'.pieces, p.Quotes r.code r.tree := by
  cases h with
  | nothing => exact ho
  | @one o₁ kind walked halike _ hwalked hframes hread =>
    rw [push, halike.pieces]
    have hpiece := quotes_piece hp ht start hn hwalked hframes hread
    exact List.forall_mem_append.mpr ⟨ho, List.forall_mem_singleton.mpr hpiece⟩
  | split declaration keyword ancestors hdeclaration _ hpieces =>
    rw [hpieces]
    refine List.forall_mem_append.mpr ⟨ho, fun p hpiece => ?_⟩
    obtain ⟨d, hd, hwalked, hfirst, hlast, hcuts⟩ := mem_declaratorPieces _ _ _ _ p hpiece
    have hchild : d ∈ declaration.children := Node.mem_children_of_declarators hd
    have hnested : n.Nested r.code := (hp.nested.node (Node.child_mem_nodes hn)).1
    obtain ⟨hdnested, hdfirst, hdlast⟩ := hnested.node hdeclaration.mem_nodes
    obtain ⟨-, hfront, hbehind⟩ := hdnested.children.mem hchild
    have hmem : d ∈ n.nodes := Node.nodes_trans hdeclaration.mem_nodes (Node.child_mem_nodes hchild)
    have hexport : n.kind = "export_statement" → n.exported?.isSome = true := by
      intro hkind
      rcases hdeclaration.2 with rfl | ⟨-, hexported⟩
      · rcases hdeclaration.1 with h | h <;> exact absurd (h.symm.trans hkind) (by decide)
      · exact Option.isSome_of_eq_some hexported
    refine .inr ⟨d, ancestors, hwalked, Node.mem_nodes_of_child hn hmem, ht.walkable hn hexport hmem, hfirst, hlast,
      fun m hm k hk hkfirst hklast => ⟨?_, fun _ => hcuts ▸ List.forall_mem_nil _⟩⟩
    have hmn : m ∈ n.nodes :=
      mem_child_of_chunk ht hp.nested hm hm ht.root hk hn (by omega) (by omega)
    have hmd : m ∈ declaration.nodes := by
      rcases hdeclaration.2 with rfl | ⟨hkind, hexported⟩
      · exact hmn
      · exact mem_child_of_chunk ht hnested hm hmn (chunks_of_kind hkind (by decide) (by decide)) hk
          (Node.mem_children_of_exported? hexported) (by omega) (by omega)
    have hnone : declaration.chunks = [] := by
      rcases hdeclaration.1 with hkind | hkind <;> exact chunks_of_kind hkind (by decide) (by decide)
    exact mem_child_of_chunk ht hdnested hm hmd hnone hk hchild hkfirst hklast

theorem quotes_outline {draft : Draft} (h : r.outline draft = .ok o) : ∀ p ∈ o.pieces, p.Quotes r.code r.tree :=
  forall_pieces_outlineFrom (fun _ hn _ _ _ ho hstep => quotes_step hp ht (List.mem_filter.mp hn).1 ho hstep)
    (List.forall_mem_nil _) h

end Reading

namespace Module

variable {code : List Char} {t : SyntaxTree}

theorem quotes_analyse {id : String} {imports : Table ImportSpecifier} {forest forest' : ScopeForest} {ps : List Piece}
    {ss : List Statement} (hp : t.Proper code) (ht : t.Quoted code) (hps : ∀ p ∈ ps, p.Quotes code t)
    (h : analyse id code imports forest ps = .ok (ss, forest')) : ∀ s ∈ ss, s.Quotes code t := by
  induction ps generalizing forest forest' ss with
  | nil =>
    obtain ⟨rfl, -⟩ := Prod.mk.inj (Except.ok.inj h)
    exact List.forall_mem_nil _
  | cons p ps ih =>
    obtain ⟨hpiece, hps⟩ := List.forall_mem_cons.mp hps
    rw [analyse] at h
    split at h
    · next hnone =>
      obtain ⟨⟨rest, forest₁⟩, hanalyse, h⟩ := bind_eq_ok.mp h
      obtain ⟨rfl, -⟩ := Prod.mk.inj (Except.ok.inj h)
      refine List.forall_mem_cons.mpr ⟨hpiece.imp_right fun hread => ?_, ih hps hanalyse⟩
      obtain ⟨w, ancestors, hwalked, -⟩ := hread
      rw [hnone] at hwalked
      cases hwalked
    · next w ancestors hwalked =>
      obtain ⟨⟨a, forest₁⟩, ha, h⟩ := bind_eq_ok.mp h
      obtain ⟨⟨rest, forest₂⟩, hanalyse, h⟩ := bind_eq_ok.mp h
      obtain ⟨rfl, -⟩ := Prod.mk.inj (Except.ok.inj h)
      obtain ⟨findings, hfindings, ha⟩ := bind_eq_ok.mp ha
      obtain ⟨rfl, -⟩ := Prod.mk.inj (Except.ok.inj ha)
      refine List.forall_mem_cons.mpr ⟨hpiece.imp_right fun hread => ?_, ih hps hanalyse⟩
      obtain ⟨w', ancestors', hwalked', hmem, hwalkable, hstart, hstop, hliterals⟩ := hread
      obtain ⟨rfl, rfl⟩ := Prod.mk.inj (Option.some.inj (hwalked.symm.trans hwalked'))
      intro n hn k hk hfirst hlast hbehind
      obtain ⟨hnw, hcuts⟩ := hliterals n hn k hk (hstart ▸ hfirst) (hstop ▸ hlast)
      refine ⟨⟨⟨hfirst, hlast⟩, fun q hq => ?_, hcuts hbehind⟩, ?_⟩
      · obtain ⟨es, hes, hwithin, hyields⟩ := Survey.readOff_collect (hp.nested.node hmem).1 hfindings
        obtain ⟨e, he, hyield⟩ := forall₂_mem hyields hq
        obtain ⟨hbefore, hends⟩ := hyield.bounds (hes.mem he).1
        have hname : e.isName = true ∨ (e.chain? code).isSome = true := by
          cases hyield with
          | name hname _ _ => exact .inl hname
          | chain _ _ hchain _ _ => exact .inr (Option.isSome_of_eq_some hchain)
        have happart := ht.apart n hn k hk e (Node.nodes_trans hmem (hwithin e he)) hname
        refine happart.imp (fun hlt i hi => ?_) fun hlt => ?_
        · exact Nat.lt_of_le_of_lt (hends i hi) hlt
        · exact Nat.lt_of_lt_of_le hlt hbefore
      · exact fun hnoted => Survey.notes_collect hwalkable hfindings n hnw k hnoted

theorem quotes_parse {grammar : Grammar} {id : String} {source : Source} {m : Module} {tree : SyntaxTree}
    (htree : treeOf grammar id source = .ok tree) (hp : tree.Proper source.code.toList)
    (ht : tree.Quoted source.code.toList) (h : parse grammar id source = .ok m) :
    ∀ s ∈ m.statements, s.Quotes source.code.toList tree := by
  obtain ⟨tree', hparsed, h⟩ := bind_eq_ok.mp h
  obtain rfl := Except.ok.inj (hparsed.symm.trans htree)
  obtain ⟨draft, -, h⟩ := bind_eq_ok.mp h
  obtain ⟨outline, houtline, h⟩ := bind_eq_ok.mp h
  obtain ⟨⟨ss, scopes⟩, hanalyse, h⟩ := bind_eq_ok.mp h
  obtain rfl := Except.ok.inj h
  have hpieces := Reading.quotes_outline hp ht houtline
  intro s hs
  obtain ⟨t, ht', next, rfl⟩ := mem_chain hs
  refine (quotes_analyse hp ht hpieces hanalyse t ht').imp_right fun hquotes n hn k hk hfirst hlast hbehind => ?_
  obtain ⟨hskips, hnoted⟩ := hquotes n hn k hk hfirst hlast hbehind
  exact ⟨⟨hskips.within, hskips.references, hskips.cuts⟩, hnoted⟩

end Module

end Treeshake
