import Treeshake.Proofs.Module.Fresh
/-!
How the text of a module that was parsed is divided. Main statement: if the nodes of its tree hold their children in
their order, its statements lie one behind the other, each with all that it tells of within its range.
-/
set_option autoImplicit false

namespace Treeshake

namespace Draft

variable {d d' : Draft} {start stop : Nat}

theorem bare_ofText (source : String) : (ofText source).Bare := .refl _

theorem Bare.remove (hd : d.Bare) (h : d.remove start stop = .ok d') : d'.Bare := by
  obtain ⟨-, -, ⟨-, rfl⟩ | ⟨a, m, z, hcells, rfl, -⟩⟩ := remove_eq_ok h
  · exact hd
  · have hless : (a ++ z).Sublist d.cells := by
      rw [hcells, List.append_assoc]
      exact (List.Sublist.refl a).append (List.sublist_append_right m z)
    exact hless.trans hd

end Draft

theorem Reference.Within.mono {start stop start' stop' : Nat} {r : Reference} (h : r.Within start stop)
    (hstart : start' ≤ start) (hstop : stop ≤ stop') : r.Within start' stop' where
  first := Nat.le_trans hstart h.first
  last := ⟨Nat.le_trans hstart h.last.1, Nat.le_trans h.last.2 hstop⟩
  accesses a ha := ⟨Nat.le_trans hstart (h.accesses a ha).1, Nat.le_trans (h.accesses a ha).2 hstop⟩

theorem Node.Tells.within {code : List Char} {n : Node} {r : Reference} (h : n.Tells code r) (hn : n.Nested code) :
    r.Within n.start n.stop := by
  obtain ⟨m, accesses, hr, hm, haccesses⟩ : ∃ m accesses, r.Spells code m accesses ∧ m ∈ n.nodes ∧
      ∀ a ∈ accesses, n.Marks a.stop := by
    cases h with
    | name m hm _ hr => exact ⟨m, [], hr, hm, List.forall_mem_nil _⟩
    | chain e root accesses he hchain hr =>
      obtain ⟨hroot, -, haccesses⟩ := Node.chain_nodes hchain
      exact ⟨root, accesses, hr, Node.nodes_trans he hroot, fun a ha => .of_node he (haccesses a ha)⟩
  refine ⟨?_, ?_, ?_⟩
  · rw [hr.start]
    exact (hn.marks (Node.marks_start hm)).1
  · rw [hr.stop]
    exact hn.marks (Node.marks_stop hm)
  · rw [hr.accesses]
    exact fun a ha => hn.marks (haccesses a ha)

/-- A piece whose statement would be contained if the next one started at a limit, and whose node would be too. -/
structure Piece.Fits (code : List Char) (limit : Nat) (p : Piece) : Prop where
  contained : ({ p.statement with next := limit } : Statement).Contained
  usable : Text.usable p.statement.start code = true
  walked : ∀ w ∈ p.walked, w.1.Nested code ∧ p.statement.start ≤ w.1.start ∧ w.1.stop ≤ limit

namespace Piece

variable {code : List Char} {limit limit' : Nat} {p : Piece} {ps qs : List Piece}

theorem Fits.mono (h : p.Fits code limit) (hle : limit ≤ limit') : p.Fits code limit' where
  contained := {
    node := h.contained.node
    stop := ⟨h.contained.stop.1, Nat.le_trans h.contained.stop.2 hle⟩
    offsets := fun k hk => Nat.le_trans (h.contained.offsets k hk) hle
    references := fun r hr => (h.contained.references r hr).mono (Nat.le_refl _) hle }
  usable := h.usable
  walked w hw := ⟨(h.walked w hw).1, (h.walked w hw).2.1, Nat.le_trans (h.walked w hw).2.2 hle⟩

def opening (limit : Nat) (ps : List Piece) : Nat := (ps.head?.map (·.statement.start)).getD limit

/-- Pieces that fit, each up to the next, and the last up to a limit. -/
def LaidBy (code : List Char) (limit : Nat) : List Piece → Prop
  | [] => True
  | p :: ps => p.Fits code (opening limit ps) ∧ LaidBy code limit ps

theorem LaidBy.append (hp : LaidBy code limit ps) (hq : LaidBy code limit' qs) (hle : limit ≤ opening limit' qs) :
    LaidBy code limit' (ps ++ qs) := by
  induction ps with
  | nil => exact hq
  | cons p ps ih =>
    refine ⟨hp.1.mono ?_, ih hp.2⟩
    cases ps with
    | nil => exact hle
    | cons p' ps => exact Nat.le_refl _

theorem LaidBy.mono (h : LaidBy code limit ps) (hle : limit ≤ limit') : LaidBy code limit' ps := by
  have hnone : LaidBy code limit' [] := trivial
  exact List.append_nil ps ▸ h.append hnone hle

end Piece

namespace Node

variable {code : List Char} {start stop : Nat} {ns : List Node} {n : Node}

theorem NestedFrom.opening (h : NestedFrom code start stop ns) :
    start ≤ (ns.head?.map (·.start)).getD stop ∧ NestedFrom code ((ns.head?.map (·.start)).getD stop) stop ns := by
  cases ns with
  | nil => exact ⟨h, Nat.le_refl stop⟩
  | cons n ns => exact ⟨h.1, Nat.le_refl n.start, h.2⟩

theorem Nested.namedChildren (h : n.Nested code) : NestedFrom code n.start n.stop n.namedChildren :=
  h.children.sublist List.filter_sublist

theorem Nested.declarators (h : n.Nested code) : NestedFrom code n.start n.stop n.declarators :=
  h.namedChildren.sublist List.filter_sublist

end Node

namespace Reading

variable {r : Reading} {o o' : Outline} {n : Node} {code : List Char} {start stop limit : Nat}

theorem fits_piece {kind : StatementKind} {walked : Option (Node × List Node)} (hn : n.Nested code)
    (hstart : start ≤ n.start) (hu : Text.usable start code = true) (hstop : n.stop ≤ limit)
    (hoffsets : ∀ k ∈ kind.offsets, k ≤ limit) (hwalked : ∀ w ∈ walked, w.1 = n) :
    (piece kind n start walked).Fits code limit where
  contained := ⟨hstart, ⟨Nat.le_trans hstart hn.le, hstop⟩, hoffsets, List.forall_mem_nil _⟩
  usable := hu
  walked := fun w hw => by
    obtain rfl := hwalked w hw
    exact ⟨hn, hstart, hstop⟩

theorem opening_declaratorPieces (keyword : String) (ancestors : List Node) (ds : List Node) :
    Piece.opening limit (declaratorPieces code keyword ancestors stop ds) = (ds.head?.map (·.start)).getD limit := by
  cases ds <;> rfl

theorem laid_declaratorPieces (keyword : String) (ancestors : List Node) {ds : List Node}
    (hds : Node.NestedFrom code start stop ds) :
    Piece.LaidBy code stop (declaratorPieces code keyword ancestors stop ds) := by
  induction ds generalizing start with
  | nil => trivial
  | cons d ds ih =>
    obtain ⟨-, hd, hrest⟩ := hds
    refine ⟨?_, ih hrest⟩
    rw [opening_declaratorPieces]
    refine fits_piece hd (Nat.le_refl _) hd.usable hrest.opening.1 (List.forall_mem_singleton.mpr (Nat.le_refl _)) ?_
    intro w hw
    cases hw
    rfl

theorem laid_step (ho : Piece.LaidBy r.code limit o.pieces) (hn : n.Nested r.code) (hlimit : limit ≤ start)
    (hstart : start ≤ n.start) (hu : Text.usable start r.code = true) (h : r.Step n start o o') :
    Piece.LaidBy r.code n.stop o'.pieces := by
  have hfirst : limit ≤ n.start := Nat.le_trans hlimit hstart
  cases h with
  | nothing => exact ho.mono (Nat.le_trans hfirst hn.le)
  | @one o₁ kind walked halike hoffsets hwalked =>
    have hpiece : (piece kind n start walked).Fits r.code n.stop :=
      fits_piece hn hstart hu (Nat.le_refl _) (fun k hk => (hn.marks (hoffsets k hk)).2) hwalked
    have hone : Piece.LaidBy r.code n.stop [piece kind n start walked] := ⟨hpiece, trivial⟩
    rw [push, halike.pieces]
    exact ho.append hone hlimit
  | split declaration keyword ancestors hdeclaration _ hpieces =>
    obtain ⟨hnested, hbefore, hbehind⟩ := hn.node hdeclaration.mem_nodes
    refine Piece.LaidBy.mono ?_ hbehind
    rw [hpieces]
    refine ho.append (laid_declaratorPieces keyword ancestors hnested.declarators) ?_
    rw [opening_declaratorPieces]
    exact Nat.le_trans (Nat.le_trans hfirst hbefore) hnested.declarators.opening.1

/-- With nodes that lie one behind the other, pieces that go up to the comments in front of them are brought up to
their end. -/
theorem laid_outlineFrom {row comment : Option Nat} {ns : List Node} (hns : Node.NestedFrom r.code start stop ns)
    (hcomment : ∀ c ∈ comment, c ≤ start ∧ Text.usable c r.code = true)
    (ho : Piece.LaidBy r.code (comment.getD start) o.pieces) (h : r.outlineFrom row comment o ns = .ok o') :
    Piece.LaidBy r.code stop o'.pieces := by
  induction ns generalizing row comment o start with
  | nil =>
    obtain rfl := Except.ok.inj h
    refine ho.mono ?_
    cases comment with
    | none => exact hns
    | some c => exact Nat.le_trans (hcomment c rfl).1 hns
  | cons n ns ih =>
    obtain ⟨hstart, hn, hrest⟩ := hns
    have hpassed : start ≤ n.stop := Nat.le_trans hstart hn.le
    have hcomment' : ∀ c ∈ comment, c ≤ n.stop ∧ Text.usable c r.code = true := fun c hc =>
      ⟨Nat.le_trans (hcomment c hc).1 hpassed, (hcomment c hc).2⟩
    have ho' : Piece.LaidBy r.code (comment.getD n.stop) o.pieces := by
      refine ho.mono ?_
      cases comment with
      | none => exact hpassed
      | some c => exact Nat.le_refl c
    have hnone : ∀ c ∈ (none : Option Nat), c ≤ n.stop ∧ Text.usable c r.code = true := nofun
    have hfront : comment.getD start ≤ comment.getD n.start ∧ comment.getD n.start ≤ n.start ∧
        Text.usable (comment.getD n.start) r.code = true := by
      cases comment with
      | none => exact ⟨hstart, Nat.le_refl _, hn.usable⟩
      | some c => exact ⟨Nat.le_refl _, Nat.le_trans (hcomment c rfl).1 hstart, (hcomment c rfl).2⟩
    rw [outlineFrom] at h
    split at h
    · obtain ⟨draft, -, h⟩ := bind_eq_ok.mp h
      exact ih hrest hcomment' (o := { o with draft }) ho' h
    · dsimp only at h
      split at h
      · rename_i hleads
        obtain rfl := Option.isNone_iff_eq_none.mp (Bool.and_eq_true_iff.mp hleads).1
        have hsome : ∀ c ∈ some n.start, c ≤ n.stop ∧ Text.usable c r.code = true := fun c hc => by
          cases hc
          exact ⟨hn.le, hn.usable⟩
        exact ih hrest hsome (ho.mono hstart) h
      · exact ih hrest hcomment' ho' h
    · exact ih hrest hcomment' ho' h
    · obtain ⟨o₁, hstatement, h⟩ := bind_eq_ok.mp h
      exact ih hrest hnone (laid_step ho hn hfront.1 hfront.2.1 hfront.2.2 (step_statement hstatement)) h

theorem laid_outline {draft : Draft} (hroot : r.tree.root.Nested r.code) (h : r.outline draft = .ok o) :
    Piece.LaidBy r.code r.tree.root.stop o.pieces := by
  have hnone : ∀ c ∈ (none : Option Nat), c ≤ r.tree.root.start ∧ Text.usable c r.code = true := nofun
  have hempty : Piece.LaidBy r.code r.tree.root.start ({ draft } : Outline).pieces := trivial
  exact laid_outlineFrom hroot.namedChildren hnone hempty h

theorem draft_outlineFrom {P : Draft → Prop} {row comment : Option Nat} {ns : List Node}
    (hremove : ∀ d d' first last, P d → d.remove first last = .ok d' → P d') (ho : P o.draft)
    (h : r.outlineFrom row comment o ns = .ok o') : P o'.draft := by
  induction ns generalizing row comment o with
  | nil =>
    obtain rfl := Except.ok.inj h
    exact ho
  | cons n ns ih =>
    rw [outlineFrom] at h
    split at h
    · obtain ⟨draft, hdraft, h⟩ := bind_eq_ok.mp h
      exact ih (o := { o with draft }) (hremove _ _ _ _ ho (mapError_eq_ok.mp hdraft)) h
    · exact ih ho h
    · exact ih ho h
    · obtain ⟨o₁, hstatement, h⟩ := bind_eq_ok.mp h
      refine ih ?_ h
      cases step_statement hstatement with
      | nothing => exact ho
      | one _ _ halike => exact halike.draft ▸ ho
      | split _ _ _ _ hdraft _ =>
        obtain hkept | ⟨_, _, hremoved⟩ := hdraft
        · exact hkept ▸ ho
        · exact hremove _ _ _ _ ho hremoved

end Reading

namespace Statement

def opening (length : Nat) (ss : List Statement) : Nat := (ss.head?.map (·.start)).getD length

theorem chain_cons (length : Nat) (s : Statement) (ss : List Statement) :
    chain length (s :: ss) = { s with next := opening length ss } :: chain length ss := by
  cases ss <;> rfl

theorem tile_chain (length : Nat) (ss : List Statement) : Tile length (opening length ss) (chain length ss) := by
  induction ss with
  | nil => exact rfl
  | cons s ss ih =>
    rw [chain_cons]
    exact ⟨rfl, ih⟩

end Statement

def Piece.Became (code : List Char) (p : Piece) (s : Statement) : Prop :=
  s.start = p.statement.start ∧ ∀ limit, p.Fits code limit → ({ s with next := limit } : Statement).Contained

namespace Module

variable {code : List Char}

theorem became_analyse {id : String} {imports : Table ImportSpecifier} {forest forest' : ScopeForest} {ps : List Piece}
    {ss : List Statement} (h : analyse id code imports forest ps = .ok (ss, forest')) :
    List.Forall₂ (Piece.Became code) ps ss := by
  induction ps generalizing forest forest' ss with
  | nil =>
    obtain ⟨rfl, -⟩ := Prod.mk.inj (Except.ok.inj h)
    exact .nil
  | cons p ps ih =>
    rw [analyse] at h
    split at h
    · obtain ⟨⟨rest, forest₁⟩, hanalyse, h⟩ := bind_eq_ok.mp h
      obtain ⟨rfl, -⟩ := Prod.mk.inj (Except.ok.inj h)
      exact .cons ⟨rfl, fun limit hfits => hfits.contained⟩ (ih hanalyse)
    · rename_i n ancestors hwalked
      obtain ⟨⟨a, forest₁⟩, ha, h⟩ := bind_eq_ok.mp h
      obtain ⟨⟨rest, forest₂⟩, hanalyse, h⟩ := bind_eq_ok.mp h
      obtain ⟨rfl, -⟩ := Prod.mk.inj (Except.ok.inj h)
      obtain ⟨findings, hfindings, ha⟩ := bind_eq_ok.mp ha
      obtain ⟨rfl, -⟩ := Prod.mk.inj (Except.ok.inj ha)
      refine .cons ⟨rfl, fun limit hfits => ?_⟩ (ih hanalyse)
      obtain ⟨hn, hstart, hstop⟩ := hfits.walked (n, ancestors) hwalked
      have hcontained := hfits.contained
      exact ⟨hcontained.node, hcontained.stop, hcontained.offsets, fun r hr =>
        ((Survey.tells_collect hfindings r hr).within hn).mono hstart hstop⟩

theorem opening_became {ps : List Piece} {ss : List Statement} (h : List.Forall₂ (Piece.Became code) ps ss)
    (length : Nat) : Statement.opening length ss = Piece.opening length ps := by
  cases h with
  | nil => rfl
  | cons hfirst _ => exact hfirst.1

theorem contained_chain {length : Nat} {ps : List Piece} {ss : List Statement}
    (h : List.Forall₂ (Piece.Became code) ps ss) (hp : Piece.LaidBy code length ps) :
    ∀ s ∈ Statement.chain length ss, s.Contained ∧ Text.usable s.start code = true := by
  induction h with
  | nil => exact List.forall_mem_nil _
  | @cons p s ps ss hfirst hrest ih =>
    obtain ⟨hfits, hp⟩ := hp
    rw [Statement.chain_cons]
    refine List.forall_mem_cons.mpr ⟨⟨?_, ?_⟩, ih hp⟩
    · rw [opening_became hrest]
      exact hfirst.2 _ hfits
    · exact hfirst.1 ▸ hfits.usable

theorem bare_startDraft {code : String} {root : Node} {d : Draft} (h : startDraft code root = .ok d) : d.Bare := by
  obtain ⟨d₁, hremoved, h⟩ := bind_eq_ok.mp h
  obtain rfl := Except.ok.inj h
  have hbare : d₁.Bare := foldlM_keeps (fun _ _ _ hd hremove => hd.remove hremove) (Draft.bare_ofText code) hremoved
  have hanchors : ∀ (nodes : List Node) (d : Draft), d.Bare →
      (nodes.foldl (fun d n => (d.anchor n.start).anchor n.stop) d).Bare := by
    intro nodes
    induction nodes with
    | nil => exact fun _ hd => hd
    | cons n nodes ih => exact fun d hd => ih ((d.anchor n.start).anchor n.stop) hd
  exact hanchors _ d₁ hbare

theorem laidOut_parse {grammar : Grammar} {id : String} {source : Source} {m : Module}
    (htree : ∀ tree, treeOf grammar id source = .ok tree → tree.Proper source.code.toList)
    (h : parse grammar id source = .ok m) : m.LaidOut := by
  have hsource : m.draft.source = source.code := source_parse h
  obtain ⟨tree, hparsed, h⟩ := bind_eq_ok.mp h
  obtain ⟨draft, hdraft, h⟩ := bind_eq_ok.mp h
  obtain ⟨outline, houtline, h⟩ := bind_eq_ok.mp h
  obtain ⟨⟨ss, scopes⟩, hanalyse, h⟩ := bind_eq_ok.mp h
  obtain rfl := Except.ok.inj h
  have hproper := htree tree hparsed
  have hlaid : Piece.LaidBy source.code.toList (Text.size source.code.toList) outline.pieces :=
    (Reading.laid_outline hproper.nested houtline).mono hproper.within
  have hstart : draft.Bare := bare_startDraft (mapError_eq_ok.mp hdraft)
  have hbare : outline.draft.Bare :=
    Reading.draft_outlineFrom (fun _ _ _ _ hd hremove => hd.remove hremove) hstart houtline
  have hchain := contained_chain (became_analyse hanalyse) hlaid
  have htiles : ∃ start, Statement.Tile outline.draft.length start
      (Statement.chain (Text.size source.code.toList) ss) := by
    rw [Draft.length, hsource]
    exact ⟨_, Statement.tile_chain _ ss⟩
  refine ⟨hbare, htiles, fun s hs => (hchain s hs).1, fun s hs => ?_⟩
  rw [hsource]
  exact (hchain s hs).2

end Module

end Treeshake
