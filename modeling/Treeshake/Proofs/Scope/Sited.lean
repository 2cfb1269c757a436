import Mathlib.Logic.Relation
import Treeshake.Proofs.Graph.Changes
import Treeshake.Proofs.Module.Parsed
import Treeshake.Proofs.Scope.Order
import Treeshake.Proofs.Syntax.Lexed
/-!
Where references stand in the text of their statement.
-/
set_option autoImplicit false

namespace Treeshake

namespace Reference

def ends (r : Reference) : List Nat := r.stop :: r.accesses.map (·.stop)

/-- A reference in a range of a text: it starts and ends between characters. One that names a property at the same time
has something behind it in the range, and has no accesses. -/
structure Sited (code : List Char) (start stop : Nat) (r : Reference) : Prop where
  first : start ≤ r.start
  usable : Text.usable r.start code = true
  ends : ∀ k ∈ r.ends, r.start < k ∧ k ≤ stop ∧ Text.usable k code = true
  shorthand : r.shorthand = true → r.accesses = [] ∧ r.stop < stop

/-- A reference ends before another one starts, and one that names a property does not touch it. -/
structure Ahead (r r' : Reference) : Prop where
  ends : ∀ k ∈ r.ends, k ≤ r'.start
  shorthand : r.shorthand = true → r.stop ≠ r'.start

structure Stays (r r' : Reference) : Prop where
  start : r'.start = r.start
  ends : r'.ends ⊆ r.ends
  shorthand : r'.shorthand = r.shorthand
  bare : r.accesses = [] → r'.accesses = [] ∧ r'.stop = r.stop

theorem Rebound.stays {r r' : Reference} (h : r.Rebound r') : r.Stays r' := by
  cases h with
  | bound b => exact ⟨rfl, List.Subset.refl _, rfl, fun h => ⟨h, rfl⟩⟩
  | narrowed hn =>
    cases hn with
    | whole id => exact ⟨rfl, List.Subset.refl _, rfl, fun h => ⟨h, rfl⟩⟩
    | member a rest id ha hrest =>
      refine ⟨rfl, List.cons_subset.mpr ⟨?_, fun k hk => ?_⟩, rfl, fun h => ?_⟩
      · exact List.mem_cons_of_mem _ (List.mem_map_of_mem ha)
      · exact List.mem_cons_of_mem _ (List.map_subset _ hrest hk)
      · rw [h] at ha
        cases ha

theorem stays_of_rebounds {r r' : Reference} (h : Relation.ReflTransGen Rebound r r') : r.Stays r' := by
  induction h with
  | refl => exact ⟨rfl, List.Subset.refl _, rfl, fun h => ⟨h, rfl⟩⟩
  | tail _ hstep ih =>
    have hlast := hstep.stays
    refine ⟨hlast.start.trans ih.start, List.Subset.trans hlast.ends ih.ends, hlast.shorthand.trans ih.shorthand,
      fun h => ?_⟩
    obtain ⟨hbare, hstop⟩ := ih.bare h
    exact ⟨(hlast.bare hbare).1, (hlast.bare hbare).2.trans hstop⟩

section
variable {code : List Char} {start stop : Nat} {r r' q q' : Reference}

theorem Sited.stays (h : r.Sited code start stop) (hr : r.Stays r') : r'.Sited code start stop where
  first := hr.start ▸ h.first
  usable := hr.start ▸ h.usable
  ends k hk := hr.start ▸ h.ends k (hr.ends hk)
  shorthand hs := by
    obtain ⟨hbare, hlt⟩ := h.shorthand (hr.shorthand ▸ hs)
    exact ⟨(hr.bare hbare).1, (hr.bare hbare).2 ▸ hlt⟩

theorem Ahead.stays (h : r.Ahead q) (hs : r.Sited code start stop) (hr : r.Stays r') (hq : q.Stays q') :
    r'.Ahead q' where
  ends k hk := hq.start ▸ h.ends k (hr.ends hk)
  shorthand hshort := by
    rw [hr.shorthand] at hshort
    rw [(hr.bare (hs.shorthand hshort).1).2, hq.start]
    exact h.shorthand hshort

end

end Reference

namespace Node

variable {code : List Char} {t : SyntaxTree} {e w : Node} {r r' : Reference}

theorem Yields.root (h : e.Yields code r) : e.isUse = true ∧ ∃ m ∈ e.nodes, m.isName = true ∧ m.start = r.start := by
  cases h with
  | name hname hr _ => exact ⟨by rw [isUse, hname, Bool.true_or], e, self_mem_nodes e, hname, hr.start.symm⟩
  | chain root accesses hchain hr _ =>
    obtain ⟨hroot, hkind, -⟩ := chain_nodes hchain
    refine ⟨?_, root, hroot, isName_of_identifier hkind, hr.start.symm⟩
    rcases chain?_eq_some hchain with ⟨rfl, -, hidentifier⟩ | ⟨_, _, _, hmember, -⟩
    · rw [isUse, isName_of_identifier hidentifier, Bool.true_or]
    · rw [isUse, hmember, beq_self_eq_true, Bool.or_true]

theorem Tells.bounds (hn : e.Nested code) (h : e.Tells code r) : e.start ≤ r.start ∧ ∀ k ∈ r.ends, k ≤ e.stop := by
  cases h with
  | name m hm _ hr =>
    rw [Reference.ends, hr.accesses, hr.start, hr.stop]
    exact ⟨(hn.node hm).2.1, List.forall_mem_singleton.mpr (hn.node hm).2.2⟩
  | chain c root accesses hc hchain hr =>
    obtain ⟨hroot, -, haccesses⟩ := chain_nodes hchain
    rw [Reference.ends, hr.accesses, hr.start, hr.stop]
    refine ⟨(hn.marks (.of_node hc (marks_start hroot))).1,
      List.forall_mem_cons.mpr ⟨(hn.marks (.of_node hc (marks_stop hroot))).2, ?_⟩⟩
    rw [List.forall_mem_map]
    exact fun a ha => (hn.marks (.of_node hc (haccesses a ha))).2

theorem Yields.bounds (hn : e.Nested code) (h : e.Yields code r) : e.start ≤ r.start ∧ ∀ k ∈ r.ends, k ≤ e.stop :=
  h.tells.bounds hn

variable (hp : t.Proper code) (ht : t.Lexed code) (hw : w ∈ t.root.nodes)
include hp ht hw

theorem usable_of_marks {k : Nat} (hk : w.Marks k) : Text.usable k code = true := by
  obtain ⟨m, hm, rfl | rfl⟩ := hk
  · exact (hp.nested.node (nodes_trans hw hm)).1.usable
  · exact ht.stops m (nodes_trans hw hm)

theorem Yields.sited (hplain : w.isShorthand = false) (he : e ∈ w.nodes) (h : e.Yields code r) :
    r.Sited code w.start w.stop := by
  have hwn : w.Nested code := (hp.nested.node hw).1
  obtain ⟨hen, hfirst, hlast⟩ := hwn.node he
  obtain ⟨hstart, hends⟩ := h.bounds hen
  obtain ⟨-, m, hm, hname, hmstart⟩ := h.root
  have hmw := nodes_trans he hm
  have hlong : m.start < m.stop := (hp.spelled.name m (nodes_trans hw hmw) hname).1
  have hmarks : ∀ k ∈ r.ends, r.start < k ∧ w.Marks k := by
    cases h with
    | name hname hr _ =>
      rw [Reference.ends, hr.accesses, hr.start, hr.stop]
      have hlong := (hp.spelled.name e (nodes_trans hw he) hname).1
      exact List.forall_mem_singleton.mpr ⟨hlong, marks_stop he⟩
    | chain root accesses hchain hr _ =>
      obtain ⟨hroot, hkind, haccesses⟩ := chain_nodes hchain
      rw [Reference.ends, hr.accesses, hr.start, hr.stop]
      have hroot' := nodes_trans he hroot
      have hlong := (hp.spelled.name root (nodes_trans hw hroot') (isName_of_identifier hkind)).1
      refine List.forall_mem_cons.mpr ⟨⟨hlong, marks_stop hroot'⟩, List.forall_mem_map.mpr fun a ha => ⟨?_, ?_⟩⟩
      · have := (chain_plain hen ((hp.spelled.node hw).node he) hchain a ha).2
        omega
      · exact .of_node he (haccesses a ha)
  refine ⟨Nat.le_trans hfirst hstart, ?_, fun k hk => ⟨(hmarks k hk).1, Nat.le_trans (hends k hk) hlast, ?_⟩,
    fun hshort => ?_⟩
  · exact hmstart ▸ (hp.nested.node (nodes_trans hw hmw)).1.usable
  · exact usable_of_marks hp ht hw (hmarks k hk).2
  · cases h with
    | name _ hr hshorthand =>
      exact ⟨hr.accesses, hr.stop ▸ ht.shorthand w hw hplain e he (hshorthand hshort)⟩
    | chain _ _ _ _ hnot =>
      rw [hnot] at hshort
      cases hshort

theorem sited_of_readOff (hplain : w.isShorthand = false) {rs : List Reference}
    (h : ReadOff code w.start w.stop w.nodes rs) :
    (∀ r ∈ rs, r.Sited code w.start w.stop) ∧ rs.Pairwise Reference.Ahead := by
  obtain ⟨es, hes, hmem, hyields⟩ := h
  refine ⟨fun r hr => ?_,
    pairwise_of_forall₂ hyields hes.pairwise fun e he e' he' r r' hle hr hr' => ⟨fun k hk => ?_, ?_⟩⟩
  · obtain ⟨e, he, hyield⟩ := forall₂_mem hyields hr
    exact hyield.sited hp ht hw hplain (hmem e he)
  · have hen := (hes.mem he).1
    have hen' := (hes.mem he').1
    exact Nat.le_trans ((hr.bounds hen).2 k hk) (Nat.le_trans hle (hr'.bounds hen').1)
  · intro hshort
    obtain ⟨-, m, hm, hname, hmstart⟩ := hr'.root
    cases hr with
    | name hename hspells _ =>
      rw [hspells.stop, ← hmstart]
      exact ht.names e (nodes_trans hw (hmem e he)) m (nodes_trans hw (nodes_trans (hmem e' he') hm)) hename hname
    | chain _ _ _ _ hnot =>
      rw [hnot] at hshort
      cases hshort

end Node

end Treeshake
