import Mathlib
import Treeshake.Proofs.Graph.Linked
import Treeshake.Proofs.Graph.Missing
import Treeshake.Proofs.Graph.Search
/-!
Star exports of external modules against all others. Main statement: a name that some module has, among those that
star exports lead to, comes from the tables of such a module, unless these tables lead nowhere or the search comes
to another module that has a star export of an external one and beyond which no module has the name. Each module
puts its own star exports of external modules last, but a module that is searched before others may have one too.
-/
set_option autoImplicit false

namespace Treeshake

namespace Graph

open Relation (ReflTransGen)

variable {R : List Routes} {g h : Graph} {name : String} {path : List Nat} {start i k : Nat}

theorem Way.mem_path (hway : Way R name start path k) : start ∈ k :: path := by
  induction hway with
  | start => exact List.mem_cons_self
  | step _ _ _ ih => exact List.mem_cons_of_mem _ ih

theorem Way.path_eq_nil (hway : Way R name start path start) : path = [] := by
  cases hway with
  | start => rfl
  | step h _ hnew => exact absurd h.mem_path hnew

theorem beyond_nil : Beyond R name [] i k ↔ ReflTransGen (Delegates R name) i k := by
  simp [Beyond]

/-- An export that some module has, among those that star exports lead to, is traced to what the tables of such a
module have for it, and to a star export of an external module in two cases only: another module than the first
one, on the way from there, has that star export, and star exports lead from it to no module that has the name and
none of which is on that way; or the tables of all modules that have the name lead nowhere from it. -/
theorem external_stars_last {importer id : Nat} (hname : name ≠ "default")
    (hlist : ∃ l m, ReflTransGen (Passes g.routes) i l ∧ g.routes[l]? = some m ∧ name ∈ m.own)
    (hrun : (traceExport (.inside i) name importer).run g = .ok (id, h)) :
    (∃ k, ReflTransGen (Delegates g.routes name) i k ∧ Comes g k name id h) ∨
    (∃ path k e, Way g.routes name i path k ∧ k ≠ i ∧ DelegatesOut g.routes name k e ∧
      (∀ l, Beyond g.routes name path k l → ¬Answers g.routes l name) ∧
      (externalDeclaration e name).run g = .ok (id, h)) ∨
    (∃ l m, ReflTransGen (Delegates g.routes name) i l ∧ g.routes[l]? = some m ∧ name ∈ m.own ∧
      m.lead? name = none) ∧ ∀ l, ReflTransGen (Delegates g.routes name) i l → ¬Answers g.routes l name := by
  have hrun : (exportWithin g.traceBound i name importer).run g = .ok (id, h) := hrun
  cases lookup g i name g.traceBound importer with
  | endless hend => exact absurd hend (not_endless_of_ok hrun)
  | missing _ hmiss => exact absurd hmiss (not_misses_of_ok hrun)
  | @entry k f m lead hk hm hlead hf hsame =>
    have hfound := hsame.symm.trans hrun
    have hfollow := (run_follow lead k hf.le).resolve_left (not_endless_of_ok hfound)
    exact .inl ⟨k, hk, m, lead, hm, hlead, hfollow.trans hfound⟩
  | @outside path k e hway he hlast hsame =>
    by_cases hki : k = i
    · subst hki
      obtain rfl := hway.path_eq_nil
      have hnone : ∀ l, ReflTransGen (Delegates g.routes name) k l → ¬Answers g.routes l name :=
        fun l hl => hlast l (beyond_nil.mpr hl)
      obtain ⟨l, m, hl, hm, hown⟩ := exists_own_of_passes hname hlist
      have hlead : m.lead? name = none :=
        Option.eq_none_iff_forall_ne_some.mpr fun lead hlead => hnone l hl ⟨m, lead, hm, hlead⟩
      exact .inr (.inr ⟨⟨l, m, hl, hm, hown, hlead⟩, hnone⟩)
    · exact .inr (.inl ⟨path, k, e, hway, hki, he, hlast, hsame.symm.trans hrun⟩)

def passingOn (id : String) (targets : Table Target) : Module × Table Target :=
  ({ wholeModule id .reexport [] [] [] [] with starSources := targets.keys, sources := targets.keys }, targets)

def exporting (id : String) (declared : Bool) : Module × Table Target :=
  (wholeModule id .variable [] [] [("x", ⟨"x", none, 0⟩)] (if declared then [⟨"x", "x", some 0⟩] else []), [])

def ext : External := { id := "ext", name := "ext" }

theorem fetched_stars {modules : List (Module × Table Target)} (hmodules : ∀ e ∈ modules,
    (∃ id declared, e = exporting id declared) ∨ ∃ id targets, e = passingOn id targets ∧
      ∀ p ∈ targets, p.2 = .outside 0 ∨ ∃ i < modules.length, p.2 = .inside i) : Fetched modules [ext] := by
  have htargets : ∀ e ∈ modules, ∀ s t, e.2.get? s = some t →
      s ∈ e.1.sources ∧ (t = .outside 0 ∨ ∃ i < modules.length, t = .inside i) := by
    intro e he s t h
    rcases hmodules e he with ⟨id, declared, rfl⟩ | ⟨id, targets, rfl, hp⟩
    · cases h
    · exact ⟨Table.mem_keys_iff.mpr ⟨t, h⟩, hp _ (lookup_mem h)⟩
  refine ⟨fun e he => ?_, fun e he s t h => (htargets e he s t h).1, fun e he s i h => ?_, fun e he s i h => ?_,
    by simp [ext]⟩
  · rcases hmodules e he with ⟨id, declared, rfl⟩ | ⟨id, targets, rfl, -⟩
    · refine ⟨by simp [exporting, wholeModule], by simp [exporting, wholeModule], ?_⟩
      cases declared <;> simp [exporting, wholeModule]
    · exact ⟨by simp [passingOn, wholeModule], by simp [passingOn, wholeModule], by simp [passingOn, wholeModule]⟩
  · rcases (htargets e he s _ h).2 with h | ⟨k, hk, h⟩
    · cases h
    · exact Target.inside.inj h ▸ hk
  · rcases (htargets e he s _ h).2 with h | ⟨k, hk, h⟩
    · exact Target.outside.inj h ▸ Nat.one_pos
    · cases h

def beside : List (Module × Table Target) :=
  [passingOn "0" [("ext", .outside 0), ("./1", .inside 1)], exporting "1" true]

theorem external_stars_last_beside : Fetched beside [ext] ∧ DelegatesOut (starred beside [ext]).routes "x" 0 0 ∧
    ∃ id h k, (traceExport (.inside 0) "x" 0).run (starred beside [ext]) = .ok (id, h) ∧
      Comes (starred beside [ext]) k "x" id h := by
  have hf : Fetched beside [ext] := by
    refine fetched_stars fun e he => ?_
    simp only [beside, List.mem_cons, List.not_mem_nil, or_false] at he
    rcases he with rfl | rfl
    · exact .inr ⟨_, _, rfl, by decide⟩
    · exact .inl ⟨_, _, rfl⟩
  have hlist : ∃ l m, ReflTransGen (Passes (starred beside [ext]).routes) 0 l ∧
      (starred beside [ext]).routes[l]? = some m ∧ "x" ∈ m.own :=
    ⟨1, _, .single ⟨_, rfl, by decide⟩, rfl, by decide⟩
  have hrun : ((traceExport (.inside 0) "x" 0).run (starred beside [ext])).toOption.isSome = true := by cbv
  obtain ⟨⟨id, h⟩, hrun⟩ := Option.isSome_iff_exists.mp hrun
  have hrun := ok_of_toOption hrun
  refine ⟨hf, ⟨_, rfl, rfl, rfl, by decide, by decide⟩, ?_⟩
  rcases external_stars_last (by decide) hlist hrun with ⟨k, -, hk⟩ |
    ⟨path, k, e, -, hne, ⟨m, hm, -, hexports, -⟩, -⟩ | ⟨-, hnone⟩
  · exact ⟨id, h, k, hrun, hk⟩
  · rcases k with _ | _ | k
    · exact absurd rfl hne
    · cases hm
      cases hexports
    · cases hm
  · exact absurd ⟨_, _, rfl, rfl⟩ (hnone 1 (.single ⟨_, rfl, rfl, rfl, by decide, by decide⟩))

/-- The star export of the external module is that of a module that the first one passes on before the one that
has the name. -/
def nested : List (Module × Table Target) :=
  [passingOn "0" [("./1", .inside 1), ("./2", .inside 2)], passingOn "1" [("ext", .outside 0)], exporting "2" true]

def unsupported : List (Module × Table Target) :=
  [passingOn "0" [("./1", .inside 1), ("ext", .outside 0)], exporting "1" false]

theorem fetched_nested : Fetched nested [ext] := by
  refine fetched_stars fun e he => ?_
  simp only [nested, List.mem_cons, List.not_mem_nil, or_false] at he
  rcases he with rfl | rfl | rfl
  · exact .inr ⟨_, _, rfl, by decide⟩
  · exact .inr ⟨_, _, rfl, by decide⟩
  · exact .inl ⟨_, _, rfl⟩

theorem fetched_unsupported : Fetched unsupported [ext] := by
  refine fetched_stars fun e he => ?_
  simp only [unsupported, List.mem_cons, List.not_mem_nil, or_false] at he
  rcases he with rfl | rfl
  · exact .inr ⟨_, _, rfl, by decide⟩
  · exact .inl ⟨_, _, rfl⟩

/-- A name that a module exports can be traced to an external module nevertheless: if the star export of that is
found first, and if the name is not declared. -/
theorem external_star_found_first :
    (Fetched nested [ext] ∧ Passes (starred nested [ext]).routes 0 2 ∧
      (∃ m, (starred nested [ext]).routes[2]? = some m ∧ "x" ∈ m.own) ∧
      ∃ id h, (traceExport (.inside 0) "x" 0).run (starred nested [ext]) = .ok (id, h) ∧
        h.entity? id = some (.outside 0 "x") ∧ ∀ k, ¬Comes (starred nested [ext]) k "x" id h) ∧
    Fetched unsupported [ext] ∧ Passes (starred unsupported [ext]).routes 0 1 ∧
      (∃ m, (starred unsupported [ext]).routes[1]? = some m ∧ "x" ∈ m.own) ∧
      ∃ id h, (traceExport (.inside 0) "x" 0).run (starred unsupported [ext]) = .ok (id, h) ∧
        h.entity? id = some (.outside 0 "x") ∧ ∀ k, ¬Comes (starred unsupported [ext]) k "x" id h := by
  constructor
  · have hrun : ((traceExport (.inside 0) "x" 0).run (starred nested [ext])).toOption.bind
        (fun p => p.2.entity? p.1) = some (.outside 0 "x") := by cbv
    obtain ⟨⟨id, h⟩, hrun, hentity⟩ := Option.bind_eq_some_iff.mp hrun
    refine ⟨fetched_nested, ⟨_, rfl, by decide⟩, ⟨_, rfl, by decide⟩, id, h, ok_of_toOption hrun, hentity, ?_⟩
    rintro k ⟨m, lead, hm, hlead, hfollow⟩
    rcases k with _ | _ | _ | k
    · cases hm
      cases hlead
    · cases hm
      cases hlead
    · cases hm
      cases hlead
      cases hfollow
      cases hentity
    · cases hm
  · have hrun : ((traceExport (.inside 0) "x" 0).run (starred unsupported [ext])).toOption.bind
        (fun p => p.2.entity? p.1) = some (.outside 0 "x") := by cbv
    obtain ⟨⟨id, h⟩, hrun, hentity⟩ := Option.bind_eq_some_iff.mp hrun
    refine ⟨fetched_unsupported, ⟨_, rfl, by decide⟩, ⟨_, rfl, by decide⟩, id, h, ok_of_toOption hrun, hentity, ?_⟩
    rintro k ⟨m, lead, hm, hlead, -⟩
    rcases k with _ | _ | k
    · cases hm
      cases hlead
    · cases hm
      cases hlead
    · cases hm

end Graph

end Treeshake
