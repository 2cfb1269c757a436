import Treeshake.Proofs.Fetch.Graph
import Treeshake.Proofs.Graph.Local
import Treeshake.Proofs.Module.Parsed
/-!
What the modules that an entry leads to have in common. Main statement: if the trees of their texts are proper, their
texts are divided among their statements, and their references are plain.
-/
set_option autoImplicit false

namespace Treeshake

namespace Node

variable {code : List Char} {n : Node} {r : Reference}

theorem Tells.plain (hn : n.Nested code) (hs : n.Spelled code) (h : n.Tells code r) : r.Plain := by
  cases h with
  | name m hm hname hr =>
    refine ⟨?_, ?_⟩
    · rw [hr.name]
      exact (hs.name m hm hname).2
    · rw [hr.accesses]
      exact List.forall_mem_nil _
  | chain e root accesses he hchain hr =>
    obtain ⟨hroot, hkind, -⟩ := chain_nodes hchain
    refine ⟨?_, ?_⟩
    · rw [hr.name]
      exact (hs.name root (nodes_trans he hroot) (isName_of_identifier hkind)).2
    · rw [hr.accesses, hr.start]
      exact chain_plain (hn.node he).1 (hs.node he) hchain

end Node

theorem Module.plain_parse {grammar : Grammar} {id : String} {source : Source} {m : Module}
    (htree : ∀ tree, treeOf grammar id source = .ok tree → tree.Proper source.code.toList)
    (h : parse grammar id source = .ok m) : ∀ s ∈ m.statements, ∀ r ∈ s.references, r.Plain := by
  obtain ⟨tree, hparsed, hread⟩ := read_parse h
  have hproper := htree tree hparsed
  exact fun s hs r hr => ((hread s hs).2 r hr).plain hproper.nested hproper.spelled

open Treeshake.Graph in
theorem fetched_fetchGraph {grammar : Grammar} {p : Pipeline} {entry : String} {g : Graph} {P : Module → Prop}
    (hP : ∀ id source m, p.fetch id = .ok source → Module.parse grammar id source = .ok m → P m)
    (hfetch : fetchGraph grammar p entry = .ok g) :
    ∃ modules externals, Fetched modules externals ∧ (∀ e ∈ modules, P e.1) ∧ g = ofModules modules externals := by
  obtain ⟨id, f, hrun, rfl⟩ := fetchGraph_eq_ok hfetch
  have harrived : ∀ e ∈ f.modules, P e.1 := Fetching.forall_arrived hP hrun
  obtain ⟨-, hcanonical⟩ := Fetching.canonical_spec f f.order [] f.order (List.forall_mem_nil _)
  refine ⟨_, _, Fetching.fetched_canonical (Fetching.fresh_run hrun), fun e he => ?_, rfl⟩
  obtain ⟨⟨e', he', heq⟩, -⟩ := hcanonical e he
  exact heq ▸ harrived e' he'

open Treeshake.Graph in
/-- The modules that an entry leads to are laid out and have plain references, if the trees of their texts are
proper. -/
theorem proper_fetchGraph {grammar : Grammar} {p : Pipeline} {entry : String} {g : Graph}
    (htrees : ∀ id source tree, p.fetch id = .ok source → Module.treeOf grammar id source = .ok tree →
      tree.Proper source.code.toList) (hfetch : fetchGraph grammar p entry = .ok g) :
    ∃ modules externals, Fetched modules externals ∧ LaidModules modules ∧ PlainModules modules ∧
      g = ofModules modules externals := by
  have hparsed : ∀ id source m, p.fetch id = .ok source → Module.parse grammar id source = .ok m →
      m.LaidOut ∧ ∀ s ∈ m.statements, ∀ r ∈ s.references, r.Plain := fun id source m hsource hm =>
    ⟨Module.laidOut_parse (fun tree => htrees id source tree hsource) hm,
      Module.plain_parse (fun tree => htrees id source tree hsource) hm⟩
  obtain ⟨modules, externals, hfetched, hmodules, rfl⟩ := fetched_fetchGraph hparsed hfetch
  exact ⟨modules, externals, hfetched, fun e he => (hmodules e he).1, fun e he => (hmodules e he).2, rfl⟩

end Treeshake
