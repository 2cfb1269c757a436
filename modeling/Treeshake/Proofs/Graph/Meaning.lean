import Treeshake.Proofs.Graph.Trace
/-!
What names mean does not depend on when they are traced. Main statement: from two graphs with the same
tables, whatever was traced in them before, the same trace leads to declarations of the same thing.
-/
set_option autoImplicit false

namespace Treeshake.Graph

/-- Declarations of two graphs that are the same thing. -/
def Alike (g : Graph) (id : Nat) (h : Graph) (id' : Nat) : Prop :=
  ∃ e, g.entity? id = some e ∧ h.entity? id' = some e

def AlikeFound (g : Graph) (r : Option Nat) (h : Graph) (r' : Option Nat) : Prop :=
  match r, r' with
  | some id, some id' => Alike g id h id'
  | none, none => True
  | _, _ => False

def AlikeResult (g : Graph) (r : Option Nat × List Nat) (h : Graph) (r' : Option Nat × List Nat) : Prop :=
  AlikeFound g r.1 h r'.1 ∧ r.2 = r'.2

theorem AlikeResult.cases {g h : Graph} {r r' : Option Nat × List Nat} (hr : AlikeResult g r h r') :
    (∃ id id' visited, r = (some id, visited) ∧ r' = (some id', visited) ∧ Alike g id h id') ∨
      ∃ visited, r = (none, visited) ∧ r' = (none, visited) := by
  obtain ⟨found, visited⟩ := r
  obtain ⟨found', visited'⟩ := r'
  obtain ⟨hfound, rfl⟩ := hr
  cases found with
  | none =>
    cases found' with
    | none => exact .inr ⟨visited, rfl, rfl⟩
    | some id' => exact hfound.elim
  | some id =>
    cases found' with
    | none => exact hfound.elim
    | some id' => exact .inl ⟨id, id', visited, rfl, rfl, hfound⟩

/-- Where two steps both succeed, what they give is related. -/
def Agree (R : List Routes) (n : Nat) {α β : Type} (x : Build α) (y : Build β)
    (Q : Graph → α → Graph → β → Prop) : Prop :=
  ∀ g h a b g' h', Fits R n g → Fits R n h → x.run g = .ok (a, g') → y.run h = .ok (b, h') →
    Q g' a h' b

section
variable {R : List Routes} {n : Nat} {α β γ δ : Type}

theorem Agree.pure {a : α} {b : β} {Q : Graph → α → Graph → β → Prop}
    (hQ : ∀ g h, Fits R n g → Fits R n h → Q g a h b) : Agree R n (Pure.pure a) (Pure.pure b) Q := by
  intro g h a' b' g' h' hg hh hx hy
  obtain ⟨rfl, rfl⟩ := run_pure_ok.mp hx
  obtain ⟨rfl, rfl⟩ := run_pure_ok.mp hy
  exact hQ g h hg hh

theorem Agree.bind {x : Build α} {y : Build β} {f : α → Build γ} {f' : β → Build δ}
    {P : Graph → α → Graph → β → Prop} {Q : Graph → γ → Graph → δ → Prop}
    {S : Graph → α → Prop} {S' : Graph → β → Prop} (htx : Traces R n x S) (hty : Traces R n y S')
    (hxy : Agree R n x y P) (hf : ∀ g a h b, Fits R n g → Fits R n h → P g a h b →
      ∀ c d g' h', (f a).run g = .ok (c, g') → (f' b).run h = .ok (d, h') → Q g' c h' d) :
    Agree R n (x >>= f) (y >>= f') Q := by
  intro g h c d g' h' hg hh hx hy
  obtain ⟨a, k, hxa, hfa⟩ := run_bind_ok.mp hx
  obtain ⟨b, l, hyb, hfb⟩ := run_bind_ok.mp hy
  obtain ⟨t, -⟩ := htx g a k hg hxa
  obtain ⟨t', -⟩ := hty h b l hh hyb
  exact hf k a l b t.fits t'.fits (hxy g h a b k l hg hh hxa hyb) c d g' h' hfa hfb

theorem Agree.map {x : Build α} {y : Build β} {f : α → γ} {f' : β → δ}
    {P : Graph → α → Graph → β → Prop} {Q : Graph → γ → Graph → δ → Prop}
    {S : Graph → α → Prop} {S' : Graph → β → Prop} (htx : Traces R n x S) (hty : Traces R n y S')
    (hxy : Agree R n x y P) (hQ : ∀ g a h b, P g a h b → Q g (f a) h (f' b)) :
    Agree R n (do return f (← x)) (do return f' (← y)) Q :=
  Agree.bind htx hty hxy fun g a h b _ _ hab c d g' h' hc hd => by
    obtain ⟨rfl, rfl⟩ := run_pure_ok.mp hc
    obtain ⟨rfl, rfl⟩ := run_pure_ok.mp hd
    exact hQ g a h b hab

theorem Agree.of_entity {x y : Build Nat} {e : Entity}
    (hx : Traces R n x fun g id => g.entity? id = some e)
    (hy : Traces R n y fun g id => g.entity? id = some e) : Agree R n x y Alike := by
  intro g h a b g' h' hg hh hrx hry
  exact ⟨e, (hx g a g' hg hrx).2, (hy h b h' hh hry).2⟩

theorem Agree.congr {x x' : Build α} {y y' : Build β} {Q : Graph → α → Graph → β → Prop}
    (h : Agree R n x y Q) (hx : ∀ g : Graph, g.routes = R → x'.run g = x.run g)
    (hy : ∀ g : Graph, g.routes = R → y'.run g = y.run g) : Agree R n x' y' Q := by
  intro g k a b g' k' hg hk hrx hry
  exact h g k a b g' k' hg hk (hx g hg.routes ▸ hrx) (hy k hk.routes ▸ hry)

end

structure AgreeWithin (R : List Routes) (n fuel fuel' : Nat) : Prop where
  trace : ∀ module name,
    Agree R n (traceWithin fuel module name) (traceWithin fuel' module name) AlikeFound
  follow : ∀ target name importer importer', (∀ e, target = .outside e → e < n) →
    Agree R n (followWithin fuel target name importer) (followWithin fuel' target name importer') Alike
  export_ : ∀ module name importer importer',
    Agree R n (exportWithin fuel module name importer) (exportWithin fuel' module name importer') Alike
  find : ∀ module name visited,
    Agree R n (findExportWithin fuel module name visited) (findExportWithin fuel' module name visited)
      AlikeResult

section
variable {R : List Routes} {n fuel fuel' : Nat}

theorem agree_traceWithin (hR : Ranged R n) (h : AgreeWithin R n fuel fuel') (module : Nat)
    (name : String) : Agree R n (traceWithin (fuel + 1) module name)
      (traceWithin (fuel' + 1) module name) AlikeFound := by
  refine Agree.congr ?_ (fun g hg => hg ▸ traceWithin_eq g fuel module name)
    fun g hg => hg ▸ traceWithin_eq g fuel' module name
  split
  · exact Agree.pure fun _ _ _ _ => trivial
  · next m hm =>
    split
    · next id hd =>
      refine Agree.pure fun g k hg hk => ?_
      obtain ⟨d, hd₁, he₁, -⟩ := hg.sound.own module m name id (hg.routes.symm ▸ hm) (lookup_mem hd)
      obtain ⟨d', hd₂, he₂, -⟩ := hk.sound.own module m name id (hk.routes.symm ▸ hm) (lookup_mem hd)
      exact ⟨.own id, by rw [entity?, hd₁, Option.map_some, he₁], by rw [entity?, hd₂, Option.map_some, he₂]⟩
    · exact Agree.pure fun _ _ _ _ => trivial
    · next i _ _ =>
      split
      · exact Agree.pure fun _ _ _ _ => trivial
      · next target ht =>
        have hrange : ∀ e, target = .outside e → e < n :=
          fun e he => hR.outside m (List.mem_of_getElem? hm) _ e (he ▸ ht)
        exact Agree.map ((tracesWithin hR fuel).follow target i.name module hrange)
          ((tracesWithin hR fuel').follow target i.name module hrange)
          (h.follow target i.name module module hrange) fun _ _ _ _ h => h

theorem agree_followWithin (hR : Ranged R n) (h : AgreeWithin R n fuel fuel') (target : Target)
    (name : String) (importer importer' : Nat) (he : ∀ e, target = .outside e → e < n) :
    Agree R n (followWithin (fuel + 1) target name importer)
      (followWithin (fuel' + 1) target name importer') Alike := by
  cases target with
  | outside e =>
    rw [followWithin, followWithin]
    exact Agree.of_entity (traces_externalDeclaration (he e rfl) name)
      (traces_externalDeclaration (he e rfl) name)
  | inside k =>
    rw [followWithin, followWithin]
    split
    · exact Agree.of_entity ((tracesWithin hR fuel).object k) ((tracesWithin hR fuel').object k)
    · exact h.export_ k name importer importer'

theorem agree_exportWithin (hR : Ranged R n) (h : AgreeWithin R n fuel fuel') (module : Nat)
    (name : String) (importer importer' : Nat) :
    Agree R n (exportWithin (fuel + 1) module name importer)
      (exportWithin (fuel' + 1) module name importer') Alike := by
  rw [exportWithin, exportWithin]
  refine Agree.bind ((tracesWithin hR fuel).find module name [])
    ((tracesWithin hR fuel').find module name []) (h.find module name []) ?_
  intro g r k r' _ _ hrr c d g' k' hc hd
  rcases hrr.cases with ⟨id, id', visited, rfl, rfl, ha⟩ | ⟨visited, rfl, rfl⟩
  · obtain ⟨rfl, rfl⟩ := run_pure_ok.mp hc
    obtain ⟨rfl, rfl⟩ := run_pure_ok.mp hd
    exact ha
  · cases hc

theorem agree_seek {search search' : Nat → List Nat → Build (Option Nat × List Nat)}
    {S S' : Nat → Graph → Option Nat × List Nat → Prop} {stars : List Target}
    (hx : ∀ i visited, Traces R n (search i visited) (S i))
    (hy : ∀ i visited, Traces R n (search' i visited) (S' i))
    (hs : ∀ i visited, Agree R n (search i visited) (search' i visited) AlikeResult)
    (visited : List Nat) :
    Agree R n (seek search stars visited) (seek search' stars visited) AlikeResult := by
  induction stars generalizing visited with
  | nil => exact Agree.pure fun _ _ _ _ => ⟨trivial, rfl⟩
  | cons t stars ih =>
    cases t with
    | outside e => exact ih visited
    | inside i =>
      refine Agree.bind (hx i visited) (hy i visited) (hs i visited) ?_
      intro g r k r' hg hk hrr c d g' k' hc hd
      rcases hrr.cases with ⟨id, id', visited, rfl, rfl, ha⟩ | ⟨visited, rfl, rfl⟩
      · obtain ⟨rfl, rfl⟩ := run_pure_ok.mp hc
        obtain ⟨rfl, rfl⟩ := run_pure_ok.mp hd
        exact ⟨ha, rfl⟩
      · exact ih visited g k c d g' k' hg hk hc hd

theorem agree_outsideStar (hR : Ranged R n) {m : Routes} (hm : m ∈ R) (name : String)
    (visited : List Nat) :
    let step : Build (Option Nat × List Nat) :=
      match firstOutside? m.stars with
      | some external => do return (some (← externalDeclaration external name), visited)
      | none => return (none, visited)
    Agree R n step step AlikeResult := by
  dsimp only
  split
  · next e he =>
    have ht := traces_externalDeclaration (R := R) (hR.outside_star hm he) name
    exact Agree.map ht ht (Agree.of_entity ht ht) fun _ _ _ _ h => ⟨h, rfl⟩
  · exact Agree.pure fun _ _ _ _ => ⟨trivial, rfl⟩

theorem agree_findExportWithin (hR : Ranged R n) (h : AgreeWithin R n fuel fuel') (module : Nat)
    (name : String) (visited : List Nat) : Agree R n (findExportWithin (fuel + 1) module name visited)
      (findExportWithin (fuel' + 1) module name visited) AlikeResult := by
  refine Agree.congr ?_ (fun g hg => hg ▸ findExportWithin_eq g fuel module name visited)
    fun g hg => hg ▸ findExportWithin_eq g fuel' module name visited
  split
  · exact Agree.pure fun _ _ _ _ => ⟨trivial, rfl⟩
  · split
    · exact Agree.pure fun _ _ _ _ => ⟨trivial, rfl⟩
    · next m hm =>
      have hmem := List.mem_of_getElem? hm
      split
      · next r _ =>
        split
        · exact Agree.pure fun _ _ _ _ => ⟨trivial, rfl⟩
        · next target ht =>
          have hrange : ∀ e, target = .outside e → e < n := fun e he => hR.outside m hmem _ e (he ▸ ht)
          exact Agree.map ((tracesWithin hR fuel).follow target r.localName module hrange)
            ((tracesWithin hR fuel').follow target r.localName module hrange)
            (h.follow target r.localName module module hrange) fun _ _ _ _ h => ⟨h, rfl⟩
      · next e _ _ =>
        exact Agree.map ((tracesWithin hR fuel).trace module e.localName)
          ((tracesWithin hR fuel').trace module e.localName) (h.trace module e.localName)
          fun _ _ _ _ h => ⟨h, rfl⟩
      · split
        · exact Agree.pure fun _ _ _ _ => ⟨trivial, rfl⟩
        · refine Agree.bind (traces_stars hR (tracesWithin hR fuel) hm name (module :: visited))
            (traces_stars hR (tracesWithin hR fuel') hm name (module :: visited))
            (agree_seek (fun i v => (tracesWithin hR fuel).find i name v)
              (fun i v => (tracesWithin hR fuel').find i name v) (fun i v => h.find i name v) _) ?_
          intro g r k r' hg hk hrr c d g' k' hc hd
          rcases hrr.cases with ⟨id, id', visited, rfl, rfl, ha⟩ | ⟨visited, rfl, rfl⟩
          · obtain ⟨rfl, rfl⟩ := run_pure_ok.mp hc
            obtain ⟨rfl, rfl⟩ := run_pure_ok.mp hd
            exact ⟨ha, rfl⟩
          · exact agree_outsideStar hR hmem name visited g k c d g' k' hg hk hc hd

/-- Steps without fuel succeed nowhere, so they agree with all. -/
theorem agreeWithin (hR : Ranged R n) (fuel fuel' : Nat) : AgreeWithin R n fuel fuel' := by
  induction fuel generalizing fuel' with
  | zero =>
    constructor
    · intro module name g h a b g' h' _ _ hx
      rw [traceWithin] at hx
      cases hx
    · intro target name importer importer' _ g h a b g' h' _ _ hx
      rw [followWithin] at hx
      cases hx
    · intro module name importer importer' g h a b g' h' _ _ hx
      rw [exportWithin] at hx
      cases hx
    · intro module name visited g h a b g' h' _ _ hx
      rw [findExportWithin] at hx
      cases hx
  | succ fuel ih =>
    cases fuel' with
    | zero =>
      constructor
      · intro module name g h a b g' h' _ _ _ hy
        rw [traceWithin] at hy
        cases hy
      · intro target name importer importer' _ g h a b g' h' _ _ _ hy
        rw [followWithin] at hy
        cases hy
      · intro module name importer importer' g h a b g' h' _ _ _ hy
        rw [exportWithin] at hy
        cases hy
      · intro module name visited g h a b g' h' _ _ _ hy
        rw [findExportWithin] at hy
        cases hy
    | succ fuel' =>
      exact ⟨agree_traceWithin hR (ih fuel'), agree_followWithin hR (ih fuel'),
        agree_exportWithin hR (ih fuel'), agree_findExportWithin hR (ih fuel')⟩

theorem agree_trace (hR : Ranged R n) (module : Nat) (name : String) :
    Agree R n (trace module name) (trace module name) AlikeFound :=
  fun g h a b g' h' hg hh hx hy => (agreeWithin hR g.traceBound h.traceBound).trace module name
    g h a b g' h' hg hh hx hy

theorem agree_traceExport (hR : Ranged R n) (module : Nat) (name : String) (importer : Nat) :
    Agree R n (traceExport (.inside module) name importer) (traceExport (.inside module) name importer)
      Alike :=
  fun g h a b g' h' hg hh hx hy => (agreeWithin hR g.traceBound h.traceBound).export_ module name
    importer importer g h a b g' h' hg hh hx hy

theorem Settles.alike (hR : Ranged R n) {g h : Graph} (hg : Fits R n g) (hh : Fits R n h)
    {module id id' : Nat} {name : String} (hs : Settles g module name id)
    (hs' : Settles h module name id') : Alike g id h id' := by
  obtain ⟨fuel, hrun⟩ := hs
  obtain ⟨fuel', hrun'⟩ := hs'
  exact (agreeWithin hR fuel fuel').export_ module name module module g h id id' g h hg hh
    (hrun g (.refl g)) (hrun' h (.refl h))

theorem members_alike (hR : Ranged R n) {g h : Graph} (hg : Fits R n g) (hh : Fits R n h)
    (hcg : Complete [] g) (hch : Complete [] h) {id id' i k : Nat} {members members' : Table Nat}
    {v v' : Bool} {d d' : Declaration} (hd : g.declarations[id]? = some d)
    (hkind : d.kind = .object i members v) (hd' : h.declarations[id']? = some d')
    (hkind' : d'.kind = .object i members' v') (hk : k ∈ members.values) :
    ∃ k' ∈ members'.values, Alike g k h k' := by
  obtain ⟨hnames, hmembers⟩ := hcg id d i members v hd hkind List.not_mem_nil
  obtain ⟨hnames', hmembers'⟩ := hch id' d' i members' v' hd' hkind' List.not_mem_nil
  obtain ⟨⟨name, k⟩, hmem, rfl⟩ := List.mem_map.mp hk
  have hname : name ∈ members'.map (·.1) := by
    rw [hnames', exportNames_congr (hh.routes.trans hg.routes.symm), ← hnames]
    exact List.mem_map_of_mem hmem
  obtain ⟨⟨name', k'⟩, hmem', rfl⟩ := List.mem_map.mp hname
  exact ⟨k', List.mem_map_of_mem hmem', (hmembers _ k hmem).alike hR hg hh (hmembers' _ k' hmem')⟩

end

end Treeshake.Graph
