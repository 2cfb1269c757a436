import Treeshake.Proofs.Fallible
import Treeshake.Proofs.SourceMap.Mappings
import Treeshake.SourceMap.Collapse
/-!
Collapsing a map. A place is followed through the maps of a chain from the last on, so following it through
the later maps and then through the earlier ones is following it through all. Main statement: collapsing a
map through the later maps of its chains, and what that gives through the earlier ones, succeeds if and only
if collapsing it through the whole chains does, and with the same map.
-/
set_option autoImplicit false

namespace Treeshake.SourceMap

theorem decodeLines_ne_nil {k : Cursor} {ws : List (List Char)} {lines : Lines} (hne : ws ≠ [])
    (h : decodeLines k ws = .ok lines) : lines ≠ [] := by
  cases ws with
  | nil => exact absurd rfl hne
  | cons w ws =>
    obtain ⟨p, -, h⟩ := bind_eq_ok.mp h
    obtain ⟨rest, -, h⟩ := bind_eq_ok.mp h
    rw [← Except.ok.inj h]
    exact List.cons_ne_nil _ _

theorem decoded_ne_nil {m : SourceMap} {lines : Lines} (h : m.decoded = .ok lines) : lines ≠ [] :=
  decodeLines_ne_nil (Text.splitBy_ne_nil _ _) h

theorem decoded_encodeMappings {m : SourceMap} {lines : Lines} (hm : m.mappings = encodeMappings lines)
    (hne : lines ≠ []) : m.decoded = .ok lines := by
  rw [SourceMap.decoded, hm]
  exact decodeMappings_encodeMappings lines hne

def andThen {α β : Type} (next : α → Except Fault (Option β)) : Option α → Except Fault (Option β)
  | none => .ok none
  | some a => next a

theorem placeThrough_cons (lines : Lines) (rest : List Lines) (at_ : UInt32 × UInt32) :
    placeThrough (lines :: rest) at_ = place lines at_ >>= andThen (placeThrough rest) := by
  rw [placeThrough]
  refine congrArg _ (funext fun found => ?_)
  cases found <;> rfl

theorem placeThrough_append (late early : List Lines) (at_ : UInt32 × UInt32) :
    placeThrough (late ++ early) at_ = placeThrough late at_ >>= andThen (placeThrough early) := by
  induction late generalizing at_ with
  | nil => rfl
  | cons lines late ih =>
    rw [List.cons_append, placeThrough_cons, placeThrough_cons, bind_assoc]
    refine congrArg _ (funext fun found => ?_)
    cases found with
    | none => rfl
    | some next => exact ih next

/-- A segment followed through the whole chains is followed through the later parts first. -/
theorem through_append {early late : List (List Lines)} (hlength : early.length = late.length)
    (s : Segment) : s.through (List.zipWith (· ++ ·) early late) =
      s.through late >>= andThen (Segment.through early) := by
  rw [Segment.through, Segment.through, List.getElem?_zipWith]
  cases hlate : late[s.source.toNat]? with
  | none =>
    have hearly : early[s.source.toNat]? = none := by
      rw [List.getElem?_eq_none_iff] at hlate ⊢
      omega
    rw [hearly]
    rfl
  | some y =>
    have hlt : s.source.toNat < early.length := hlength ▸ (List.getElem?_eq_some_iff.mp hlate).1
    have hearly := List.getElem?_eq_getElem hlt
    rw [hearly]
    -- chains are searched from the end, so the later part comes first
    simp only [List.reverse_append, placeThrough_append, bind_assoc, pure_bind]
    refine congrArg _ (funext fun found => ?_)
    cases found with
    | none => rfl
    | some at_ =>
      simp only [Option.map_some, andThen, Segment.through, hearly]

def throughLine (chains : List (List Lines)) (line : List Segment) : Except Fault (List Segment) := do
  return (← line.mapM (Segment.through chains)).filterMap id

theorem throughLine_cons {chains : List (List Lines)} {s : Segment} {line out : List Segment} :
    throughLine chains (s :: line) = .ok out ↔ ∃ found rest, s.through chains = .ok found ∧
      throughLine chains line = .ok rest ∧ out = found.toList ++ rest := by
  simp only [throughLine, List.mapM_cons, bind_assoc, pure_bind, bind_eq_ok]
  constructor
  · rintro ⟨found, hs, founds, hline, h⟩
    refine ⟨found, _, hs, ⟨founds, hline, rfl⟩, ?_⟩
    rw [← Except.ok.inj h]
    cases found <;> rfl
  · rintro ⟨found, rest, hs, ⟨founds, hline, h⟩, rfl⟩
    refine ⟨found, hs, founds, hline, ?_⟩
    rw [← Except.ok.inj h]
    cases found <;> rfl

theorem throughLine_append {early late : List (List Lines)} (hlength : early.length = late.length)
    {line out : List Segment} : throughLine (List.zipWith (· ++ ·) early late) line = .ok out ↔
      ∃ mid, throughLine late line = .ok mid ∧ throughLine early mid = .ok out := by
  induction line generalizing out with
  | nil =>
    constructor
    · rintro h
      exact ⟨[], rfl, h⟩
    · rintro ⟨mid, hmid, h⟩
      obtain rfl := Except.ok.inj hmid
      exact h
  | cons s line ih =>
    rw [throughLine_cons, through_append hlength]
    constructor
    · rintro ⟨found, rest, hs, hline, rfl⟩
      obtain ⟨between, hlate, hearly⟩ := bind_eq_ok.mp hs
      obtain ⟨mid, hmid, hrest⟩ := ih.mp hline
      refine ⟨between.toList ++ mid, throughLine_cons.mpr ⟨between, mid, hlate, hmid, rfl⟩, ?_⟩
      cases between with
      | none =>
        obtain rfl := Except.ok.inj hearly
        exact hrest
      | some t => exact throughLine_cons.mpr ⟨found, rest, hearly, hrest, rfl⟩
    · rintro ⟨mid, hlate, hearly⟩
      obtain ⟨between, mids, hs, hline, rfl⟩ := throughLine_cons.mp hlate
      cases between with
      | none => exact ⟨none, out, bind_eq_ok.mpr ⟨none, hs, rfl⟩, ih.mpr ⟨mids, hline, hearly⟩, rfl⟩
      | some t =>
        obtain ⟨found, rest, ht, hrest, rfl⟩ := throughLine_cons.mp hearly
        exact ⟨found, rest, bind_eq_ok.mpr ⟨some t, hs, ht⟩, ih.mpr ⟨mids, hline, hrest⟩, rfl⟩

/-- What collapsing does: all maps of the chains and the map itself are read, every line is followed, and
the lines that this gives are written. -/
theorem collapse_eq_ok {m r : SourceMap} {chains : List Chain} : m.collapse chains = .ok r ↔
    ∃ decoded lines out, chains.mapM Chain.decoded = .ok decoded ∧ m.decoded = .ok lines ∧
      List.Forall₂ (fun line o => throughLine decoded line = .ok o) lines out ∧
      r = { m with
        sourcesContent := chains.map fun c => some c.code
        names := []
        mappings := encodeMappings out } := by
  rw [collapse, bind_eq_ok]
  refine exists_congr fun decoded => ?_
  constructor
  · rintro ⟨hdecoded, h⟩
    obtain ⟨lines, hm, h⟩ := bind_eq_ok.mp h
    obtain ⟨out, hout, h⟩ := bind_eq_ok.mp h
    exact ⟨lines, out, hdecoded, hm, mapM_eq_ok.mp hout, (Except.ok.inj h).symm⟩
  · rintro ⟨lines, out, hdecoded, hm, hout, rfl⟩
    exact ⟨hdecoded, bind_eq_ok.mpr ⟨lines, hm, bind_eq_ok.mpr ⟨out, mapM_eq_ok.mpr hout, rfl⟩⟩⟩

/-- A chain in two parts: the maps that were made first and those that were made later, the text before all
of them, and the text between the two parts. -/
structure Relay where
  early : List (Option SourceMap)
  late : List (Option SourceMap)
  code : String
  between : String

namespace Relay

def whole (r : Relay) : Chain := ⟨r.early ++ r.late, r.code⟩

def first (r : Relay) : Chain := ⟨r.early, r.code⟩

def second (r : Relay) : Chain := ⟨r.late, r.between⟩

theorem decoded_whole {r : Relay} {decoded : List Lines} : r.whole.decoded = .ok decoded ↔
    ∃ x y, r.first.decoded = .ok x ∧ r.second.decoded = .ok y ∧ decoded = x ++ y := by
  simp only [Chain.decoded, whole, first, second, List.mapM_append, bind_eq_ok]
  constructor
  · rintro ⟨x, hx, y, hy, h⟩
    exact ⟨x, y, hx, hy, (Except.ok.inj h).symm⟩
  · rintro ⟨x, y, hx, hy, rfl⟩
    exact ⟨x, hx, y, hy, rfl⟩

theorem decoded_wholes {relays : List Relay} {decoded : List (List Lines)} :
    (relays.map whole).mapM Chain.decoded = .ok decoded ↔
      ∃ early late, (relays.map first).mapM Chain.decoded = .ok early ∧
        (relays.map second).mapM Chain.decoded = .ok late ∧ early.length = late.length ∧
        decoded = List.zipWith (· ++ ·) early late := by
  simp only [mapM_eq_ok, List.forall₂_map_left_iff, decoded_whole]
  constructor
  · intro h
    induction h with
    | nil => exact ⟨[], [], .nil, .nil, rfl, rfl⟩
    | cons hr _ ih =>
      obtain ⟨x, y, hx, hy, rfl⟩ := hr
      obtain ⟨early, late, hearly, hlate, hlength, rfl⟩ := ih
      exact ⟨x :: early, y :: late, .cons hx hearly, .cons hy hlate, congrArg (· + 1) hlength, rfl⟩
  · rintro ⟨early, late, hearly, hlate, -, rfl⟩
    induction hearly generalizing late with
    | nil =>
      cases hlate
      exact .nil
    | cons hx _ ih =>
      cases hlate with
      | cons hy hlate => exact .cons ⟨_, _, hx, hy, rfl⟩ (ih _ hlate)

end Relay

theorem collapse_composes (m : SourceMap) (relays : List Relay) (r : SourceMap) :
    m.collapse (relays.map Relay.whole) = .ok r ↔
      ∃ m', m.collapse (relays.map Relay.second) = .ok m' ∧
        m'.collapse (relays.map Relay.first) = .ok r := by
  have hcontent : ∀ part : Relay → Chain, (∀ c, (part c).code = c.code) →
      (relays.map part).map (fun c => some c.code) = relays.map fun c => some c.code := by
    intro part hpart
    rw [List.map_map]
    exact List.map_congr_left fun c _ => congrArg some (hpart c)
  simp only [collapse_eq_ok, hcontent Relay.whole fun _ => rfl, hcontent Relay.first fun _ => rfl]
  constructor
  · rintro ⟨decoded, lines, out, hdecoded, hm, hout, rfl⟩
    obtain ⟨early, late, hearly, hlate, hlength, rfl⟩ := Relay.decoded_wholes.mp hdecoded
    simp only [throughLine_append hlength] at hout
    obtain ⟨mid, hmid, hout⟩ := forall₂_comp.mp hout
    refine ⟨_, ⟨late, lines, mid, hlate, hm, hmid, rfl⟩, early, mid, out, hearly, ?_, hout, rfl⟩
    refine decoded_encodeMappings rfl fun hnil => decoded_ne_nil hm ?_
    exact List.length_eq_zero_iff.mp (hmid.length_eq.trans (congrArg List.length hnil))
  · rintro ⟨m', ⟨late, lines, mid, hlate, hm, hmid, rfl⟩, early, lines', out, hearly, hm', hout, rfl⟩
    have hne : mid ≠ [] := fun hnil => decoded_ne_nil hm
      (List.length_eq_zero_iff.mp (hmid.length_eq.trans (congrArg List.length hnil)))
    obtain rfl := Except.ok.inj ((decoded_encodeMappings rfl hne).symm.trans hm')
    have hlength : early.length = late.length := by
      have h₁ := (mapM_eq_ok.mp hearly).length_eq
      have h₂ := (mapM_eq_ok.mp hlate).length_eq
      rw [List.length_map] at h₁ h₂
      exact h₁.symm.trans h₂
    refine ⟨_, lines, out, Relay.decoded_wholes.mpr ⟨early, late, hearly, hlate, hlength, rfl⟩, hm, ?_, rfl⟩
    simp only [throughLine_append hlength]
    exact forall₂_comp.mpr ⟨mid, hmid, hout⟩

end Treeshake.SourceMap
