import Treeshake.Proofs.Draft.Places
import Treeshake.Proofs.Fallible
/-!
Edits that stay within a stretch of a draft. Main statement: edits whose offsets lie within a range of the first
text change the stretch of cells that is between what comes from before the range and what comes from behind it, in
a way that depends on the stretch alone, and nothing else.
-/
set_option autoImplicit false

namespace Treeshake

namespace Cell

variable {p : Cell → Bool} {a b : List Cell}

theorem upTo_append_of_none (ha : ∀ c ∈ a, p c = false) : upTo p (a ++ b) = a ++ upTo p b :=
  List.takeWhile_append_of_pos (by simpa using ha)

theorem since_append_of_none (ha : ∀ c ∈ a, p c = false) : since p (a ++ b) = since p b :=
  List.dropWhile_append_of_pos (by simpa using ha)

theorem upTo_append_of_any (ha : a.any p = true) : upTo p (a ++ b) = upTo p a := by
  obtain ⟨x, c, y, rfl, hx, hc⟩ := exists_first ha
  rw [List.append_assoc, List.cons_append, upTo_eq hx hc, upTo_eq hx hc]

theorem since_append_of_any (ha : a.any p = true) : since p (a ++ b) = since p a ++ b := by
  obtain ⟨x, c, y, rfl, hx, hc⟩ := exists_first ha
  rw [List.append_assoc, List.cons_append, since_eq hx hc, since_eq hx hc, List.cons_append]

theorem behind_append_of_none (hb : ∀ c ∈ b, p c = false) : behind p (a ++ b) = behind p a ++ b := by
  have hb' : ∀ c ∈ b.reverse, p c = false := fun c hc => hb c (List.mem_reverse.mp hc)
  have h := upTo_append_of_none (b := a.reverse) hb'
  rw [upTo] at h
  rw [behind, List.reverse_append, h, List.reverse_append, List.reverse_reverse]
  rfl

theorem behind_append_of_any (hb : b.any p = true) : behind p (a ++ b) = behind p b := by
  obtain ⟨x, c, y, rfl, hc, hy⟩ := exists_last hb
  rw [← List.append_assoc, behind_eq hy hc, behind_eq hy hc]

theorem any_append_of_none_behind (hb : ∀ c ∈ b, p c = false) : (a ++ b).any p = a.any p := by
  have hnone : b.any p = false := List.any_eq_false.mpr fun c hc => Bool.eq_false_iff.mp (hb c hc)
  rw [List.any_append, hnone, Bool.or_false]

theorem behind_of_all (ha : ∀ c ∈ a, p c = true) : behind p a = [] := by
  rw [behind, List.reverse_eq_nil_iff]
  cases hr : a.reverse with
  | nil => rfl
  | cons c _ =>
    have hc : c ∈ a := List.mem_reverse.mp (hr ▸ List.mem_cons_self)
    rw [List.takeWhile_cons, if_neg (by rw [ha c hc]; exact Bool.false_ne_true)]

def EndBy (stop : Nat) (cells : List Cell) : Prop :=
  ∀ c ∈ cells, ∀ o, c.origin = some o → o + c.char.utf8Size ≤ stop

def StartFrom (start : Nat) (cells : List Cell) : Prop := ∀ c ∈ cells, ∀ o, c.origin = some o → start ≤ o

/-- The cells all come from the first text, from an offset on, in its order. -/
structure ComeFrom (start length : Nat) (cells : List Cell) : Prop where
  origin : ∀ c ∈ cells, ∃ o, c.origin = some o ∧ start ≤ o ∧ o < length
  sorted : cells.Pairwise Precedes

variable {start stop length offset : Nat}

theorem EndBy.covers (ha : EndBy start a) (h : start ≤ offset) : ∀ c ∈ a, c.covers offset = false := by
  intro c hc
  refine Bool.eq_false_iff.mpr fun hcov => ?_
  obtain ⟨o, ho, -, hlt⟩ := covers_iff.mp hcov
  have := ha c hc o ho
  omega

theorem EndBy.within (ha : EndBy start a) (h : start ≤ offset) (stop : Nat) :
    ∀ c ∈ a, c.within offset stop = false := by
  intro c hc
  refine Bool.eq_false_iff.mpr fun hin => ?_
  obtain ⟨o, ho, hle, -⟩ := within_iff.mp hin
  have := ha c hc o ho
  have := c.char.utf8Size_pos
  omega

theorem EndBy.append (ha : EndBy stop a) (hb : EndBy stop b) : EndBy stop (a ++ b) :=
  fun c hc => (List.mem_append.mp hc).elim (ha c) (hb c)

theorem EndBy.mono (ha : EndBy start a) (h : start ≤ stop) : EndBy stop a :=
  fun c hc o ho => Nat.le_trans (ha c hc o ho) h

theorem StartFrom.covers (hb : StartFrom stop b) (h : offset < stop) : ∀ c ∈ b, c.covers offset = false := by
  intro c hc
  refine Bool.eq_false_iff.mpr fun hcov => ?_
  obtain ⟨o, ho, hle, -⟩ := covers_iff.mp hcov
  have := hb c hc o ho
  omega

theorem endBy_fresh (text : List Char) : EndBy stop (fresh text) := by
  intro c hc o ho
  obtain ⟨x, -, rfl⟩ := List.mem_map.mp hc
  cases ho

theorem startFrom_fresh (text : List Char) : StartFrom start (fresh text) := by
  intro c hc o ho
  obtain ⟨x, -, rfl⟩ := List.mem_map.mp hc
  cases ho

theorem startFrom_settled (text : List Char) : StartFrom start (settled start text) := by
  intro c hc o ho
  obtain ⟨x, y, rfl, horigin⟩ := mem_settled hc
  obtain rfl := Option.some.inj (ho.symm.trans horigin)
  exact Nat.le_add_right ..

theorem StartFrom.append (ha : StartFrom start a) (hb : StartFrom start b) : StartFrom start (a ++ b) :=
  fun c hc => (List.mem_append.mp hc).elim (ha c) (hb c)

theorem StartFrom.mono (hb : StartFrom stop b) (h : start ≤ stop) : StartFrom start b :=
  fun c hc o ho => Nat.le_trans h (hb c hc o ho)

theorem StartFrom.within (hb : StartFrom stop b) (h : offset ≤ stop) (first : Nat) :
    ∀ c ∈ b, c.within first offset = false := by
  intro c hc
  refine Bool.eq_false_iff.mpr fun hin => ?_
  obtain ⟨o, ho, -, hlt⟩ := within_iff.mp hin
  have := hb c hc o ho
  omega

theorem endBy_settled (text : List Char) : EndBy (start + Text.size text) (settled start text) := by
  intro c hc o ho
  obtain ⟨x, y, rfl, horigin⟩ := mem_settled hc
  obtain rfl := Option.some.inj (ho.symm.trans horigin)
  rw [Text.size_append, Text.size]
  omega

theorem settled_append (offset : Nat) (x y : List Char) :
    settled offset (x ++ y) = settled offset x ++ settled (offset + Text.size x) y := by
  induction x generalizing offset with
  | nil => rfl
  | cons c x ih => rw [List.cons_append, settled, settled, ih, Text.size, Nat.add_assoc, List.cons_append]

theorem settled_first {name : List Char} (hname : name ≠ []) (start : Nat) :
    ∃ c rest, settled start name = c :: rest ∧ c.origin = some start := by
  obtain ⟨c, cs, rfl⟩ := List.exists_cons_of_ne_nil hname
  exact ⟨⟨c, some start⟩, settled (start + c.utf8Size) cs, rfl, rfl⟩

theorem settled_last {name : List Char} (hname : name ≠ []) (start : Nat) :
    ∃ x e, name = x ++ [e.char] ∧ settled start name = settled start x ++ [e] ∧
      e.origin = some (start + Text.size x) := by
  obtain ⟨x, e, hlast⟩ := (List.eq_nil_or_concat name).resolve_left hname
  refine ⟨x, ⟨e, some (start + Text.size x)⟩, by rw [hlast, List.concat_eq_append], ?_, rfl⟩
  rw [hlast, List.concat_eq_append, settled_append]
  rfl

theorem within_of_le {c : Cell} (h : stop ≤ start) : c.within start stop = false := by
  refine Bool.eq_false_iff.mpr fun hin => ?_
  obtain ⟨o, -, hle, hlt⟩ := within_iff.mp hin
  omega

theorem covers_origin {c : Cell} {k : Nat} (ho : c.origin = some start) (hk : k < c.char.utf8Size) :
    c.covers (start + k) = true :=
  covers_iff.mpr ⟨start, ho, Nat.le_add_right .., Nat.add_lt_add_left hk start⟩

theorem ComeFrom.covers (hb : ComeFrom stop length b) (h : offset < stop) :
    ∀ c ∈ b, c.covers offset = false := by
  intro c hc
  refine Bool.eq_false_iff.mpr fun hcov => ?_
  obtain ⟨o, ho, hle, -⟩ := covers_iff.mp hcov
  obtain ⟨o', ho', hle', -⟩ := hb.origin c hc
  obtain rfl := Option.some.inj (ho.symm.trans ho')
  omega

theorem ComeFrom.within (hb : ComeFrom stop length b) (h : offset ≤ stop) (start : Nat) :
    ∀ c ∈ b, c.within start offset = false := by
  intro c hc
  refine Bool.eq_false_iff.mpr fun hin => ?_
  obtain ⟨o, ho, -, hlt⟩ := within_iff.mp hin
  obtain ⟨o', ho', hle', -⟩ := hb.origin c hc
  obtain rfl := Option.some.inj (ho.symm.trans ho')
  omega

theorem ComeFrom.upTo_eq_nil (hb : ComeFrom stop length b) (h : b.any (·.covers stop) = true) :
    upTo (·.covers stop) b = [] ∧ since (·.covers stop) b = b := by
  obtain ⟨x, c, y, rfl, hx, hc⟩ := exists_first h
  rw [upTo_eq hx hc, since_eq hx hc]
  cases x with
  | nil => exact ⟨rfl, rfl⟩
  | cons d x =>
    obtain ⟨o, ho, hle, -⟩ := hb.origin d List.mem_cons_self
    obtain ⟨o', ho', hle', -⟩ := covers_iff.mp hc
    have hprecedes := (List.pairwise_cons.mp hb.sorted).1 c (by simp) o o' ho ho'
    have := d.char.utf8Size_pos
    omega

end Cell

namespace Edit

/-- Whether the offsets of an edit lie within a range, so that it changes nothing outside. -/
def Inside (start stop : Nat) : Edit → Prop
  | .insert offset _ => start ≤ offset ∧ offset ≤ stop
  | .overwrite first last _ _ | .remove first last => start ≤ first ∧ last ≤ stop
  | .anchor _ | .protect _ _ => True
  | _ => False

/-- What an edit makes of a stretch of cells that comes from a range up to an offset. -/
def cut (stop : Nat) (cells : List Cell) : Edit → List Cell
  | .insert offset text =>
    if offset = stop then cells ++ Cell.fresh text.toList
    else Cell.upTo (·.covers offset) cells ++ Cell.fresh text.toList ++ Cell.since (·.covers offset) cells
  | .overwrite first last text _ =>
    if first < last ∧ cells.any (·.covers first) = true ∧ cells.any (·.covers (last - 1)) = true then
      Cell.upTo (·.covers first) cells ++ Cell.fresh text.toList ++ Cell.behind (·.covers (last - 1)) cells
    else cells
  | .remove first last =>
    if cells.any (·.within first last) then
      Cell.upTo (·.within first last) cells ++ Cell.behind (·.within first last) cells
    else cells
  | _ => cells

def cuts (stop : Nat) (cells : List Cell) (es : List Edit) : List Cell :=
  es.foldl (fun cells e => e.cut stop cells) cells

variable {start stop : Nat} {cells : List Cell}

theorem mem_cut {e : Edit} {c : Cell} (hc : c ∈ e.cut stop cells) (ho : c.origin.isSome = true) : c ∈ cells := by
  have hfresh : ∀ text, c ∉ Cell.fresh text := by
    intro text hmem
    obtain ⟨x, -, rfl⟩ := List.mem_map.mp hmem
    cases ho
  have hupTo : ∀ p, c ∈ Cell.upTo p cells → c ∈ cells := fun p h => (List.takeWhile_sublist _).subset h
  have hsince : ∀ p, c ∈ Cell.since p cells → c ∈ cells := fun p h => (List.dropWhile_sublist _).subset h
  have hbehind : ∀ p, c ∈ Cell.behind p cells → c ∈ cells := fun p h =>
    List.mem_reverse.mp ((List.takeWhile_sublist _).subset (List.mem_reverse.mp h))
  cases e with
  | insert offset text =>
    rw [cut] at hc
    split at hc
    · exact (List.mem_append.mp hc).resolve_right (hfresh _)
    · rcases List.mem_append.mp hc with hc | hc
      · exact hupTo _ ((List.mem_append.mp hc).resolve_right (hfresh _))
      · exact hsince _ hc
  | overwrite first last text storeName =>
    rw [cut] at hc
    split at hc
    · rcases List.mem_append.mp hc with hc | hc
      · exact hupTo _ ((List.mem_append.mp hc).resolve_right (hfresh _))
      · exact hbehind _ hc
    · exact hc
  | remove first last =>
    rw [cut] at hc
    split at hc
    · exact (List.mem_append.mp hc).elim (hupTo _) (hbehind _)
    · exact hc
  | _ => exact hc

theorem mem_cuts {es : List Edit} {c : Cell} (hc : c ∈ cuts stop cells es) (ho : c.origin.isSome = true) :
    c ∈ cells := by
  induction es generalizing cells with
  | nil => exact hc
  | cons e es ih => exact mem_cut (ih hc) ho

theorem endBy_cuts {es : List Edit} {offset : Nat} (h : Cell.EndBy offset cells) :
    Cell.EndBy offset (cuts stop cells es) :=
  fun c hc o ho => h c (mem_cuts hc (by rw [ho]; rfl)) o ho

theorem cuts_append (stop : Nat) (cells : List Cell) (es fs : List Edit) :
    cuts stop cells (es ++ fs) = cuts stop (cuts stop cells es) fs := List.foldl_append ..

variable {a : List Cell}

theorem any_append_of_none {p : Cell → Bool} (ha : ∀ c ∈ a, p c = false) (cells : List Cell) :
    (a ++ cells).any p = cells.any p := by
  have hnone : a.any p = false := List.any_eq_false.mpr fun c hc => by rw [ha c hc]; exact Bool.false_ne_true
  rw [List.any_append, hnone, Bool.false_or]

theorem cut_behind {e : Edit} (ha : Cell.EndBy start a) (hinside : e.Inside start stop) :
    e.cut stop (a ++ cells) = a ++ e.cut stop cells := by
  cases e with
  | insert offset text =>
    have hnone := ha.covers hinside.1
    rw [cut, cut]
    split
    · rw [List.append_assoc]
    · rw [Cell.upTo_append_of_none hnone, Cell.since_append_of_none hnone]
      simp only [List.append_assoc]
  | overwrite first last text storeName =>
    rw [cut, cut]
    by_cases hlt : first < last
    · have hfirst := ha.covers hinside.1
      have hlast := ha.covers (show start ≤ last - 1 from Nat.le_trans hinside.1 (Nat.le_sub_one_of_lt hlt))
      rw [any_append_of_none hfirst, any_append_of_none hlast]
      split
      · next hany =>
        rw [Cell.upTo_append_of_none hfirst, Cell.behind_append_of_any hany.2.2]
        simp only [List.append_assoc]
      · rfl
    · rw [if_neg fun h => hlt h.1, if_neg fun h => hlt h.1]
  | remove first last =>
    have hnone := ha.within hinside.1 last
    rw [cut, cut, any_append_of_none hnone]
    split
    · next hany => rw [Cell.upTo_append_of_none hnone, Cell.behind_append_of_any hany, List.append_assoc]
    · rfl
  | anchor | protect => rfl
  | _ => exact hinside.elim

/-- An edit in front of an offset leaves what comes from behind it, and does the same to what is in front. The byte that
an insertion needs must be there. -/
theorem cut_ahead {last : Nat} {e : Edit} {b : List Cell} (hb : Cell.StartFrom stop b) (hinside : e.Inside start stop)
    (hfound : ∀ offset text, e = .insert offset text → offset ≠ last ∧ cells.any (·.covers offset) = true) :
    e.cut last (cells ++ b) = e.cut last cells ++ b := by
  cases e with
  | insert offset text =>
    obtain ⟨hne, hany⟩ := hfound offset text rfl
    rw [cut, cut, if_neg hne, if_neg hne, Cell.upTo_append_of_any hany, Cell.since_append_of_any hany]
    simp only [List.append_assoc]
  | overwrite begins ends text storeName =>
    rw [cut, cut]
    by_cases hlt : begins < ends
    · have hfirst := hb.covers (show begins < stop from Nat.lt_of_lt_of_le hlt hinside.2)
      have hlast := hb.covers (show ends - 1 < stop from Nat.lt_of_lt_of_le (by omega) hinside.2)
      rw [Cell.any_append_of_none_behind hfirst, Cell.any_append_of_none_behind hlast]
      split
      · next hany =>
        rw [Cell.upTo_append_of_any hany.2.1, Cell.behind_append_of_none hlast]
        simp only [List.append_assoc]
      · rfl
    · rw [if_neg fun h => hlt h.1, if_neg fun h => hlt h.1]
  | remove begins ends =>
    have hnone := hb.within hinside.2 begins
    rw [cut, cut, Cell.any_append_of_none_behind hnone]
    split
    · next hany =>
      rw [Cell.upTo_append_of_any hany, Cell.behind_append_of_none hnone]
      simp only [List.append_assoc]
    · rfl
  | anchor | protect => rfl
  | _ => exact hinside.elim

theorem cut_overwrite_settled {b : List Cell} {name : List Char} (hname : name ≠ []) (ha : Cell.EndBy start a)
    (hb : Cell.StartFrom (start + Text.size name) b) (text : String) (storeName : Bool) :
    (Edit.overwrite start (start + Text.size name) text storeName).cut stop (a ++ Cell.settled start name ++ b) =
      a ++ Cell.fresh text.toList ++ b := by
  obtain ⟨c, rest, hfront, hc⟩ := Cell.settled_first hname start
  obtain ⟨x, e, hname, hback, he⟩ := Cell.settled_last hname start
  have hpos := e.char.utf8Size_pos
  have hsize : Text.size name = Text.size x + e.char.utf8Size := by
    rw [hname, Text.size_append]
    simp [Text.size]
  have hfirst : c.covers start = true := Cell.covers_origin (k := 0) hc c.char.utf8Size_pos
  have hend : e.covers (start + Text.size name - 1) = true := by
    rw [hsize, ← Nat.add_assoc, Nat.add_sub_assoc hpos]
    exact Cell.covers_origin he (by omega)
  have hbehind := hb.covers (show start + Text.size name - 1 < start + Text.size name by omega)
  have hfront : a ++ Cell.settled start name ++ b = a ++ c :: (rest ++ b) := by
    rw [hfront, List.append_assoc, List.cons_append]
  have hback : a ++ Cell.settled start name ++ b = (a ++ Cell.settled start x) ++ e :: b := by
    rw [hback]
    simp only [List.append_assoc, List.cons_append, List.nil_append]
  rw [cut, if_pos ⟨by omega, by simp [hfront, hfirst], by rw [hback]; simp [hend]⟩]
  rw [show Cell.upTo (·.covers start) (a ++ Cell.settled start name ++ b) = a by
    rw [hfront, Cell.upTo_eq (ha.covers (Nat.le_refl _)) hfirst]]
  rw [hback, Cell.behind_eq hbehind hend]

theorem startFrom_cut {offset : Nat} {e : Edit} (h : Cell.StartFrom offset cells) :
    Cell.StartFrom offset (e.cut stop cells) :=
  fun c hc o ho => h c (mem_cut hc (Option.isSome_of_eq_some ho)) o ho

theorem cuts_overwritten {first last : Nat} {text : String} {storeName : Bool} {b : List Cell} {es : List Edit}
    (hlt : first < last) (ha : Cell.EndBy first a) (hb : Cell.StartFrom last b)
    (hes : ∀ e ∈ es, e = .overwrite first last text storeName ∨ e.Inside last stop) :
    ∃ b', Cell.StartFrom last b' ∧
      cuts stop (a ++ Cell.fresh text.toList ++ b) es = a ++ Cell.fresh text.toList ++ b' := by
  induction es generalizing b with
  | nil => exact ⟨b, hb, rfl⟩
  | cons e es ih =>
    obtain ⟨hfirst, hrest⟩ := List.forall_mem_cons.mp hes
    have hfront : Cell.EndBy last (a ++ Cell.fresh text.toList) :=
      (ha.mono (Nat.le_of_lt hlt)).append (Cell.endBy_fresh _)
    rcases hfirst with rfl | hinside
    · have hnone : (a ++ Cell.fresh text.toList ++ b).any (·.covers first) = false := by
        rw [any_append_of_none ((ha.append (Cell.endBy_fresh _)).covers (Nat.le_refl _))]
        exact List.any_eq_false.mpr fun c hc => by
          rw [hb.covers hlt c hc]
          exact Bool.false_ne_true
      have hstays : (Edit.overwrite first last text storeName).cut stop (a ++ Cell.fresh text.toList ++ b) =
          a ++ Cell.fresh text.toList ++ b := by
        rw [cut, if_neg fun h => Bool.false_ne_true (hnone.symm.trans h.2.1)]
      change ∃ b', _ ∧ cuts stop (Edit.cut stop _ _) es = _
      rw [hstays]
      exact ih hb hrest
    · change ∃ b', _ ∧ cuts stop (Edit.cut stop _ _) es = _
      rw [cut_behind hfront hinside]
      exact ih (startFrom_cut hb) hrest

theorem cuts_name {name : List Char} {text : String} {storeName : Bool} {b : List Cell} {es : List Edit}
    (hname : name ≠ []) (ha : Cell.EndBy start a) (hb : Cell.StartFrom (start + Text.size name) b)
    (hes : ∀ e ∈ es, e = .overwrite start (start + Text.size name) text storeName ∨
      e.Inside (start + Text.size name) stop) :
    ∃ b', Cell.StartFrom (start + Text.size name) b' ∧ cuts stop (a ++ Cell.settled start name ++ b) es = a ++
      (if .overwrite start (start + Text.size name) text storeName ∈ es then Cell.fresh text.toList
        else Cell.settled start name) ++ b' := by
  have hlt : start < start + Text.size name := Nat.lt_add_of_pos_right (Text.size_pos hname)
  induction es generalizing b with
  | nil => exact ⟨b, hb, rfl⟩
  | cons e es ih =>
    obtain ⟨hfirst, hes⟩ := List.forall_mem_cons.mp hes
    by_cases he : e = .overwrite start (start + Text.size name) text storeName
    · rw [if_pos (he ▸ List.mem_cons_self)]
      change ∃ b', _ ∧ cuts stop (e.cut stop _) es = _
      rw [he, cut_overwrite_settled hname ha hb]
      exact cuts_overwritten hlt ha hb hes
    · have hfront : Cell.EndBy (start + Text.size name) (a ++ Cell.settled start name) :=
        (ha.mono (Nat.le_of_lt hlt)).append (Cell.endBy_settled _)
      change ∃ b', _ ∧ cuts stop (e.cut stop _) es = _
      rw [cut_behind hfront (hfirst.resolve_left he)]
      obtain ⟨b', hstart, hb'⟩ := ih (startFrom_cut hb) hes
      refine ⟨b', hstart, ?_⟩
      rw [hb']
      simp only [List.mem_cons, Ne.symm he, false_or]

end Edit

namespace Draft

def revise (d : Draft) (es : List Edit) : Except EditFault Draft := es.foldlM (fun d e => e.apply d) d

theorem revise_append (d : Draft) (es fs : List Edit) : d.revise (es ++ fs) = d.revise es >>= (·.revise fs) :=
  List.foldlM_append

theorem revise_singleton (d : Draft) (e : Edit) : d.revise [e] = e.apply d := by
  rw [revise, List.foldlM_cons]
  exact bind_pure _

variable {start stop : Nat} {a cells b : List Cell} {d d' : Draft}

theorem any_stretch {p : Cell → Bool} (hcells : d.cells = a ++ cells ++ b) (hany : d.cells.any p = true)
    (ha : ∀ c ∈ a, p c = false) (hb : ∀ c ∈ b, p c = false) : cells.any p = true := by
  obtain ⟨c, hc, hp⟩ := List.any_eq_true.mp hany
  rw [hcells, List.append_assoc] at hc
  rcases List.mem_append.mp hc with hc | hc
  · rw [ha c hc] at hp
    cases hp
  · rcases List.mem_append.mp hc with hc | hc
    · exact List.any_eq_true.mpr ⟨c, hc, hp⟩
    · rw [hb c hc] at hp
      cases hp

/-- What a draft is apart from a stretch of it that edits may change: cells that end before the range they come
from, and cells that come from behind it. -/
structure Around (d : Draft) (start stop : Nat) (a cells b : List Cell) : Prop where
  split : d.cells = a ++ cells ++ b
  ends : stop ≤ d.length
  before : Cell.EndBy start a
  within : Cell.EndBy stop cells
  behind : Cell.ComeFrom stop d.length b

variable (hd : d.Around start stop a cells b)
include hd

theorem insert_stretch {offset : Nat} {text : String} (hinside : start ≤ offset ∧ offset ≤ stop)
    (h : d.insert offset text = .ok d') : d'.cells = a ++ (Edit.insert offset text).cut stop cells ++ b := by
  have hends := hd.ends
  rw [Edit.cut]
  rcases insert_eq_ok h with ⟨hlength, rfl⟩ | ⟨-, x, c, z, hsplit, hx, hc, rfl⟩
  · -- nothing comes from behind the end of the first text
    have hempty : b = [] := by
      refine List.eq_nil_iff_forall_not_mem.mpr fun c hc => ?_
      obtain ⟨o, -, hle, hlt⟩ := hd.behind.origin c hc
      omega
    rw [if_pos (by omega), append, hd.split, hempty, List.append_nil, List.append_nil, List.append_assoc]
  · have hbefore := hd.before.covers hinside.1
    have hany : d.cells.any (·.covers offset) = true := by simp [hsplit, hc]
    have hupTo : x = Cell.upTo (·.covers offset) d.cells := by rw [hsplit, Cell.upTo_eq hx hc]
    have hsince : c :: z = Cell.since (·.covers offset) d.cells := by rw [hsplit, Cell.since_eq hx hc]
    rw [hupTo, hsince, hd.split]
    by_cases hend : offset = stop
    · subst hend
      have hnone : ∀ c ∈ a ++ cells, c.covers offset = false := fun c hc =>
        (List.mem_append.mp hc).elim (hbefore c) (hd.within.covers (Nat.le_refl _) c)
      rw [if_pos rfl, Cell.upTo_append_of_none hnone, Cell.since_append_of_none hnone]
      have hfirst : b.any (·.covers offset) = true := by
        rw [hd.split, List.any_append, Bool.or_eq_true] at hany
        refine hany.resolve_left fun h => ?_
        obtain ⟨c, hc, hcov⟩ := List.any_eq_true.mp h
        rw [hnone c hc] at hcov
        cases hcov
      obtain ⟨hnil, hself⟩ := hd.behind.upTo_eq_nil hfirst
      rw [hnil, hself, List.append_nil, List.append_assoc, List.append_assoc, List.append_assoc,
        List.append_assoc]
    · have hbehind := hd.behind.covers (show offset < stop by omega)
      have hcov := any_stretch hd.split hany hbefore hbehind
      rw [if_neg hend, List.append_assoc a cells b, Cell.upTo_append_of_none hbefore,
        Cell.since_append_of_none hbefore, Cell.upTo_append_of_any hcov, Cell.since_append_of_any hcov]
      simp only [List.append_assoc]

theorem overwrite_stretch {first last : Nat} {text : String} {storeName : Bool}
    (hinside : start ≤ first ∧ last ≤ stop) (h : d.overwrite first last text storeName = .ok d') :
    d'.cells = a ++ (Edit.overwrite first last text storeName).cut stop cells ++ b := by
  rw [Edit.cut]
  unfold overwrite at h
  split at h
  · cases h
  · next hrange =>
    split at h
    · cases h
    · split at h
      · next c e hfirst hlast =>
        split at h
        · have hb₁ := hd.before.covers hinside.1
          have hb₂ := hd.before.covers (show start ≤ last - 1 by omega)
          have hz₁ := hd.behind.covers (show first < stop by omega)
          have hz₂ := hd.behind.covers (show last - 1 < stop by omega)
          have hany₁ := any_stretch hd.split
            (List.any_eq_true.mpr ⟨c, List.mem_of_find?_eq_some hfirst, List.find?_some hfirst⟩) hb₁ hz₁
          have hany₂ := any_stretch hd.split
            (List.any_eq_true.mpr ⟨e, List.mem_of_find?_eq_some hlast, List.find?_some hlast⟩) hb₂ hz₂
          rw [if_pos ⟨Nat.not_le.mp hrange, hany₁, hany₂⟩, ← Except.ok.inj h, hd.split,
            Cell.behind_append_of_none hz₂, Cell.behind_append_of_any hany₂,
            List.append_assoc a cells b, Cell.upTo_append_of_none hb₁, Cell.upTo_append_of_any hany₁]
          simp only [List.append_assoc]
        · cases h
      · cases h

theorem remove_stretch {first last : Nat} (hinside : start ≤ first ∧ last ≤ stop)
    (h : d.remove first last = .ok d') : d'.cells = a ++ (Edit.remove first last).cut stop cells ++ b := by
  have hbefore := hd.before.within hinside.1 last
  have hbehind := hd.behind.within hinside.2 first
  rw [Edit.cut]
  unfold remove at h
  split at h
  · cases h
  · split at h
    · cases h
    · split at h
      · next hany =>
        have hwithin := any_stretch hd.split hany hbefore hbehind
        rw [if_pos hwithin, ← Except.ok.inj h, hd.split, Cell.behind_append_of_none hbehind,
          Cell.behind_append_of_any hwithin, List.append_assoc a cells b, Cell.upTo_append_of_none hbefore,
          Cell.upTo_append_of_any hwithin]
        simp only [List.append_assoc]
      · next hnone =>
        have hnone' : cells.any (·.within first last) = false := by
          refine Bool.eq_false_iff.mpr fun hany => hnone ?_
          rw [hd.split, List.any_append, List.any_append, hany, Bool.or_true, Bool.true_or]
        rw [← Except.ok.inj h, hd.split, hnone']
        rfl

omit hd in
theorem source_inside {e : Edit} (hinside : e.Inside start stop) (h : e.apply d = .ok d') : d'.source = d.source := by
  cases e with
  | insert => exact source_insert h
  | overwrite => exact source_overwrite h
  | remove => exact source_remove h
  | anchor | protect => exact Except.ok.inj h ▸ rfl
  | _ => exact hinside.elim

/-- An edit within the range changes the stretch alone. -/
theorem apply_stretch {e : Edit} (hinside : e.Inside start stop) (h : e.apply d = .ok d') :
    d'.Around start stop a (e.cut stop cells) b := by
  have hcut : Cell.EndBy stop (Edit.cuts stop cells [e]) := Edit.endBy_cuts hd.within
  have hlength : d'.length = d.length := by rw [length, length, source_inside hinside h]
  refine ⟨?_, hlength ▸ hd.ends, hd.before, hcut, hlength ▸ hd.behind⟩
  cases e with
  | insert offset text => exact insert_stretch hd hinside h
  | overwrite first last text storeName => exact overwrite_stretch hd hinside h
  | remove first last => exact remove_stretch hd hinside h
  | anchor | protect => exact Except.ok.inj h ▸ hd.split
  | _ => exact hinside.elim

/-- Edits within the range change the stretch alone, and into what depends on the stretch alone. -/
theorem revise_stretch {es : List Edit} (hinside : ∀ e ∈ es, e.Inside start stop)
    (h : d.revise es = .ok d') :
    d'.Around start stop a (Edit.cuts stop cells es) b ∧ d'.source = d.source := by
  induction es generalizing d cells with
  | nil =>
    obtain rfl := Except.ok.inj h
    exact ⟨hd, rfl⟩
  | cons e es ih =>
    obtain ⟨hfirst, hinside⟩ := List.forall_mem_cons.mp hinside
    rw [revise, List.foldlM_cons] at h
    obtain ⟨d₁, he, hrest⟩ := bind_eq_ok.mp h
    obtain ⟨haround, hsource⟩ := ih (apply_stretch hd hfirst he) hinside hrest
    exact ⟨haround, hsource.trans (source_inside hfirst he)⟩

omit hd

/-- Whether a draft has only lost text. -/
def Bare (d : Draft) : Prop := d.cells.Sublist (Cell.settled 0 d.source.toList)

theorem Bare.intact (h : d.Bare) : d.Intact := by
  rw [Intact, ← Cell.survivors_settled]
  exact Cell.survivors_sublist h

def onward (d : Draft) (start : Nat) : List Cell := d.cells.filter fun c => c.origin.any (start ≤ ·)

/-- What a draft has of a range of the first text. -/
def stretch (d : Draft) (start stop : Nat) : List Cell := d.cells.filter (·.within start stop)

def ahead (d : Draft) (start : Nat) : List Cell := d.cells.filter fun c => !c.origin.any (start ≤ ·)

theorem filter_not_append_filter {α : Type} {q : α → Bool} {l : List α}
    (h : l.Pairwise fun x y => q x = true → q y = true) : l.filter (!q ·) ++ l.filter q = l := by
  induction l with
  | nil => rfl
  | cons x l ih =>
    obtain ⟨hx, hl⟩ := List.pairwise_cons.mp h
    by_cases hq : q x = true
    · have hall : l.filter (!q ·) = [] := by
        rw [List.filter_eq_nil_iff]
        intro y hy
        simp [hx y hy hq]
      have hkept : l.filter q = l := List.filter_eq_self.mpr fun y hy => hx y hy hq
      simp [hq, hall, hkept]
    · simp [hq, ih hl]

theorem Bare.comeFrom (h : d.Bare) (start : Nat) : Cell.ComeFrom start d.length (d.onward start) := by
  refine ⟨fun c hc => ?_, h.intact.pairwise.sublist List.filter_sublist⟩
  obtain ⟨hmem, hlater⟩ := List.mem_filter.mp hc
  obtain ⟨o, ho, hle⟩ := (Option.any_eq_true _ _).mp hlater
  obtain ⟨x, y, hsource, horigin⟩ := Cell.mem_settled (h.subset hmem)
  obtain rfl := Option.some.inj (ho.symm.trans horigin)
  refine ⟨_, ho, of_decide_eq_true hle, ?_⟩
  have := c.char.utf8Size_pos
  rw [length, hsource, Text.size_append, Text.size]
  omega

theorem pairwise_later {l : List Cell} (h : l.Pairwise Cell.Precedes) (ho : ∀ c ∈ l, c.origin.isSome = true)
    (start : Nat) :
    l.Pairwise fun x y => x.origin.any (start ≤ ·) = true → y.origin.any (start ≤ ·) = true := by
  refine h.imp_of_mem fun {x y} _ hy hxy hx => ?_
  obtain ⟨o, hox, hle⟩ := (Option.any_eq_true _ _).mp hx
  obtain ⟨o', hoy⟩ := Option.isSome_iff_exists.mp (ho y hy)
  have := hxy o o' hox hoy
  have := of_decide_eq_true hle
  simp only [hoy, Option.any_some, decide_eq_true_eq]
  omega

theorem Bare.isSome (h : d.Bare) : ∀ c ∈ d.cells, c.origin.isSome = true := by
  intro c hc
  obtain ⟨_, _, _, ho⟩ := Cell.mem_settled (h.subset hc)
  exact Option.isSome_of_eq_some ho

theorem Bare.ahead_append_onward (h : d.Bare) (start : Nat) : d.ahead start ++ d.onward start = d.cells :=
  filter_not_append_filter (pairwise_later h.intact.pairwise h.isSome start)

theorem Bare.stretch_append_onward (h : d.Bare) {start stop : Nat} (hle : start ≤ stop) :
    d.stretch start stop ++ d.onward stop = d.onward start := by
  have hpairwise := (pairwise_later h.intact.pairwise h.isSome stop).sublist
    (List.filter_sublist (p := fun c => c.origin.any (start ≤ ·)))
  have hstretch : (d.onward start).filter (fun c => !c.origin.any (stop ≤ ·)) = d.stretch start stop := by
    rw [onward, List.filter_filter, stretch]
    refine List.filter_congr fun c hc => ?_
    obtain ⟨o, ho⟩ := Option.isSome_iff_exists.mp (h.isSome c hc)
    simp only [Cell.within, ho, Option.any_some, Bool.and_comm, ← decide_not, Nat.not_le]
  have honward : (d.onward start).filter (fun c => c.origin.any (stop ≤ ·)) = d.onward stop := by
    rw [onward, List.filter_filter, onward]
    refine List.filter_congr fun c hc => ?_
    obtain ⟨o, ho⟩ := Option.isSome_iff_exists.mp (h.isSome c hc)
    simp only [ho, Option.any_some]
    by_cases hstop : stop ≤ o
    · simp [hstop, Nat.le_trans hle hstop]
    · simp [hstop]
  calc d.stretch start stop ++ d.onward stop
      = (d.onward start).filter (fun c => !c.origin.any (stop ≤ ·)) ++
          (d.onward start).filter (fun c => c.origin.any (stop ≤ ·)) := by rw [hstretch, honward]
    _ = d.onward start := filter_not_append_filter hpairwise

theorem Bare.stretch_append_stretch (h : d.Bare) {start mid stop : Nat} (hstart : start ≤ mid) (hstop : mid ≤ stop) :
    d.stretch start mid ++ d.stretch mid stop = d.stretch start stop := by
  have hstretch : ∀ from_, (d.onward from_).filter (fun c => c.origin.any (· < stop)) = d.stretch from_ stop := by
    intro from_
    rw [onward, List.filter_filter, stretch]
    refine List.filter_congr fun c hc => ?_
    obtain ⟨o, ho⟩ := Option.isSome_iff_exists.mp (h.isSome c hc)
    simp [Cell.within, ho, Bool.and_comm]
  have hkept : (d.stretch start mid).filter (fun c => c.origin.any (· < stop)) = d.stretch start mid := by
    refine List.filter_eq_self.mpr fun c hc => ?_
    obtain ⟨o, ho, -, hlt⟩ := Cell.within_iff.mp (List.mem_filter.mp hc).2
    rw [ho]
    exact decide_eq_true (Nat.lt_of_lt_of_le hlt hstop)
  rw [← hstretch start, ← h.stretch_append_onward hstart, List.filter_append, hkept, hstretch]

theorem startFrom_stretch (d : Draft) (start stop : Nat) : Cell.StartFrom start (d.stretch start stop) := by
  intro c hc o ho
  obtain ⟨o', ho', hle, -⟩ := Cell.within_iff.mp (List.mem_filter.mp hc).2
  obtain rfl := Option.some.inj (ho.symm.trans ho')
  exact hle

theorem Bare.comeFrom_stretch (h : d.Bare) {start stop : Nat} (hle : start ≤ stop) :
    Cell.ComeFrom start d.length (d.stretch start stop) := by
  have hfrom := h.comeFrom start
  rw [← h.stretch_append_onward hle] at hfrom
  exact ⟨fun c hc => hfrom.origin c (List.mem_append_left _ hc), hfrom.sorted.sublist (List.sublist_append_left ..)⟩

theorem Bare.any_stretch (h : d.Bare) {start stop : Nat} (hu : Text.usable start d.source.toList = true)
    (hlt : start < stop) (hlive : (d.locate? start).isSome = true) :
    (d.stretch start stop).any (·.covers start) = true := by
  rw [locate?, Cell.isSome_locate?] at hlive
  obtain ⟨c, hc, hcovers⟩ := List.any_eq_true.mp hlive
  obtain ⟨o, ho, hle, hend⟩ := Cell.covers_iff.mp hcovers
  have hstart : o = start := by
    rcases Nat.lt_or_ge o start with hbefore | hge
    · have := h.intact.origin_usable hc ho hu hbefore
      omega
    · omega
  have hwithin : c.within start stop = true := Cell.within_iff.mpr ⟨o, ho, by omega, by omega⟩
  exact List.any_eq_true.mpr ⟨c, List.mem_filter.mpr ⟨hc, hwithin⟩, hcovers⟩

theorem Bare.endBy_ahead (h : d.Bare) {start : Nat} (hu : Text.usable start d.source.toList = true) :
    Cell.EndBy start (d.ahead start) := by
  intro c hc o ho
  obtain ⟨hmem, hlater⟩ := List.mem_filter.mp hc
  simp only [ho, Option.any_some, Bool.not_eq_true', decide_eq_false_iff_not, Nat.not_le] at hlater
  exact h.intact.origin_usable hmem ho hu hlater

theorem Bare.endBy_stretch (h : d.Bare) {start stop : Nat} (hu : Text.usable stop d.source.toList = true) :
    Cell.EndBy stop (d.stretch start stop) := by
  intro c hc o ho
  obtain ⟨hmem, hwithin⟩ := List.mem_filter.mp hc
  obtain ⟨o', ho', -, hlt⟩ := Cell.within_iff.mp hwithin
  obtain rfl := Option.some.inj (ho.symm.trans ho')
  exact h.intact.origin_usable hmem ho hu hlt

end Draft

end Treeshake
