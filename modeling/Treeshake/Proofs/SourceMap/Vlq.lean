import Mathlib.Algebra.Group.Int.Defs
import Mathlib.Algebra.Group.Nat.Defs
import Treeshake.SourceMap.Vlq
/-!
Reading numbers back from their digits. Main statement: every list of numbers but the least is read back
from its text.
-/
set_option autoImplicit false

namespace Treeshake.SourceMap.Vlq

theorem toInt_eq (n : Int64) :
    n.toInt = if n.toUInt64.toNat < 2 ^ 63 then (n.toUInt64.toNat : Int)
      else n.toUInt64.toNat - 2 ^ 64 := by
  have h : n.toUInt64.toNat = n.toBitVec.toNat := rfl
  rw [h, ← Int64.toInt_toBitVec, BitVec.toInt_eq_toNat_cond]
  split <;> split <;> omega

theorem toNat_double {w : UInt64} (h : w.toNat < 2 ^ 63) : (w <<< 1).toNat = 2 * w.toNat := by
  simp [UInt64.toNat_shiftLeft, Nat.shiftLeft_eq]
  omega

theorem toNat_double_or_one {w : UInt64} (h : w.toNat < 2 ^ 63) :
    (w <<< 1 ||| 1).toNat = 2 * w.toNat + 1 := by
  have hor := Nat.two_pow_add_eq_or_of_lt (i := 1) (show 1 < 2 ^ 1 by omega) w.toNat
  rw [UInt64.toNat_or, toNat_double h, UInt64.toNat_one]
  simpa using hor.symm

theorem toInt_half {w : UInt64} : (w >>> 1).toInt64.toInt = w.toNat / 2 := by
  have h : (w >>> 1).toInt64.toUInt64.toNat = w.toNat / 2 := by
    simp [UInt64.toNat_shiftRight, Nat.shiftRight_eq_div_pow]
  have := w.toNat_lt
  rw [toInt_eq, h, if_pos (by omega)]
  omega

theorem odd_iff {w : UInt64} : (w &&& 1 == 1) = true ↔ w.toNat % 2 = 1 := by
  rw [beq_iff_eq, ← UInt64.toNat_inj, UInt64.toNat_and, UInt64.toNat_one, Nat.and_one_is_mod]

theorem unfold_fold {n : Int64} (hn : n ≠ Int64.minValue) : unfold (fold n) = n := by
  have hint := toInt_eq n
  have hlt := n.toUInt64.toNat_lt
  have hmin : n.toUInt64.toNat ≠ 2 ^ 63 := by
    intro h
    apply hn
    rw [← Int64.toInt_inj, hint, h]
    rfl
  apply Int64.toInt_inj.mp
  unfold fold
  split
  · next hneg =>
    rw [Int64.lt_iff_toInt_lt, Int64.toInt_zero] at hneg
    have hsize : (0 - n.toUInt64).toNat = 2 ^ 64 - n.toUInt64.toNat := by
      rw [UInt64.toNat_sub, UInt64.toNat_zero]
      split at hint <;> omega
    have hw := toNat_double_or_one (w := 0 - n.toUInt64) (by split at hint <;> omega)
    rw [unfold, if_pos (odd_iff.mpr (by omega)), Int64.toInt_neg, toInt_half, hw, hsize]
    rw [Int.bmod_eq_of_le] <;> split at hint <;> omega
  · next hpos =>
    rw [Int64.lt_iff_toInt_lt, Int64.toInt_zero] at hpos
    have hw := toNat_double (w := n.toUInt64) (by split at hint <;> omega)
    have heven : ¬ (n.toUInt64 <<< 1 &&& 1 == 1) = true := by
      rw [odd_iff, hw]
      omega
    rw [unfold, if_neg heven, toInt_half, hw]
    split at hint <;> omega

theorem toNat_shiftLeft (n shift : Nat) (h : n < 2 ^ (64 - shift)) (hs : shift < 64) :
    (n.toUInt64 <<< shift.toUInt64).toNat = n * 2 ^ shift := by
  have hpow : 2 ^ (64 - shift) * 2 ^ shift = 2 ^ 64 := by
    rw [← Nat.pow_add]
    congr 1
    omega
  have hlt : n * 2 ^ shift < 2 ^ 64 := hpow ▸ Nat.mul_lt_mul_of_pos_right h (Nat.two_pow_pos shift)
  have hn : n < 2 ^ 64 := Nat.lt_of_le_of_lt (Nat.le_mul_of_pos_right n (Nat.two_pow_pos shift)) hlt
  rw [UInt64.toNat_shiftLeft]
  simp only [Nat.toUInt64_eq, UInt64.toNat_ofNat']
  rw [Nat.mod_eq_of_lt hn, Nat.mod_eq_of_lt (show shift < 2 ^ 64 by omega), Nat.mod_eq_of_lt hs,
    Nat.shiftLeft_eq, Nat.mod_eq_of_lt hlt]

theorem shiftLeft_digit (n shift : Nat) (h : n < 2 ^ (64 - shift)) (hs : shift + 5 < 64) :
    ((n % 32).toUInt64 <<< shift.toUInt64) + ((n / 32).toUInt64 <<< (shift + 5).toUInt64) =
      n.toUInt64 <<< shift.toUInt64 := by
  have hpow : 2 ^ (64 - shift) = 32 * 2 ^ (64 - (shift + 5)) := by
    have : 64 - shift = 5 + (64 - (shift + 5)) := by omega
    rw [this, Nat.pow_add]
  have hdiv : n / 32 < 2 ^ (64 - (shift + 5)) := Nat.div_lt_of_lt_mul (hpow ▸ h)
  have hmod : n % 32 < 2 ^ (64 - shift) := Nat.lt_of_le_of_lt (Nat.mod_le n 32) h
  have hsum : n % 32 * 2 ^ shift + n / 32 * 2 ^ (shift + 5) = n * 2 ^ shift := by
    have := Nat.mod_add_div n 32
    rw [Nat.pow_add, ← Nat.mul_assoc, Nat.mul_right_comm, ← Nat.add_mul]
    congr 1
    omega
  apply UInt64.toNat_inj.mp
  rw [UInt64.toNat_add, toNat_shiftLeft _ _ hmod (by omega), toNat_shiftLeft _ _ hdiv hs,
    toNat_shiftLeft _ _ h (by omega), hsum, ← toNat_shiftLeft _ _ h (by omega)]
  exact Nat.mod_eq_of_lt (UInt64.toNat_lt _)

theorem read_digits (segment : String) (n shift : Nat) (value : UInt64) (rest : List Char)
    (hs : shift ≤ 60) (hd : shift % 5 = 0) (hn : n < 2 ^ (64 - shift)) :
    read segment shift value ((digits n).map Base64.char ++ rest) =
      (read segment 0 0 rest).map (unfold (value + (n.toUInt64 <<< shift.toUInt64)) :: ·) := by
  induction n using Nat.strongRecOn generalizing shift value with
  | ind n ih =>
    rw [digits]
    split
    · next h =>
      simp only [List.map_cons, List.map_nil, List.singleton_append, read,
        Base64.digit?_char n (by omega)]
      rw [if_neg (by omega), if_neg (by omega), Nat.mod_eq_of_lt h]
    · next h =>
      have hshift : shift + 5 ≤ 60 := by
        rcases Nat.lt_or_ge 55 shift with hlt | hge
        · have h60 : shift = 60 := by omega
          subst h60
          omega
        · omega
      have hpow : 2 ^ (64 - shift) = 32 * 2 ^ (64 - (shift + 5)) := by
        have : 64 - shift = 5 + (64 - (shift + 5)) := by omega
        rw [this, Nat.pow_add]
      simp only [List.map_cons, List.cons_append, read, Base64.digit?_char (n % 32 + 32) (by omega)]
      rw [if_neg (by omega), if_pos (by omega),
        ih (n / 32) (by omega) (shift + 5) _ hshift (by omega) (Nat.div_lt_of_lt_mul (hpow ▸ hn)),
        Nat.add_mod_right, Nat.mod_mod, UInt64.add_assoc, shiftLeft_digit n shift hn (by omega)]

theorem read_encode (segment : String) (ns : List Int64) (h : ∀ n ∈ ns, n ≠ Int64.minValue) :
    read segment 0 0 (encode ns) = .ok ns := by
  induction ns with
  | nil => rfl
  | cons n ns ih =>
    have hfold : (fold n).toNat < 2 ^ (64 - 0) := (fold n).toNat_lt
    rw [encode, List.flatMap_cons, encodeOne, read_digits segment _ 0 0 _ (by omega) rfl hfold]
    rw [encode] at ih
    rw [ih fun m hm => h m (by simp [hm])]
    simp only [Except.map]
    congr 2
    have hzero : (0 : UInt64) + (fold n).toNat.toUInt64 <<< (0 : Nat).toUInt64 = fold n := by
      apply UInt64.toNat_inj.mp
      rw [UInt64.zero_add, toNat_shiftLeft _ _ hfold (by omega)]
      simp
    rw [hzero, unfold_fold (h n (by simp))]

theorem decode_encode (ns : List Int64) (h : ∀ n ∈ ns, n ≠ Int64.minValue) :
    decode (String.ofList (encode ns)) = .ok ns := by
  rw [decode, String.toList_ofList]
  exact read_encode _ ns h

end Treeshake.SourceMap.Vlq
