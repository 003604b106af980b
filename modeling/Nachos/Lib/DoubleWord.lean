import Mathlib.Data.BitVec
import Mathlib.Tactic.Ring

/-!
This module contains the arithmetic on double words, which are held in two words.
-/

namespace BitVec

variable {w : Nat} (hi lo hi' lo' : BitVec w)

theorem toNat_append_eq : (hi ++ lo).toNat = hi.toNat * 2 ^ w + lo.toNat := by
  rw [toNat_append, Nat.shiftLeft_eq, Nat.mul_comm, Nat.two_pow_add_eq_or_of_lt lo.isLt]

theorem append_eq_ofNat : hi ++ lo = BitVec.ofNat (w + w) (hi.toNat * 2 ^ w + lo.toNat) := by
  rw [← toNat_append_eq, ofNat_toNat, setWidth_eq]

theorem ofNat_eq_append (hi lo : Nat)
    : BitVec.ofNat (w + w) (hi * 2 ^ w + lo) = BitVec.ofNat w (hi + lo / 2 ^ w) ++ BitVec.ofNat w lo := by
  apply eq_of_toNat_eq
  rw [toNat_append_eq]
  simp only [toNat_ofNat]
  rw [Nat.pow_add, Nat.mod_mul, Nat.mul_comm hi, Nat.mul_add_mod,
    Nat.mul_add_div (Nat.two_pow_pos w)]
  ring

theorem carry_eq (x y : BitVec w)
    : (x.toNat + y.toNat) / 2 ^ w = if x + y < y then 1 else 0 := by
  have hx := x.isLt
  have hy := y.isLt
  cases Nat.lt_or_ge (x.toNat + y.toNat) (2 ^ w) with
  | inl h =>
    have hlt : ¬x + y < y := by
      rw [lt_def, toNat_add, Nat.mod_eq_of_lt h]
      omega
    rw [if_neg hlt, Nat.div_eq_of_lt h]
  | inr h =>
    have hlt : x + y < y := by
      rw [lt_def, toNat_add, Nat.mod_eq_sub_mod h, Nat.mod_eq_of_lt (by omega)]
      omega
    rw [if_pos hlt]
    apply Nat.div_eq_of_lt_le
    . omega
    . omega

theorem append_add_append
    : (hi ++ lo) + (hi' ++ lo') =
        ((if lo + lo' < lo' then hi + 1 else hi) + hi') ++ (lo + lo') := by
  have hsum : hi.toNat * 2 ^ w + lo.toNat + (hi'.toNat * 2 ^ w + lo'.toNat) =
      (hi.toNat + hi'.toNat) * 2 ^ w + (lo.toNat + lo'.toNat) := by ring
  rw [append_eq_ofNat hi lo, append_eq_ofNat hi' lo', ← ofNat_add, hsum, ofNat_eq_append, carry_eq]
  simp only [ofNat_add, ofNat_toNat, setWidth_eq]
  congr 1
  split
  . exact add_right_comm hi hi' 1
  . exact add_zero (hi + hi')

theorem append_shiftLeft_one
    : (hi ++ lo) <<< 1 = (if lo.msb = true then hi <<< 1 ||| 1 else hi <<< 1) ++ lo <<< 1 := by
  apply eq_of_getLsbD_eq
  intro i hi
  cases hmsb : lo.msb with
  | false =>
    rw [msb_eq_getLsbD_last] at hmsb
    simp only [getLsbD_shiftLeft, getLsbD_append]
    grind
  | true =>
    rw [msb_eq_getLsbD_last] at hmsb
    simp only [getLsbD_shiftLeft, getLsbD_append]
    grind

theorem neg_append : -(hi ++ lo) = (if ~~~lo + 1 = 0 then ~~~hi + 1 else ~~~hi) ++ (~~~lo + 1) := by
  have hlo : ~~~lo + 1 = -lo := (neg_eq_not_add lo).symm
  have hhi : ~~~hi + 1 = -hi := (neg_eq_not_add hi).symm
  have hsum : lo + -lo = 0 := add_neg_cancel lo
  apply neg_eq_of_add_eq_zero_right
  rw [append_add_append, hlo, hsum]
  by_cases h : -lo = 0
  . rw [if_pos h, h, if_neg (BitVec.lt_irrefl 0), hhi, add_neg_cancel]
    exact zero_append_zero
  . have hcarry : 0 < -lo := (pos_iff_ne_zero (-lo)).mpr h
    rw [if_neg h, if_pos hcarry, add_right_comm, add_assoc, hhi, add_neg_cancel]
    exact zero_append_zero

end BitVec
