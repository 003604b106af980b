import Mathlib.Algebra.Ring.Int.Defs
import Mathlib.Algebra.Ring.Nat
import Mathlib.Tactic.ByContra

/-!
This module contains when an operation on unsigned bit vectors has the same result as the one on signed
bit vectors.
-/

namespace BitVec

variable {w : Nat} (a b : BitVec w)

theorem lt_iff_toInt_lt_iff : (a < b ↔ a.toInt < b.toInt) ↔ a.msb = b.msb := by
  rw [← ult_iff_lt, ← slt_iff_toInt_lt, slt_eq_ult]
  cases a.msb <;> cases b.msb <;> simp

theorem pos_iff_toInt_pos_iff : (0 < a ↔ 0 < a.toInt) ↔ a.msb = false := by
  have h := lt_iff_toInt_lt_iff 0 a
  have hmsb : (0 : BitVec w).msb = false := msb_zero
  have hint : (0 : BitVec w).toInt = 0 := toInt_zero
  rw [hmsb, hint] at h
  rw [h]
  exact eq_comm

theorem nonneg_iff : 0 ≤ a.toInt ↔ a.msb = false := by
  rw [msb_eq_toInt, decide_eq_false_iff_not, Int.not_lt]

theorem ushiftRight_eq_sshiftRight_iff (k : Nat) : a >>> k = a.sshiftRight k ↔ a.msb = false ∨ k = 0 := by
  constructor
  . intro h
    have hmsb := congrArg BitVec.msb h
    rw [msb_ushiftRight, msb_sshiftRight] at hmsb
    cases ha : a.msb with
    | false => exact .inl rfl
    | true =>
      rw [ha] at hmsb
      simp only [Bool.and_true, Bool.not_eq_true', decide_eq_false_iff_not] at hmsb
      exact .inr (by omega)
  . rintro (h | rfl)
    . exact (sshiftRight_eq_of_msb_false h).symm
    . simp

theorem ofInt_tdiv : BitVec.ofInt w (a.toInt.tdiv b.toInt) = a.sdiv b := by
  apply eq_of_toInt_eq
  rw [toInt_ofInt, toInt_sdiv]

theorem ofInt_tmod : BitVec.ofInt w (a.toInt.tmod b.toInt) = a.srem b := by
  rw [← toInt_srem, ofInt_toInt]

theorem ofInt_div_two_pow (k : Nat) : BitVec.ofInt w (a.toInt / (2 ^ k : Nat)) = a.sshiftRight k := by
  rw [← Int.shiftRight_eq_div_pow, ← toInt_sshiftRight, ofInt_toInt]

theorem ofNat_div_two_pow (k : Nat) : BitVec.ofNat w (a.toNat / 2 ^ k) = a >>> k := by
  rw [← Nat.shiftRight_eq_div_pow, ← toNat_ushiftRight, ofNat_toNat, setWidth_eq]

theorem ofNat_div : BitVec.ofNat w (a.toNat / b.toNat) = a / b := by
  rw [← toNat_udiv, ofNat_toNat, setWidth_eq]

theorem ofNat_mod : BitVec.ofNat w (a.toNat % b.toNat) = a % b := by
  rw [← toNat_umod, ofNat_toNat, setWidth_eq]

section

variable {a b}

theorem toNat_neg_of_msb (h : b.msb = true) : (-b).toNat = 2 ^ w - b.toNat := by
  have hle := BitVec.toNat_ge_of_msb_true h
  have hpow : 0 < 2 ^ (w - 1) := Nat.two_pow_pos _
  rw [toNat_neg]
  apply Nat.mod_eq_of_lt
  omega

theorem udiv_eq_sdiv_of_nonneg_of_neg (ha : a.msb = false) (hb : b.msb = true)
    : (a / b = -(a / -b) ∧ a % b = a % -b) ↔ a.toNat < 2 ^ w - b.toNat := by
  have hneg := toNat_neg_of_msb hb
  have hlt : a.toNat < b.toNat := by
    have := BitVec.toNat_lt_of_msb_false ha
    have := BitVec.toNat_ge_of_msb_true hb
    omega
  have hpos : 0 < 2 ^ w - b.toNat := Nat.sub_pos_of_lt b.isLt
  constructor
  . rintro ⟨-, hmod⟩
    have hmod := congrArg BitVec.toNat hmod
    rw [toNat_umod, toNat_umod, hneg, Nat.mod_eq_of_lt hlt] at hmod
    rw [hmod]
    exact Nat.mod_lt _ hpos
  . intro h
    constructor
    . have hzero : a / b = 0 := BitVec.eq_of_toNat_eq (by simp [Nat.div_eq_of_lt hlt])
      have hzero' : a / -b = 0 := BitVec.eq_of_toNat_eq (by simp [hneg, Nat.div_eq_of_lt h])
      rw [hzero, hzero']
      simp
    . apply BitVec.eq_of_toNat_eq
      rw [toNat_umod, toNat_umod, hneg, Nat.mod_eq_of_lt hlt, Nat.mod_eq_of_lt h]

theorem udiv_eq_sdiv_of_neg_of_pos (ha : a.msb = true) (hb : b.msb = false) (hzero : b ≠ 0)
    : (a / b = -(-a / b) ∧ a % b = -(-a % b)) ↔ b.toNat = 1 := by
  constructor
  . rintro ⟨hdiv, -⟩
    by_contra hone
    have hle := BitVec.toNat_ge_of_msb_true ha
    have hlt := BitVec.toNat_lt_of_msb_false hb
    have hdiv := congrArg BitVec.toNat hdiv
    rw [toNat_udiv, toNat_neg, toNat_udiv, toNat_neg_of_msb ha] at hdiv
    have htwo : 2 ≤ b.toNat := by
      have hzero : b.toNat ≠ 0 := fun h => hzero (BitVec.eq_of_toNat_eq (by simp [h]))
      omega
    have hpos : 0 < a.toNat / b.toNat := Nat.div_pos (by omega) (by omega)
    have hquot : a.toNat / b.toNat ≤ a.toNat / 2 := Nat.div_le_div_left htwo (by decide)
    have hquot' : (2 ^ w - a.toNat) / b.toNat ≤ (2 ^ w - a.toNat) / 2 :=
      Nat.div_le_div_left htwo (by decide)
    have := a.isLt
    generalize a.toNat / b.toNat = q at *
    generalize (2 ^ w - a.toNat) / b.toNat = q' at *
    obtain rfl | hq' := Nat.eq_zero_or_pos q'
    . rw [Nat.sub_zero, Nat.mod_self] at hdiv
      omega
    . rw [Nat.mod_eq_of_lt (by omega)] at hdiv
      omega
  . intro hone
    have hlt := b.isLt
    obtain rfl : b = 1 := by
      apply BitVec.eq_of_toNat_eq
      rw [hone]
      exact (Nat.mod_eq_of_lt (by omega)).symm
    simp

theorem udiv_eq_sdiv_of_neg_of_neg (ha : a.msb = true) (hb : b.msb = true)
    : (a / b = -a / -b ∧ a % b = -(-a % -b)) ↔ a = b := by
  constructor
  . rintro ⟨hdiv, -⟩
    by_contra hne
    have hne : a.toNat ≠ b.toNat := fun h => hne (BitVec.eq_of_toNat_eq h)
    have hdiv := congrArg BitVec.toNat hdiv
    rw [toNat_udiv, toNat_udiv, toNat_neg_of_msb ha, toNat_neg_of_msb hb] at hdiv
    have hlta := a.isLt
    have hltb := b.isLt
    have hposb : 0 < b.toNat := Nat.lt_of_lt_of_le (Nat.two_pow_pos _) (BitVec.toNat_ge_of_msb_true hb)
    obtain hlt | hgt := Nat.lt_or_gt_of_ne hne
    . have hpos : 0 < (2 ^ w - a.toNat) / (2 ^ w - b.toNat) := Nat.div_pos (by omega) (by omega)
      rw [Nat.div_eq_of_lt hlt] at hdiv
      omega
    . have hpos : 0 < a.toNat / b.toNat := Nat.div_pos (by omega) hposb
      rw [Nat.div_eq_of_lt (a := 2 ^ w - a.toNat) (by omega)] at hdiv
      omega
  . rintro rfl
    simp [udiv_self]

end

theorem udiv_eq_sdiv_iff (hzero : b ≠ 0)
    : (a / b = a.sdiv b ∧ a % b = a.srem b) ↔
        0 ≤ a.toInt ∧ (0 < b.toInt ∨ a.toInt < -b.toInt) ∨ a.toInt < 0 ∧ (b.toInt = 1 ∨ a = b) := by
  have hpos : 0 < b.toNat := by
    apply Nat.pos_of_ne_zero
    intro h
    exact hzero (BitVec.eq_of_toNat_eq (by simp [h]))
  have hlta := a.isLt
  have hltb := b.isLt
  have hinta := toInt_eq_msb_cond a
  have hintb := toInt_eq_msb_cond b
  rw [sdiv_eq, srem_eq]
  cases ha : a.msb with
  | false =>
    rw [ha, if_neg Bool.false_ne_true] at hinta
    cases hb : b.msb with
    | false =>
      rw [hb, if_neg Bool.false_ne_true] at hintb
      simp only [udiv_eq, true_and, true_iff]
      omega
    | true =>
      rw [hb, if_pos rfl] at hintb
      simp only [udiv_eq]
      rw [udiv_eq_sdiv_of_nonneg_of_neg ha hb]
      omega
  | true =>
    rw [ha, if_pos rfl] at hinta
    have hneg : a.toInt < 0 := by omega
    have hnonneg : ¬0 ≤ a.toInt := by omega
    cases hb : b.msb with
    | false =>
      rw [hb, if_neg Bool.false_ne_true] at hintb
      have hne : a ≠ b := by
        rintro rfl
        rw [ha] at hb
        contradiction
      simp only [udiv_eq, hneg, hnonneg, hne, or_false, true_and, false_and, false_or]
      rw [udiv_eq_sdiv_of_neg_of_pos ha hb hzero]
      omega
    | true =>
      rw [hb, if_pos rfl] at hintb
      have hne : b.toInt ≠ 1 := by omega
      simp only [udiv_eq, hneg, hnonneg, hne, true_and, false_and, false_or]
      exact udiv_eq_sdiv_of_neg_of_neg ha hb

end BitVec
