import Nachos.Lib.DoubleWord
import Nachos.Machine.Signed

/-!
This module contains the proof that `Mult` computes the product of two words.
-/

namespace Nachos

section

variable {a : Word}

theorem and_one_eq_zero_iff : a &&& 1 = 0 ↔ a.toNat % 2 = 0 := by
  exact Machine.and_ones_eq_zero (k := 1) (by decide) a

theorem and_mask_eq_zero_iff : a &&& 0xfffffffe = 0 ↔ a.toNat / 2 = 0 := by
  have hmask : ∀ i < 32, (0xfffffffe : Word).getLsbD i = decide (1 ≤ i) := by decide
  have hshift : a &&& (0xfffffffe : Word) = (a >>> 1) <<< 1 := by
    apply BitVec.eq_of_getLsbD_eq
    intro i hi
    rw [BitVec.getLsbD_and, hmask i hi, BitVec.getLsbD_shiftLeft, BitVec.getLsbD_ushiftRight]
    grind
  have ha := a.isLt
  rw [hshift, ← BitVec.toNat_inj, BitVec.toNat_shiftLeft, BitVec.toNat_ushiftRight, Nat.shiftRight_one,
    Nat.shiftLeft_eq, Nat.mod_eq_of_lt (by omega)]
  change a.toNat / 2 * 2 ^ 1 = 0 ↔ _
  omega

theorem toNat_sshiftRight_mod {n : Nat} (hn : n < 32)
    : (a.sshiftRight 1).toNat % 2 ^ n = a.toNat / 2 % 2 ^ n := by
  apply Nat.eq_of_testBit_eq
  intro i
  rw [Nat.testBit_mod_two_pow, Nat.testBit_mod_two_pow, Nat.testBit_div_two]
  by_cases hi : i < n
  . rw [BitVec.testBit_toNat, BitVec.testBit_toNat, BitVec.getLsbD_sshiftRight]
    grind
  . simp [hi]

end

namespace MultState

def addend (s : MultState) : BitVec 64 := s.bHi ++ s.bLo

def sum (s : MultState) : BitVec 64 := s.hi ++ s.lo

theorem addend_shift (s : MultState) : (multLoop.shift s).addend = s.addend * 2 := by
  have htop : s.bLo &&& 0x80000000 ≠ 0 ↔ s.bLo.msb = true := by
    have h := and_signBit_eq_zero s.bLo
    rw [BitVec.nonneg_iff] at h
    rw [← Bool.not_eq_false, ← h]
    rfl
  have hdouble : s.addend * (2 : BitVec 64) = s.addend <<< 1 :=
    (BitVec.shiftLeft_eq_mul_twoPow s.addend 1).symm
  rw [hdouble]
  unfold addend
  rw [BitVec.append_shiftLeft_one]
  unfold multLoop.shift
  simp only [htop]

theorem sum_shift (s : MultState) : (multLoop.shift s).sum = s.sum := rfl

def add (s : MultState) : MultState :=
  { s with
    lo := s.lo + s.bLo
    hi := (if s.lo + s.bLo < s.bLo then s.hi + 1 else s.hi) + s.bHi }

theorem sum_add (s : MultState) : s.add.sum = s.sum + s.addend :=
  (BitVec.append_add_append s.hi s.lo s.bHi s.bLo).symm

end MultState

theorem multLoop_succ (n : Nat) (s : MultState)
    : multLoop (n + 1) s =
        if s.a.toNat % 2 = 0 then
          multLoop n (multLoop.shift s)
        else if s.a.toNat / 2 = 0 then
          s.add
        else
          multLoop n (multLoop.shift s.add) := by
  rw [multLoop]
  simp only [ne_eq, and_one_eq_zero_iff, and_mask_eq_zero_iff, ite_not]
  rfl

theorem multLoop_sum {n : Nat} (hn : n ≤ 32) (s : MultState)
    : (multLoop n s).sum = s.sum + s.addend * BitVec.ofNat 64 (s.a.toNat % 2 ^ n) := by
  induction n generalizing s with
  | zero => simp [multLoop, Nat.mod_one]
  | succ n ih =>
    have hshift (s : MultState) : (multLoop n (multLoop.shift s)).sum =
        s.sum + s.addend * BitVec.ofNat 64 (2 * (s.a.toNat / 2 % 2 ^ n)) := by
      rw [ih (by omega), s.sum_shift, s.addend_shift]
      change _ + _ * BitVec.ofNat 64 ((s.a.sshiftRight 1).toNat % 2 ^ n) = _
      rw [toNat_sshiftRight_mod (by omega), BitVec.ofNat_mul, BitVec.mul_assoc]
      rfl
    have hbits : s.a.toNat % 2 ^ (n + 1) = s.a.toNat % 2 + 2 * (s.a.toNat / 2 % 2 ^ n) := by
      rw [Nat.pow_succ', Nat.mod_mul]
    rw [multLoop_succ, hbits]
    split
    next heven => rw [hshift, heven, Nat.zero_add]
    next hodd =>
      have hodd : s.a.toNat % 2 = 1 := by omega
      rw [hodd, BitVec.ofNat_add, BitVec.mul_add, BitVec.mul_one, ← BitVec.add_assoc, ← s.sum_add]
      split
      next hlast => simp [hlast]
      next => exact hshift s.add

theorem multLoop_product (a b : Word)
    : (multLoop 32 { a, bLo := b, bHi := 0, lo := 0, hi := 0 }).sum =
        BitVec.ofNat 64 (a.toNat * b.toNat) := by
  have haddend : (0 : Word) ++ b = BitVec.ofNat 64 b.toNat := by
    rw [BitVec.append_eq_ofNat]
    simp
  have ha : a.toNat % 2 ^ 32 = a.toNat := Nat.mod_eq_of_lt a.isLt
  rw [multLoop_sum (Nat.le_refl 32), MultState.addend, haddend]
  dsimp only
  rw [ha, ← BitVec.ofNat_mul, Nat.mul_comm]
  have hsum : MultState.sum { a, bLo := b, bHi := 0, lo := 0, hi := 0 } = 0 := BitVec.zero_append_zero
  rw [hsum]
  exact BitVec.zero_add _

def mult.operand (a : Word) (signedArith : Bool) : Nat :=
  (if signedArith && a.slt 0 then -a else a).toNat

theorem append_mult (a b : Word) (signedArith : Bool)
    : (mult a b signedArith).1 ++ (mult a b signedArith).2 =
        let product : Int := mult.operand a signedArith * mult.operand b signedArith
        let negative := (signedArith && a.slt 0) ^^ (signedArith && b.slt 0)
        BitVec.ofInt 64 (if negative then -product else product) := by
  unfold mult
  split
  next h =>
    have hzero : (mult.operand a signedArith : Int) * mult.operand b signedArith = 0 := by
      unfold mult.operand
      obtain rfl | rfl := h
      . simp
      . simp
    simp [hzero]
  next =>
    unfold mult.operand
    dsimp only
    split
    . rw [BitVec.ofInt_neg, ← Int.natCast_mul, BitVec.ofInt_natCast, ← multLoop_product]
      exact (BitVec.neg_append _ _).symm
    . rw [← Int.natCast_mul, BitVec.ofInt_natCast, ← multLoop_product]
      rfl

theorem operand_unsigned (a : Word) : mult.operand a false = a.toNat := rfl

theorem toInt_eq_operand (a : Word)
    : a.toInt = if a.slt 0 = true then -(mult.operand a true : Int) else mult.operand a true := by
  have ha := a.isLt
  have htoInt := BitVec.toInt_eq_toNat_cond a
  have hslt : a.slt 0 = true ↔ a.toInt < 0 := BitVec.slt_iff_toInt_lt
  unfold mult.operand
  rw [Bool.true_and]
  split
  next h =>
    rw [hslt] at h
    rw [BitVec.toNat_neg]
    omega
  next h =>
    rw [hslt] at h
    omega

theorem operand_signed_le (a : Word) : mult.operand a true ≤ 2 ^ 31 := by
  have hle := BitVec.le_toInt a
  have hlt := BitVec.toInt_lt (x := a)
  rw [toInt_eq_operand] at hle hlt
  split at hle
  . omega
  next h =>
    rw [if_neg h] at hlt
    omega

theorem toInt_ofInt_of_natAbs_le {i : Int} (h : i.natAbs ≤ 2 ^ 31 * 2 ^ 31)
    : (BitVec.ofInt 64 i).toInt = i := by
  apply BitVec.toInt_ofInt_eq_self
  . decide
  . omega
  . omega

theorem multLoop_msb {s : MultState} (n : Nat) (h : s.a.msb = true) : (multLoop n s).a.msb = true := by
  -- `Mult` never leaves its loop early if `a` has the top bit set.
  induction n generalizing s with
  | zero => exact h
  | succ n ih =>
    have hshift : (s.a.sshiftRight 1).msb = true := by
      rw [BitVec.msb_sshiftRight, h]
    rw [multLoop_succ]
    split
    . exact ih hshift
    . split
      . exact h
      . exact ih hshift

theorem mult_exact (a b : Word)
    : ((mult a b true).1 ++ (mult a b true).2).toInt = a.toInt * b.toInt ∧
      ((mult a b false).1 ++ (mult a b false).2).toNat = a.toNat * b.toNat ∧
      (a.msb = true →
        ∀ n, (multLoop n { a, bLo := b, bHi := 0, lo := 0, hi := 0 }).a &&& 0xfffffffe ≠ 0) := by
  refine ⟨?_, ?_, ?_⟩
  . have hbound : mult.operand a true * mult.operand b true ≤ 2 ^ 31 * 2 ^ 31 :=
      Nat.mul_le_mul (operand_signed_le a) (operand_signed_le b)
    rw [append_mult, toInt_ofInt_of_natAbs_le, toInt_eq_operand a, toInt_eq_operand b]
    . cases a.slt 0 <;> cases b.slt 0 <;> simp
    . split
      . rw [Int.natAbs_neg]
        exact hbound
      . exact hbound
  . have hproduct : a.toNat * b.toNat < 2 ^ 32 * 2 ^ 32 := Nat.mul_lt_mul'' a.isLt b.isLt
    rw [append_mult, operand_unsigned, operand_unsigned]
    exact Nat.mod_eq_of_lt hproduct
  . intro h n hzero
    have hmsb : _ := multLoop_msb (s := { a, bLo := b, bHi := 0, lo := 0, hi := 0 }) n h
    rw [and_mask_eq_zero_iff] at hzero
    rw [BitVec.msb_eq_decide, decide_eq_true_iff] at hmsb
    omega

end Nachos
