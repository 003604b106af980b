import Mathlib.Data.List.Basic
import Mathlib.Tactic.Ring

/-!
This module contains how numbers are stored in memory as bytes, and how `bcopy` copies them.
-/

namespace Bytes

/--
Little endian, as on a i386.
-/
def encode : Nat → Nat → List UInt8
  | 0, _ => []
  | k + 1, n => UInt8.ofNat n :: encode k (n / 256)

def decode : List UInt8 → Nat
  | [] => 0
  | byte :: rest => byte.toNat + 256 * decode rest

@[simp]
theorem length_encode (k n : Nat) : (encode k n).length = k := by
  induction k generalizing n with
  | zero => rfl
  | succ k ih => simp [encode, ih]

theorem decode_encode {k n : Nat} (h : n < 256 ^ k) : decode (encode k n) = n := by
  induction k generalizing n with
  | zero =>
    rw [Nat.pow_zero] at h
    change 0 = n
    omega
  | succ k ih =>
    have hlt : n / 256 < 256 ^ k := by
      rw [Nat.div_lt_iff_lt_mul (by decide)]
      rwa [Nat.pow_succ] at h
    rw [encode, decode, ih hlt]
    have hbyte : (UInt8.ofNat n).toNat = n % 256 := by simp
    omega

def word (x : UInt32) : List UInt8 := encode 4 x.toNat

def toWord (bytes : List UInt8) : UInt32 := UInt32.ofNat (decode (bytes.take 4))

@[simp]
theorem length_word (x : UInt32) : (word x).length = 4 := length_encode 4 _

@[simp]
theorem toWord_word_append (x : UInt32) (rest : List UInt8) : toWord (word x ++ rest) = x := by
  have hlt : x.toNat < 256 ^ 4 := x.toNat_lt
  rw [toWord, List.take_left' (length_word x), word, decode_encode hlt, UInt32.ofNat_toNat]

def bcopy (src : List α) (length : Nat) (dst : List α) (offset : Nat) : List α :=
  dst.take offset ++ src.take length ++ dst.drop (offset + length)

section

variable {src dst : List α} {length offset : Nat}

@[simp]
theorem length_bcopy (hsrc : length ≤ src.length) (hdst : offset + length ≤ dst.length)
    : (bcopy src length dst offset).length = dst.length := by
  simp only [bcopy, List.length_append, List.length_take, List.length_drop]
  omega

theorem drop_bcopy (hsrc : length ≤ src.length) (hdst : offset ≤ dst.length)
    : ((bcopy src length dst offset).drop offset).take length = src.take length := by
  rw [bcopy, List.append_assoc, List.drop_left', List.take_left']
  . rw [List.length_take]
    omega
  . rw [List.length_take]
    omega

end

end Bytes
