import Mathlib.Algebra.Ring.Int.Defs
import Mathlib.Logic.Function.Basic

/-!
This module contains byte memory of any size: copying a piece of it, and the little endian words and
the C strings in it.
-/

/--
A piece of memory by offset. How many of the bytes count is up to whoever uses it.
-/
abbrev Buffer : Type :=
  Nat → BitVec 8

namespace Buffer

def blit (dst : Buffer) (offset : Nat) (src : Buffer) (n : Nat) : Buffer :=
  fun i => if offset ≤ i ∧ i < offset + n then src (i - offset) else dst i

def drop (b : Buffer) (n : Nat) : Buffer :=
  fun i => b (n + i)

@[simp]
theorem drop_apply (b : Buffer) (n i : Nat) : b.drop n i = b (n + i) := rfl

theorem blit_apply_of_lt (dst src : Buffer) {n i : Nat} (h : i < n)
    : dst.blit 0 src n i = src i := by
  unfold blit
  rw [if_pos (by omega)]
  rfl

theorem blit_apply_of_le (dst src : Buffer) {offset n i : Nat} (h : offset + n ≤ i)
    : dst.blit offset src n i = dst i := by
  unfold blit
  rw [if_neg (by omega)]

theorem blit_apply_of_lt_offset (dst src : Buffer) {offset n i : Nat} (h : i < offset)
    : dst.blit offset src n i = dst i := by
  unfold blit
  rw [if_neg (by omega)]

/-! ### The first bytes -/

def take (b : Buffer) (n : Nat) : List (BitVec 8) :=
  (List.range n).map b

@[simp]
theorem length_take (b : Buffer) (n : Nat) : (b.take n).length = n := by
  simp [take]

theorem take_add (b : Buffer) (m n : Nat) : b.take (m + n) = b.take m ++ (b.drop m).take n := by
  unfold take
  rw [List.range_add, List.map_append, List.map_map]
  rfl

theorem take_congr {a b : Buffer} {n : Nat} (h : ∀ i, i < n → a i = b i) : a.take n = b.take n := by
  apply List.map_congr_left
  intro i hi
  exact h i (List.mem_range.1 hi)

/-! ### Words -/

def word (b : Buffer) (offset : Nat) : BitVec 32 :=
  b (offset + 3) ++ b (offset + 2) ++ b (offset + 1) ++ b offset

def int (b : Buffer) (offset : Nat) : Int :=
  (b.word offset).toInt

def ofWords (words : Nat → BitVec 32) : Buffer :=
  fun i => (words (i / 4)).extractLsb' (8 * (i % 4)) 8

def words (b : Buffer) : Nat → BitVec 32 :=
  fun i => b.word (4 * i)

theorem word_congr {b b' : Buffer} {offset : Nat} (h : ∀ i, offset ≤ i → i < offset + 4 → b i = b' i)
    : b.word offset = b'.word offset := by
  unfold word
  rw [h offset (by omega) (by omega), h (offset + 1) (by omega) (by omega), h (offset + 2) (by omega) (by omega),
    h (offset + 3) (by omega) (by omega)]

theorem int_congr {b b' : Buffer} {offset : Nat} (h : ∀ i, offset ≤ i → i < offset + 4 → b i = b' i)
    : b.int offset = b'.int offset := by
  unfold int
  rw [word_congr h]

theorem int_blit (dst src : Buffer) (offset : Nat) : (dst.blit offset src 4).int offset = src.int 0 := by
  have h (i : Nat) (hi : i < 4) : dst.blit offset src 4 (offset + i) = src i := by
    unfold blit
    rw [if_pos (by omega), Nat.add_sub_cancel_left]
  have h0 := h 0 (by decide)
  rw [Nat.add_zero] at h0
  unfold int word
  rw [h0, h 1 (by decide), h 2 (by decide), h 3 (by decide)]

theorem append_extractLsb' (w : BitVec 32)
    : w.extractLsb' 24 8 ++ w.extractLsb' 16 8 ++ w.extractLsb' 8 8 ++ w.extractLsb' 0 8 = w := by
  ext i hi
  simp only [BitVec.getElem_append, BitVec.getElem_extractLsb']
  split
  next => rw [Nat.zero_add, BitVec.getLsbD_eq_getElem]
  next =>
    split
    next => rw [show 8 + (i - 8) = i from by omega, BitVec.getLsbD_eq_getElem]
    next =>
      split
      next => rw [show 16 + (i - 8 - 8) = i from by omega, BitVec.getLsbD_eq_getElem]
      next => rw [show 24 + (i - 8 - 8 - 8) = i from by omega, BitVec.getLsbD_eq_getElem]

@[simp]
theorem words_ofWords (w : Nat → BitVec 32) : words (ofWords w) = w := by
  funext i
  have h (j : Nat) (hj : j < 4) : ofWords w (4 * i + j) = (w i).extractLsb' (8 * j) 8 := by
    unfold ofWords
    rw [show (4 * i + j) / 4 = i from by omega, show (4 * i + j) % 4 = j from by omega]
  have h0 := h 0 (by decide)
  rw [Nat.add_zero] at h0
  unfold words word
  rw [h0, h 1 (by decide), h 2 (by decide), h 3 (by decide)]
  apply append_extractLsb'

theorem int_ofWords (w : Nat → BitVec 32) (i : Nat) : (ofWords w).int (4 * i) = (w i).toInt := by
  change (words (ofWords w) i).toInt = _
  rw [words_ofWords]

theorem toInt_ofInt_of_int {x : Int} (hlower : -2 ^ 31 ≤ x) (hupper : x < 2 ^ 31) : (BitVec.ofInt 32 x).toInt = x := by
  rw [BitVec.toInt_ofInt]
  apply Int.bmod_eq_of_le
  . omega
  . omega

/-! ### Strings -/

def str (b : Buffer) : Nat → List (BitVec 8)
  | 0 => []
  | n + 1 => if b 0 = 0 then [] else b 0 :: str (b.drop 1) n

def strncmp (a b : Buffer) : Nat → Int
  | 0 => 0
  | n + 1 =>
    if a 0 ≠ b 0 then
      (a 0).toNat - (b 0).toNat
    else if a 0 = 0 then
      0
    else
      strncmp (a.drop 1) (b.drop 1) n

def ofChars (chars : List (BitVec 8)) : Buffer :=
  fun i => chars.getD i 0

theorem str_congr {a b : Buffer} {n : Nat} (h : ∀ i, i < n → a i = b i) : a.str n = b.str n := by
  induction n generalizing a b with
  | zero => rfl
  | succ n ih =>
    have h0 := h 0 (by omega)
    have htail : (a.drop 1).str n = (b.drop 1).str n := by
      apply ih
      intro i hi
      exact h (1 + i) (by omega)
    simp only [str, h0, htail]

theorem strncmp_eq_zero_iff (a b : Buffer) (n : Nat) : strncmp a b n = 0 ↔ a.str n = b.str n := by
  induction n generalizing a b with
  | zero => simp [strncmp, str]
  | succ n ih =>
    unfold strncmp str
    by_cases hne : a 0 = b 0
    . rw [if_neg (not_not_intro hne), ← hne]
      split
      next => simp
      next => simp [ih]
    . rw [if_pos hne]
      have hdiff : ((a 0).toNat : Int) - (b 0).toNat ≠ 0 := by
        intro h
        exact hne (BitVec.eq_of_toNat_eq (by omega))
      split
      next ha =>
        split
        next hb => exact absurd (ha.trans hb.symm) hne
        next => simp [hdiff]
      next =>
        split
        next => simp [hdiff]
        next => simp [hdiff, hne]

theorem take_ofChars (chars : List (BitVec 8)) : (ofChars chars).take chars.length = chars := by
  apply List.ext_getElem
  . simp
  . intro i hi hi'
    simp [take, ofChars, hi']

theorem ofChars_take {chars : List (BitVec 8)} {n i : Nat} (h : i < (chars.take n).length)
    : ofChars (chars.take n) i = ofChars chars i := by
  rw [List.length_take] at h
  simp [ofChars, List.getElem?_take_of_lt (show i < n by omega)]

theorem ofChars_drop (chars : List (BitVec 8)) (n i : Nat) : ofChars (chars.drop n) i = ofChars chars (n + i) := by
  simp [ofChars]

theorem ofChars_cons_drop (c : BitVec 8) (chars : List (BitVec 8))
    : (ofChars (c :: chars)).drop 1 = ofChars chars := by
  funext i
  simp [ofChars, Nat.add_comm 1 i]

theorem str_ofChars {chars : List (BitVec 8)} (h : 0 ∉ chars) (n : Nat)
    : (ofChars chars).str n = chars.take n := by
  induction n generalizing chars with
  | zero => simp [str]
  | succ n ih =>
    cases chars with
    | nil => simp [str, ofChars]
    | cons c chars =>
      have hc : c ≠ 0 := by
        intro hc
        exact h (hc ▸ List.mem_cons_self)
      have htail : (ofChars chars).str n = chars.take n := by
        apply ih
        intro hmem
        exact h (List.mem_cons_of_mem _ hmem)
      have hhead : ofChars (c :: chars) 0 = c := rfl
      rw [str, ofChars_cons_drop, htail, hhead, if_neg hc, List.take_succ_cons]

/-! ### Strings of any length -/

def cstr (b : Buffer) : Nat → Option (List (BitVec 8))
  | 0 => none
  | n + 1 => if b 0 = 0 then some [] else (cstr (b.drop 1) n).map (b 0 :: ·)

theorem cstr_eq_some_iff {b : Buffer} {n : Nat} {chars : List (BitVec 8)}
    : b.cstr n = some chars ↔ b.str n = chars ∧ chars.length < n := by
  induction n generalizing b chars with
  | zero => simp [cstr]
  | succ n ih =>
    unfold cstr str
    split
    next =>
      simp only [Option.some.injEq, iff_self_and]
      intro h
      subst h
      exact Nat.succ_pos n
    next =>
      simp only [Option.map_eq_some_iff, ih]
      constructor
      . intro ⟨rest, ⟨hstr, hlt⟩, heq⟩
        subst heq
        rw [hstr]
        exact ⟨rfl, by rw [List.length_cons]; omega⟩
      . intro ⟨heq, hlt⟩
        subst heq
        rw [List.length_cons] at hlt
        exact ⟨_, ⟨rfl, by omega⟩, rfl⟩

theorem take_str (b : Buffer) {m n : Nat} (h : m ≤ n) : (b.str n).take m = b.str m := by
  induction n generalizing b m with
  | zero =>
    rw [Nat.le_zero.1 h]
    rfl
  | succ n ih =>
    cases m with
    | zero => rfl
    | succ m =>
      unfold str
      split
      next => rfl
      next => rw [List.take_succ_cons, ih _ (by omega)]

theorem str_of_nul {b : Buffer} (h : b 0 = 0) (n : Nat) : b.str n = [] := by
  cases n with
  | zero => rfl
  | succ n => exact if_pos h

theorem str_of_ne {b : Buffer} (h : b 0 ≠ 0) (n : Nat) : b.str (n + 1) = b 0 :: (b.drop 1).str n :=
  if_neg h

theorem length_str_le (b : Buffer) (n : Nat) : (b.str n).length ≤ n := by
  rw [← b.take_str (Nat.le_refl n), List.length_take]
  exact Nat.min_le_left _ _

theorem length_str_succ_le_iff (b : Buffer) (n : Nat)
    : (b.str (n + 1)).length ≤ n ↔ (b.str n).length < n ∨ b n = 0 := by
  induction n generalizing b with
  | zero =>
    by_cases h : b 0 = 0
    . rw [str_of_nul h]
      exact iff_of_true (Nat.le_refl 0) (.inr h)
    . rw [str_of_ne h]
      exact iff_of_false (Nat.not_succ_le_zero _) (fun hor => hor.elim (Nat.not_lt_zero _) h)
  | succ n ih =>
    by_cases h : b 0 = 0
    . rw [str_of_nul h, str_of_nul h]
      exact iff_of_true (Nat.zero_le _) (.inl (Nat.succ_pos n))
    . have hstep := ih (b.drop 1)
      rw [drop_apply, Nat.add_comm 1 n] at hstep
      rw [str_of_ne h, str_of_ne h, List.length_cons, List.length_cons, Nat.succ_le_succ_iff,
        Nat.succ_lt_succ_iff, hstep]

theorem cstr_of_terminated {b : Buffer} {n size : Nat} (h : (b.str (n + 1)).length ≤ n) (hsize : n + 1 ≤ size)
    : b.cstr size = some (b.str n) := by
  have hshort := b.take_str (Nat.le_succ n)
  have hlong := b.take_str hsize
  have hlength : (b.str size).length ≤ n := by
    rw [← hlong, List.length_take] at h
    omega
  rw [List.take_of_length_le (by omega)] at hshort hlong
  rw [cstr_eq_some_iff]
  rw [← hlong] at hshort
  exact ⟨hshort, by rw [← hshort]; omega⟩

theorem lt_length_of_cstr {b : Buffer} {n size : Nat} {chars : List (BitVec 8)} (h : ¬(b.str (n + 1)).length ≤ n)
    (hsize : n + 1 ≤ size) (hchars : b.cstr size = some chars)
    : n < chars.length := by
  obtain ⟨hstr, _⟩ := cstr_eq_some_iff.1 hchars
  rw [← b.take_str hsize, hstr, List.length_take] at h
  omega

end Buffer
