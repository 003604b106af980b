import Mathlib.Data.Nat.Count
import Mathlib.Logic.Function.Basic
import Nachos.Lib.Count
import Nachos.Filesys.OpenFile

/-!
This module contains `bitmap.cc`: a bitmap is a set of numbers, and `Find` takes the least number that
is not in it.
-/

namespace Nachos

namespace Filesys

open Function (update)

def bitsInByte : Nat := 8
def bitsInWord : Nat := 32

structure BitMap where
  numBits : Nat
  map : Nat → BitVec 32

namespace BitMap

def numWords (m : BitMap) : Int :=
  divRoundUp m.numBits bitsInWord

def bit (m : BitMap) (i : Nat) : Bool :=
  m.map (i / bitsInWord) &&& 1#32 <<< (i % bitsInWord) != 0

def setBit (m : BitMap) (i : Nat) : BitMap :=
  { m with map := update m.map (i / bitsInWord) (m.map (i / bitsInWord) ||| 1#32 <<< (i % bitsInWord)) }

def clearBit (m : BitMap) (i : Nat) : BitMap :=
  { m with map := update m.map (i / bitsInWord) (m.map (i / bitsInWord) &&& ~~~(1#32 <<< (i % bitsInWord))) }

def ofSize (numBits : Nat) : FS BitMap := do
  let memory ← new
  return (List.range numBits).foldl clearBit { numBits, map := memory.words }

def mark (m : BitMap) (which : Int) : FS BitMap :=
  if 0 ≤ which ∧ which < m.numBits then
    pure (m.setBit which.toNat)
  else
    Exit.abort .bit

def clear (m : BitMap) (which : Int) : FS BitMap :=
  if 0 ≤ which ∧ which < m.numBits then
    pure (m.clearBit which.toNat)
  else
    Exit.abort .bit

def test (m : BitMap) (which : Int) : FS Bool :=
  if 0 ≤ which ∧ which < m.numBits then
    pure (m.bit which.toNat)
  else
    Exit.abort .bit

/--
The `ASSERT`s in the loops of `Find` and `NumClear` hold, as the indices are those below `numBits`.
-/
def find (m : BitMap) : Int × BitMap :=
  match (List.range m.numBits).find? (fun i => !m.bit i) with
  | some i => (i, m.setBit i)
  | none => (-1, m)

def numClear (m : BitMap) : Nat :=
  Nat.count (fun i => !m.bit i) m.numBits

def fetchFrom (m : BitMap) (file : OpenFile) : FS BitMap := do
  let (n, data) ← file.readAt (m.numWords * 4) 0
  return { m with map := ((Buffer.ofWords m.map).blit 0 data n.toNat).words }

def writeBack (m : BitMap) (file : OpenFile) : FS Unit := do
  let _ ← file.writeAt (Buffer.ofWords m.map) (m.numWords * 4) 0

/-! ### A bitmap as a set -/

variable {m : BitMap} {i j : Nat}

theorem bitsInWord_eq : bitsInWord = 32 := rfl

theorem bit_eq (m : BitMap) (i : Nat) : m.bit i = (m.map (i / bitsInWord)).getLsbD (i % bitsInWord) := by
  have hlt : i % bitsInWord < 32 := Nat.mod_lt _ (by decide)
  have hne : BitVec.twoPow 32 (i % bitsInWord) ≠ 0#32 := by
    intro h
    have hbit := congrArg (fun w => w.getLsbD (i % bitsInWord)) h
    simp [hlt] at hbit
  unfold bit
  rw [← BitVec.twoPow_eq, BitVec.and_twoPow]
  cases (m.map (i / bitsInWord)).getLsbD (i % bitsInWord) with
  | false => rfl
  | true => simp [hne]

@[simp]
theorem numBits_setBit (m : BitMap) (i : Nat) : (m.setBit i).numBits = m.numBits := rfl

@[simp]
theorem numBits_clearBit (m : BitMap) (i : Nat) : (m.clearBit i).numBits = m.numBits := rfl

theorem eq_of_div_of_mod (hdiv : i / bitsInWord = j / bitsInWord) (hmod : i % bitsInWord = j % bitsInWord) : i = j := by
  rw [bitsInWord_eq] at *
  omega

theorem bit_setBit (m : BitMap) (i j : Nat) : (m.setBit i).bit j = (decide (i = j) || m.bit j) := by
  have hlt : j % bitsInWord < 32 := Nat.mod_lt _ (by decide)
  rw [bit_eq, bit_eq]
  unfold setBit
  by_cases hword : j / bitsInWord = i / bitsInWord
  . simp only [hword, Function.update_self, BitVec.getLsbD_or, ← BitVec.twoPow_eq, BitVec.getLsbD_twoPow]
    by_cases hij : i = j
    . simp [hij, hlt]
    . have hmod : i % bitsInWord ≠ j % bitsInWord := fun h => hij (eq_of_div_of_mod hword.symm h)
      simp [hij, hmod]
  . have hij : i ≠ j := by
      intro h
      rw [h] at hword
      exact hword rfl
    simp [Function.update_of_ne hword, hij]

theorem bit_clearBit (m : BitMap) (i j : Nat) : (m.clearBit i).bit j = (!decide (i = j) && m.bit j) := by
  have hlt : j % bitsInWord < 32 := Nat.mod_lt _ (by decide)
  rw [bit_eq, bit_eq]
  unfold clearBit
  by_cases hword : j / bitsInWord = i / bitsInWord
  . simp only [hword, Function.update_self, BitVec.getLsbD_and, BitVec.getLsbD_not, ← BitVec.twoPow_eq, BitVec.getLsbD_twoPow]
    by_cases hij : i = j
    . simp [hij, hlt]
    . have hmod : i % bitsInWord ≠ j % bitsInWord := fun h => hij (eq_of_div_of_mod hword.symm h)
      simp [hij, hmod, hlt]
  . have hij : i ≠ j := by
      intro h
      rw [h] at hword
      exact hword rfl
    simp [Function.update_of_ne hword, hij]

theorem foldl_clearBit (m : BitMap) (l : List Nat)
    : (l.foldl clearBit m).numBits = m.numBits ∧ ∀ i, i ∈ l → (l.foldl clearBit m).bit i = false := by
  induction l using List.reverseRecOn with
  | nil => simp
  | append_singleton l k ih =>
    simp only [List.foldl_append, List.foldl_cons, List.foldl_nil, numBits_clearBit, ih.1, bit_clearBit, true_and]
    intro i hi
    by_cases hik : k = i
    . simp [hik]
    . have hmem : i ∈ l := by
        simpa [Ne.symm hik] using hi
      simp [ih.2 i hmem]

theorem find_cases (m : BitMap)
    : (∃ i, i < m.numBits ∧ m.bit i = false ∧ (∀ j, j < i → m.bit j = true) ∧ m.find = ((i : Int), m.setBit i)) ∨
        (∀ i, i < m.numBits → m.bit i = true) ∧ m.find = (-1, m) := by
  unfold find
  cases h : (List.range m.numBits).find? (fun i => !m.bit i) with
  | none =>
    apply Or.inr
    refine ⟨?_, rfl⟩
    intro i hi
    have hbit := List.find?_eq_none.1 h i (List.mem_range.2 hi)
    simpa using hbit
  | some i =>
    apply Or.inl
    rw [List.find?_range_eq_some] at h
    refine ⟨i, ?_, ?_, ?_, rfl⟩
    . simpa using h.2.1
    . simpa using h.1
    . intro j hj
      simpa using h.2.2 j hj

theorem numClear_setBit (hlt : i < m.numBits) (hclear : m.bit i = false)
    : m.numClear = (m.setBit i).numClear + 1 := by
  have hagree : ∀ j, j < m.numBits → j ≠ i → ((!m.bit j) = true ↔ (!(m.setBit i).bit j) = true) := by
    intro j _ hj
    rw [bit_setBit]
    simp [Ne.symm hj]
  have hcount := Nat.count_of_agree hlt hagree
  rwa [if_neg (by simp [bit_setBit]), if_pos (by simp [hclear])] at hcount

theorem numClear_pos : 0 < m.numClear ↔ ∃ i, i < m.numBits ∧ m.bit i = false := by
  unfold numClear
  rw [Nat.pos_iff_ne_zero, Nat.count_ne_iff_exists]
  simp

theorem numClear_of_clear (h : ∀ i, i < m.numBits → m.bit i = false) : m.numClear = m.numBits := by
  unfold numClear
  rw [Nat.count_iff_forall]
  intro i hi
  rw [h i hi]
  rfl

theorem numClear_congr {m' : BitMap} (hbits : m.numBits = m'.numBits) (hbit : ∀ i, i < m'.numBits → m.bit i = m'.bit i)
    : m.numClear = m'.numClear := by
  unfold numClear
  rw [hbits]
  apply Nat.count_congr_lt
  intro i hi
  rw [hbit i hi]

def Marks (m : BitMap) (a : Int) : Prop :=
  0 ≤ a ∧ a < m.numBits ∧ m.bit a.toNat = true

theorem marks_congr {m' : BitMap} (hbits : m.numBits = m'.numBits) (hbit : ∀ i, i < m'.numBits → m.bit i = m'.bit i)
    (a : Int)
    : m.Marks a ↔ m'.Marks a := by
  unfold Marks
  rw [hbits]
  apply and_congr_right
  intro hnonneg
  apply and_congr_right
  intro hlt
  rw [hbit _ (by omega)]

theorem numClear_of_marks {l : List Int} (hmarks : ∀ a, m.Marks a ↔ a ∈ l) (hnodup : l.Nodup)
    : m.numClear + l.length = m.numBits := by
  have hmarked : (Finset.range m.numBits).filter (fun i => ¬(!m.bit i) = true) = (l.map Int.toNat).toFinset := by
    ext i
    simp only [Finset.mem_filter, Finset.mem_range, List.mem_toFinset, List.mem_map, ← hmarks, Marks]
    constructor
    . intro ⟨hlt, hbit⟩
      exact ⟨i, ⟨by omega, by omega, by simpa using hbit⟩, Int.toNat_natCast i⟩
    . intro ⟨a, ⟨hnonneg, hlt, hbit⟩, heq⟩
      subst heq
      exact ⟨by omega, by simp [hbit]⟩
  have hinj : (l.map Int.toNat).Nodup := by
    apply List.Nodup.map_on _ hnodup
    intro a ha b hb heq
    have hnonneg := ((hmarks a).2 ha).1
    have hnonneg' := ((hmarks b).2 hb).1
    omega
  have hcard := Finset.card_filter_add_card_filter_not (s := Finset.range m.numBits) (fun i => (!m.bit i) = true)
  rw [hmarked, List.toFinset_card_of_nodup hinj, List.length_map, Finset.card_range] at hcard
  unfold numClear
  rw [Nat.count_eq_card_filter_range]
  exact hcard

theorem marks_setBit (hlt : i < m.numBits) (a : Int) : (m.setBit i).Marks a ↔ m.Marks a ∨ a = i := by
  unfold Marks
  rw [numBits_setBit, bit_setBit, Bool.or_eq_true, decide_eq_true_eq]
  constructor
  . intro ⟨hnonneg, hlt, hbit⟩
    cases hbit with
    | inl heq => exact .inr (by omega)
    | inr hbit => exact .inl ⟨hnonneg, hlt, hbit⟩
  . intro ha
    cases ha with
    | inl hmarks => exact ⟨hmarks.1, hmarks.2.1, .inr hmarks.2.2⟩
    | inr heq => exact ⟨by omega, by omega, .inl (by omega)⟩

theorem marks_clearBit (i : Nat) (a : Int) : (m.clearBit i).Marks a ↔ m.Marks a ∧ a ≠ i := by
  unfold Marks
  rw [numBits_clearBit, bit_clearBit, Bool.and_eq_true, Bool.not_eq_true', decide_eq_false_iff_not]
  constructor
  . intro ⟨hnonneg, hlt, hne, hbit⟩
    exact ⟨⟨hnonneg, hlt, hbit⟩, by omega⟩
  . intro ⟨⟨hnonneg, hlt, hbit⟩, hne⟩
    exact ⟨hnonneg, hlt, by omega, hbit⟩

theorem not_marks_of_clear (hclear : m.bit i = false) : ¬m.Marks i := by
  intro hmarks
  have hbit := hmarks.2.2
  rw [Int.toNat_natCast, hclear] at hbit
  cases hbit

section

open Exit

variable {s : Store}

theorem Returns.ofSize {n : Nat} {value : BitMap → Store → Prop}
    (h : ∀ m s', m.numBits = n → (∀ i, i < n → m.bit i = false) → s'.disk = s.disk →
      (∀ i, s'.memory i = s.memory (i + 1)) → value m s')
    : Returns (ofSize n) s value := by
  unfold BitMap.ofSize
  rw [returns_bind]
  refine ⟨_, _, rfl, ?_⟩
  dsimp only
  rw [returns_pure]
  have hclear := foldl_clearBit { numBits := n, map := (s.memory 0).words } (List.range n)
  apply h
  . exact hclear.1
  . exact fun i hi => hclear.2 i (List.mem_range.2 hi)
  . rfl
  . exact fun i => rfl

theorem returns_mark {which : Nat} (h : which < m.numBits) {value : BitMap → Store → Prop}
    : Returns (m.mark which) s value ↔ value (m.setBit which) s := by
  unfold mark
  rw [if_pos (by omega), returns_pure, Int.toNat_natCast]

theorem returns_clear {which : Nat} (h : which < m.numBits) {value : BitMap → Store → Prop}
    : Returns (m.clear which) s value ↔ value (m.clearBit which) s := by
  unfold clear
  rw [if_pos (by omega), returns_pure, Int.toNat_natCast]

theorem returns_test {which : Nat} (h : which < m.numBits) {value : Bool → Store → Prop}
    : Returns (m.test which) s value ↔ value (m.bit which) s := by
  unfold test
  rw [if_pos (by omega), returns_pure, Int.toNat_natCast]

end

/-! ### The bitmap in a file -/

def ofBytes (numBits : Nat) (b : Buffer) : BitMap where
  numBits := numBits
  map := b.words

theorem numWords_eq (m : BitMap) : m.numWords * 4 = ((m.numBits + 31) / 32 * 4 : Nat) := by
  unfold numWords divRoundUp
  rw [Int.tdiv_eq_ediv_of_nonneg (by omega), Int.tmod_eq_emod_of_nonneg (by omega), bitsInWord_eq]
  split
  next => omega
  next => omega

theorem bit_ofBytes_congr {b b' : Buffer} {n k : Nat} (h : ∀ i, i < k → b i = b' i) (hk : (n + 31) / 32 * 4 ≤ k)
    (hi : i < n)
    : (ofBytes n b).bit i = (ofBytes n b').bit i := by
  rw [bit_eq, bit_eq]
  unfold ofBytes
  dsimp only
  have hword : b.words (i / bitsInWord) = b'.words (i / bitsInWord) := by
    apply Buffer.word_congr
    intro j _ hj
    rw [bitsInWord_eq] at hj
    exact h j (by omega)
  rw [hword]

theorem bit_ofBytes_ofWords (m : BitMap) (i : Nat) : (ofBytes m.numBits (Buffer.ofWords m.map)).bit i = m.bit i := by
  unfold ofBytes
  rw [Buffer.words_ofWords]

section

open Exit

variable {s : Store} {file : OpenFile}

theorem returns_fetchFrom (hvalid : file.hdr.Valid)
    (hlength : ((m.numBits + 31) / 32 * 4 : Nat) ≤ file.hdr.numBytes)
    : Returns (m.fetchFrom file) s (fun m' s' =>
        s'.disk = s.disk ∧ m'.numBits = m.numBits ∧
        ∀ i, i < m.numBits → m'.bit i = (ofBytes m.numBits (file.hdr.byte s.disk)).bit i) := by
  unfold fetchFrom
  rw [numWords_eq]
  apply (OpenFile.returns_readAt_zero hvalid hlength).bind
  intro r s' ⟨hs, hcount, hdata⟩
  rw [returns_pure, hcount, Int.toNat_natCast]
  refine ⟨hs, rfl, ?_⟩
  intro i hi
  apply bit_ofBytes_congr _ (Nat.le_refl _) hi
  intro j hj
  rw [Buffer.blit_apply_of_lt _ _ hj]
  exact hdata j hj

theorem returns_writeBack (hvalid : file.hdr.Valid)
    (hlength : ((m.numBits + 31) / 32 * 4 : Nat) ≤ file.hdr.numBytes)
    : Returns (m.writeBack file) s (fun _ s' =>
        file.hdr.Written (Buffer.ofWords m.map) 0 ((m.numBits + 31) / 32 * 4) s.disk s'.disk) := by
  unfold writeBack
  rw [numWords_eq]
  apply (OpenFile.returns_writeAt_zero hvalid _ hlength).bind
  intro r s' hwritten
  rw [returns_pure]
  exact hwritten

theorem bit_of_written {hdr : FileHeader} {disk disk' : Nat → Buffer}
    (hlength : ((m.numBits + 31) / 32 * 4 : Nat) ≤ hdr.numBytes)
    (hwritten : hdr.Written (Buffer.ofWords m.map) 0 ((m.numBits + 31) / 32 * 4) disk disk')
    (hi : i < m.numBits)
    : (ofBytes m.numBits (hdr.byte disk')).bit i = m.bit i := by
  rw [← bit_ofBytes_ofWords m]
  apply bit_ofBytes_congr _ (Nat.le_refl _) hi
  intro j hj
  rw [hwritten.byte j (by omega), if_pos ⟨Nat.zero_le _, by omega⟩, Nat.sub_zero]

end

end BitMap

end Filesys

end Nachos
