import Mathlib.Data.BitVec
import Mathlib.Data.Set.Lattice
import Mathlib.Order.CompletePartialOrder
import Nachos.Lib.Buffer

/-!
This module contains the memory of a machine with addresses of 32 bits: words in little endian order, and when
a store leaves a word or an area of the memory alone.
-/

abbrev Ram : Type :=
  BitVec 32 → BitVec 8

namespace Ram

/--
`n` bytes from an address on. They may wrap around the end of the memory.
-/
def area (a : BitVec 32) (n : Nat) : Set (BitVec 32) :=
  {x | (x - a).toNat < n}

abbrev bytes (a : BitVec 32) : Set (BitVec 32) :=
  area a 4

def load (m : Ram) (a : BitVec 32) : BitVec 32 :=
  m (a + 3) ++ m (a + 2) ++ m (a + 1) ++ m a

def store (m : Ram) (a : BitVec 32) (value : BitVec 32) : Ram :=
  fun x => if (x - a).toNat < 4 then value.extractLsb' (8 * (x - a).toNat) 8 else m x

theorem mem_area {a x : BitVec 32} {n : Nat} : x ∈ area a n ↔ (x - a).toNat < n := Iff.rfl

theorem add_mem_area {a k : BitVec 32} {n : Nat} : a + k ∈ area a n ↔ k.toNat < n := by
  rw [mem_area, add_sub_cancel_left]

theorem area_add_subset {a k : BitVec 32} {m n : Nat} (h : k.toNat + m ≤ n) : area (a + k) m ⊆ area a n := by
  intro x hx
  rw [mem_area] at *
  bv_omega

theorem area_subset {a : BitVec 32} {m n : Nat} (h : m ≤ n) : area a m ⊆ area a n :=
  fun _ hx => Nat.lt_of_lt_of_le hx h

theorem disjoint_area_add {a k l : BitVec 32} {m n : Nat} (h : k.toNat + m ≤ l.toNat) (hl : l.toNat + n ≤ 2 ^ 32)
    : Disjoint (area (a + k) m) (area (a + l) n) := by
  rw [Set.disjoint_left]
  intro x hx hx'
  rw [mem_area] at *
  bv_omega

theorem disjoint_area {a b : BitVec 32} {m n : Nat} (h : a.toNat + m ≤ b.toNat) (hn : b.toNat + n ≤ 2 ^ 32)
    : Disjoint (area a m) (area b n) := by
  rw [Set.disjoint_left]
  intro x hx hx'
  rw [mem_area] at *
  bv_omega

theorem disjoint_bytes_add {a k : BitVec 32} (h : 4 ≤ k.toNat) (hk : k.toNat + 4 ≤ 2 ^ 32)
    : Disjoint (bytes a) (bytes (a + k)) := by
  rw [Set.disjoint_left]
  intro x hx hx'
  rw [mem_area] at *
  bv_omega

theorem pairwise_disjoint_words (a : BitVec 32) {n : Nat} (hn : n ≤ 2 ^ 32) {offsets : List (BitVec 32)}
    (h : offsets.Pairwise fun k l => k.toNat + 4 ≤ l.toNat ∨ l.toNat + 4 ≤ k.toNat)
    (hend : ∀ k ∈ offsets, k.toNat + 4 ≤ n)
    : (offsets.map (a + ·)).Pairwise fun x y => Disjoint (bytes x) (bytes y) := by
  rw [List.pairwise_map]
  apply h.imp_of_mem
  intro k l hk hl hkl
  obtain hkl | hlk := hkl
  . exact disjoint_area_add hkl ((hend l hl).trans hn)
  . exact (disjoint_area_add hlk ((hend k hk).trans hn)).symm

theorem load_congr {m m' : Ram} {a : BitVec 32} (h : ∀ x ∈ bytes a, m x = m' x) : m.load a = m'.load a := by
  have hbyte (k : BitVec 32) (hk : k.toNat < 4) : m (a + k) = m' (a + k) := h _ (add_mem_area.2 hk)
  have h0 := hbyte 0#32 (by decide)
  rw [BitVec.add_zero] at h0
  unfold load
  rw [h0, hbyte 1 (by decide), hbyte 2 (by decide), hbyte 3 (by decide)]

@[simp]
theorem load_store (m : Ram) (a value : BitVec 32) : (m.store a value).load a = value := by
  have hbyte (k : BitVec 32) (hk : k.toNat < 4) : m.store a value (a + k) = value.extractLsb' (8 * k.toNat) 8 := by
    unfold store
    rw [add_sub_cancel_left, if_pos hk]
  have h0 := hbyte 0#32 (by decide)
  rw [BitVec.add_zero] at h0
  unfold load
  rw [h0, hbyte 1 (by decide), hbyte 2 (by decide), hbyte 3 (by decide)]
  apply Buffer.append_extractLsb'

theorem store_apply_of_notMem (m : Ram) {a x : BitVec 32} (value : BitVec 32) (h : x ∉ bytes a)
    : m.store a value x = m x := by
  rw [mem_area] at h
  unfold store
  rw [if_neg h]

theorem load_store_of_disjoint (m : Ram) {a b : BitVec 32} (value : BitVec 32) (h : Disjoint (bytes a) (bytes b))
    : (m.store a value).load b = m.load b := by
  apply load_congr
  intro x hx
  exact store_apply_of_notMem m value (Set.disjoint_right.1 h hx)

/-! ### Several words -/

def storeAll (m : Ram) (values : List (BitVec 32 × BitVec 32)) : Ram :=
  values.foldl (fun m e => m.store e.1 e.2) m

theorem storeAll_cons (m : Ram) (e : BitVec 32 × BitVec 32) (values : List (BitVec 32 × BitVec 32))
    : m.storeAll (e :: values) = (m.store e.1 e.2).storeAll values := rfl

theorem storeAll_apply_of_notMem {values : List (BitVec 32 × BitVec 32)} (m : Ram) {x : BitVec 32}
    (h : ∀ e ∈ values, x ∉ bytes e.1)
    : m.storeAll values x = m x := by
  induction values generalizing m with
  | nil => rfl
  | cons e values ih =>
    rw [List.forall_mem_cons] at h
    rw [storeAll_cons, ih _ h.2, store_apply_of_notMem m e.2 h.1]

theorem load_storeAll_of_disjoint {values : List (BitVec 32 × BitVec 32)} (m : Ram) {a : BitVec 32}
    (h : ∀ e ∈ values, Disjoint (bytes e.1) (bytes a))
    : (m.storeAll values).load a = m.load a := by
  apply load_congr
  intro x hx
  apply storeAll_apply_of_notMem
  intro e he
  exact Set.disjoint_right.1 (h e he) hx

theorem storeAll_concat (m : Ram) (values : List (BitVec 32 × BitVec 32)) (a value : BitVec 32)
    : m.storeAll (values ++ [(a, value)]) = (m.storeAll values).store a value := by
  simp [storeAll]

theorem load_storeAll_of_subset {values : List (BitVec 32 × BitVec 32)} (m : Ram) {a : BitVec 32}
    {S : Set (BitVec 32)} (h : ∀ e ∈ values, bytes e.1 ⊆ S) (hS : Disjoint S (bytes a))
    : (m.storeAll values).load a = m.load a := by
  apply load_storeAll_of_disjoint
  intro e he
  exact hS.mono_left (h e he)

theorem load_storeAll {values : List (BitVec 32 × BitVec 32)} (m : Ram) {a value : BitVec 32}
    (hdisjoint : values.Pairwise fun e e' => Disjoint (bytes e.1) (bytes e'.1)) (h : (a, value) ∈ values)
    : (m.storeAll values).load a = value := by
  induction values generalizing m with
  | nil => cases h
  | cons e values ih =>
    rw [List.pairwise_cons] at hdisjoint
    rw [List.mem_cons] at h
    rw [storeAll_cons]
    obtain rfl | h := h
    . rw [load_storeAll_of_disjoint, load_store]
      intro e he
      exact (hdisjoint.1 e he).symm
    . exact ih _ hdisjoint.2 h

end Ram
