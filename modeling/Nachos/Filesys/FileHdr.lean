import Mathlib.Logic.Function.Basic
import Nachos.Userprog.BitMap

/-!
This module contains `Allocate` and `Deallocate` of `filehdr.cc`: the sectors of a new file are ones
that were free, and the sectors of an old one become free.
-/

namespace Nachos

namespace Filesys

namespace FileHeader

open Function (update)

def setDataSector (hdr : FileHeader) (i : Nat) (sector : Int) : FS FileHeader :=
  if i < numDirect then
    pure { hdr with dataSectors := update hdr.dataSectors i sector }
  else
    Exit.abort .index

def dataSector (hdr : FileHeader) (i : Nat) : FS Int :=
  if i < numDirect then
    pure (hdr.dataSectors i)
  else
    Exit.abort .index

def allocate (hdr : FileHeader) (freeMap : BitMap) (fileSize : Int) : FS (Bool × FileHeader × BitMap) :=
  let hdr := { hdr with numBytes := fileSize, numSectors := divRoundUp fileSize sectorSize }
  if (freeMap.numClear : Int) < hdr.numSectors then
    pure (false, hdr, freeMap)
  else do
    let (hdr, freeMap) ← Exit.loop
      (fun i (hdr, freeMap) => do
        let (sector, freeMap) := freeMap.find
        return (← hdr.setDataSector i sector, freeMap))
      (hdr, freeMap) hdr.numSectors.toNat
    return (true, hdr, freeMap)

def deallocate (hdr : FileHeader) (freeMap : BitMap) : FS BitMap :=
  Exit.loop
    (fun i freeMap => do
      let sector ← hdr.dataSector i
      if ← freeMap.test sector then
        freeMap.clear sector
      else
        Exit.abort .unmarked)
    freeMap hdr.numSectors.toNat

/-! ### Sectors that are taken and given back -/

open Exit

/--
The first `n` data sectors are what `n` calls of `Find` have returned, `m` is the map before them and `m'` the one
after them.
-/
structure Took (m : BitMap) (hdr : FileHeader) (n : Nat) (m' : BitMap) : Prop where
  numBits : m'.numBits = m.numBits
  numClear : m'.numClear + n = m.numClear
  nonneg : ∀ i, i < n → 0 ≤ hdr.dataSectors i
  range : ∀ i, i < n → hdr.sector i < m.numBits
  clear : ∀ i, i < n → m.bit (hdr.sector i) = false
  least : ∀ i, i < n → ∀ j, j < hdr.sector i → m.bit j = true ∨ ∃ i', i' < i ∧ hdr.sector i' = j
  distinct : ∀ i j, i < n → j < n → hdr.sector i = hdr.sector j → i = j
  bit : ∀ j, j < m.numBits → (m'.bit j = true ↔ m.bit j = true ∨ ∃ i, i < n ∧ hdr.sector i = j)

variable {hdr : FileHeader} {m m' : BitMap} {n : Nat} {s : Store}

theorem Took.zero (m : BitMap) (hdr : FileHeader) : Took m hdr 0 m where
  numBits := rfl
  numClear := Nat.add_zero _
  nonneg i hi := absurd hi (Nat.not_lt_zero i)
  range i hi := absurd hi (Nat.not_lt_zero i)
  clear i hi := absurd hi (Nat.not_lt_zero i)
  least i hi := absurd hi (Nat.not_lt_zero i)
  distinct i j hi := absurd hi (Nat.not_lt_zero i)
  bit j _ := by simp

theorem sector_update_self (sector : Nat)
    : FileHeader.sector { hdr with dataSectors := update hdr.dataSectors n sector } n = sector := by
  simp [FileHeader.sector]

theorem sector_update_of_ne {i : Nat} (h : i ≠ n) (sector : Int)
    : FileHeader.sector { hdr with dataSectors := update hdr.dataSectors n sector } i = hdr.sector i := by
  simp [FileHeader.sector, Function.update_of_ne h]

theorem exists_sector_update (k j : Nat)
    : (∃ i, i < n + 1 ∧ FileHeader.sector { hdr with dataSectors := update hdr.dataSectors n k } i = j)
        ↔ (∃ i, i < n ∧ hdr.sector i = j) ∨ k = j := by
  constructor
  . intro ⟨i, hi, hsector⟩
    by_cases hin : i = n
    . rw [hin, sector_update_self] at hsector
      exact .inr hsector
    . rw [sector_update_of_ne hin] at hsector
      exact .inl ⟨i, by omega, hsector⟩
  . intro h
    cases h with
    | inl hexists =>
      obtain ⟨i, hi, hsector⟩ := hexists
      refine ⟨i, by omega, ?_⟩
      rw [sector_update_of_ne (by omega), hsector]
    | inr hkj =>
      refine ⟨n, by omega, ?_⟩
      rw [sector_update_self, hkj]

theorem Took.find (h : Took m hdr n m') (hclear : n < m.numClear)
    : ∃ k : Nat, k < m'.numBits ∧ m'.bit k = false ∧ (∀ j, j < k → m'.bit j = true) ∧
        m'.find = ((k : Int), m'.setBit k) := by
  have hnumClear := h.numClear
  cases m'.find_cases with
  | inl hfound => exact hfound
  | inr hfull =>
    have hpos : 0 < m'.numClear := by omega
    obtain ⟨i, hi, hbit⟩ := BitMap.numClear_pos.1 hpos
    rw [hfull.1 i hi] at hbit
    cases hbit

theorem Took.setBit (h : Took m hdr n m') {k : Nat} (hk : k < m'.numBits) (hbit : m'.bit k = false)
    (hleast : ∀ j, j < k → m'.bit j = true)
    : Took m { hdr with dataSectors := update hdr.dataSectors n k } (n + 1) (m'.setBit k) := by
  have hkm : k < m.numBits := by
    rw [← h.numBits]
    exact hk
  have hnew : ¬(m.bit k = true ∨ ∃ i, i < n ∧ hdr.sector i = k) := by
    rw [← h.bit k hkm, hbit]
    exact Bool.false_ne_true
  have hold (i : Nat) (hi : i < n)
      : FileHeader.sector { hdr with dataSectors := update hdr.dataSectors n k } i = hdr.sector i :=
    sector_update_of_ne (by omega) _
  constructor
  case numBits => exact h.numBits
  case numClear =>
    have hset := BitMap.numClear_setBit hk hbit
    have hnumClear := h.numClear
    omega
  case nonneg =>
    intro i hi
    by_cases hin : i = n
    . subst hin
      simp
    . change 0 ≤ update hdr.dataSectors n _ i
      rw [Function.update_of_ne hin]
      exact h.nonneg i (by omega)
  case range =>
    intro i hi
    by_cases hin : i = n
    . rw [hin, sector_update_self]
      exact hkm
    . rw [hold i (by omega)]
      exact h.range i (by omega)
  case clear =>
    intro i hi
    by_cases hin : i = n
    . rw [hin, sector_update_self]
      simpa using fun hbit => hnew (.inl hbit)
    . rw [hold i (by omega)]
      exact h.clear i (by omega)
  case least =>
    intro i hi j hj
    by_cases hin : i = n
    . rw [hin, sector_update_self] at hj
      cases (h.bit j (by omega)).1 (hleast j hj) with
      | inl hbit => exact .inl hbit
      | inr hexists =>
        obtain ⟨i', hi', hsector⟩ := hexists
        exact .inr ⟨i', by omega, by rw [hold i' hi', hsector]⟩
    . rw [hold i (by omega)] at hj
      cases h.least i (by omega) j hj with
      | inl hbit => exact .inl hbit
      | inr hexists =>
        obtain ⟨i', hi', hsector⟩ := hexists
        exact .inr ⟨i', hi', by rw [hold i' (by omega), hsector]⟩
  case distinct =>
    intro i j hi hj heq
    by_cases hin : i = n
    . by_cases hjn : j = n
      . omega
      . rw [hin, sector_update_self, hold j (by omega)] at heq
        exact absurd (.inr ⟨j, by omega, heq.symm⟩) hnew
    . by_cases hjn : j = n
      . rw [hjn, sector_update_self, hold i (by omega)] at heq
        exact absurd (.inr ⟨i, by omega, heq⟩) hnew
      . rw [hold i (by omega), hold j (by omega)] at heq
        exact h.distinct i j (by omega) (by omega) heq
  case bit =>
    intro j hj
    rw [BitMap.bit_setBit, Bool.or_eq_true, decide_eq_true_eq, h.bit j hj, exists_sector_update, or_comm,
      or_assoc]

theorem Took.succ (h : Took m hdr n m') (hclear : n < m.numClear)
    : ∃ sector : Nat, m'.find = ((sector : Int), m'.setBit sector) ∧
        Took m { hdr with dataSectors := update hdr.dataSectors n sector } (n + 1) (m'.setBit sector) := by
  obtain ⟨k, hk, hbit, hleast, hfind⟩ := h.find hclear
  exact ⟨k, hfind, h.setBit hk hbit hleast⟩

theorem Took.congr (h : Took m hdr n m') {m₁ : BitMap} {hdr₁ : FileHeader} (hbits : m₁.numBits = m.numBits)
    (hbit : ∀ j, j < m.numBits → m₁.bit j = m.bit j) (hsectors : ∀ i, i < n → hdr₁.dataSectors i = hdr.dataSectors i)
    : Took m₁ hdr₁ n m' := by
  have hsector (i : Nat) (hi : i < n) : hdr₁.sector i = hdr.sector i := by
    unfold sector
    rw [hsectors i hi]
  constructor
  case numBits => rw [h.numBits, hbits]
  case numClear =>
    rw [h.numClear, BitMap.numClear_congr hbits hbit]
  case nonneg =>
    intro i hi
    rw [hsectors i hi]
    exact h.nonneg i hi
  case range =>
    intro i hi
    rw [hsector i hi, hbits]
    exact h.range i hi
  case clear =>
    intro i hi
    rw [hsector i hi, hbit _ (h.range i hi)]
    exact h.clear i hi
  case least =>
    intro i hi j hj
    rw [hsector i hi] at hj
    have hrange := h.range i hi
    rw [hbit j (by omega)]
    cases h.least i hi j hj with
    | inl hbit => exact .inl hbit
    | inr hexists =>
      obtain ⟨i', hi', heq⟩ := hexists
      exact .inr ⟨i', hi', by rw [hsector i' (by omega), heq]⟩
  case distinct =>
    intro i j hi hj heq
    rw [hsector i hi, hsector j hj] at heq
    exact h.distinct i j hi hj heq
  case bit =>
    intro j hj
    rw [hbits] at hj
    rw [h.bit j hj, hbit j hj]
    apply or_congr_right
    apply exists_congr
    intro i
    apply and_congr_right
    intro hi
    rw [hsector i hi]

theorem Took.sector_eq {m₁ m₁' : BitMap} {hdr₁ : FileHeader} {n₁ : Nat} (h : Took m hdr n m') (h₁ : Took m₁ hdr₁ n₁ m₁')
    (hbits : m₁.numBits = m.numBits) (hbit : ∀ j, j < m.numBits → m₁.bit j = m.bit j) {i : Nat} (hi : i < n)
    (hi₁ : i < n₁)
    : hdr₁.sector i = hdr.sector i := by
  induction i using Nat.strongRecOn with
  | ind i ih =>
    have hrange := h.range i hi
    have hrange₁ := h₁.range i hi₁
    have hclear := h.clear i hi
    have hclear₁ := h₁.clear i hi₁
    rw [hbits] at hrange₁
    rw [hbit _ hrange₁] at hclear₁
    -- Neither of the sectors can be before the other one: it would have been taken first.
    apply Nat.le_antisymm
    . apply Nat.le_of_not_lt
      intro hlt
      cases h₁.least i hi₁ _ hlt with
      | inl hset =>
        rw [hbit _ hrange, hclear] at hset
        cases hset
      | inr htaken =>
        obtain ⟨i', hi', heq⟩ := htaken
        rw [ih i' hi' (by omega) (by omega)] at heq
        have := h.distinct i' i (by omega) hi heq
        omega
    . apply Nat.le_of_not_lt
      intro hlt
      cases h.least i hi _ hlt with
      | inl hset =>
        rw [hclear₁] at hset
        cases hset
      | inr htaken =>
        obtain ⟨i', hi', heq⟩ := htaken
        rw [← ih i' hi' (by omega) (by omega)] at heq
        have := h₁.distinct i' i (by omega) hi₁ heq
        omega

structure Allocated (m : BitMap) (fileSize : Int) (hdr : FileHeader) (m' : BitMap) : Prop where
  numBytes : hdr.numBytes = fileSize
  numSectors : hdr.numSectors = divRoundUp fileSize sectorSize
  took : Took m hdr hdr.blocks m'

theorem Allocated.congr {fileSize : Int} (h : Allocated m fileSize hdr m') {m₁ : BitMap}
    (hbits : m₁.numBits = m.numBits) (hbit : ∀ j, j < m.numBits → m₁.bit j = m.bit j)
    : Allocated m₁ fileSize hdr m' where
  numBytes := h.numBytes
  numSectors := h.numSectors
  took := h.took.congr hbits hbit (fun _ _ => rfl)

theorem returns_setDataSector {i : Nat} (h : i < numDirect) {sector : Int} {value : FileHeader → Store → Prop}
    : Returns (hdr.setDataSector i sector) s value ↔
        value { hdr with dataSectors := update hdr.dataSectors i sector } s := by
  unfold setDataSector
  rw [if_pos h, returns_pure]

theorem returns_dataSector {i : Nat} (h : i < numDirect) {value : Int → Store → Prop}
    : Returns (hdr.dataSector i) s value ↔ value (hdr.dataSectors i) s := by
  unfold dataSector
  rw [if_pos h, returns_pure]

theorem returns_findLoop {start : FileHeader} (hdirect : n ≤ numDirect) (hclear : n ≤ m.numClear)
    : Returns (Exit.loop
        (fun i (hdr, freeMap) => do
          let (sector, freeMap) := freeMap.find
          return (← hdr.setDataSector i sector, freeMap))
        (start, m) n : FS (FileHeader × BitMap)) s (fun r s' =>
        s' = s ∧ r.1.numBytes = start.numBytes ∧ r.1.numSectors = start.numSectors ∧ Took m r.1 n r.2 ∧
        ∀ i, n ≤ i → r.1.dataSectors i = start.dataSectors i) := by
  apply returns_loop (fun n (r : FileHeader × BitMap) s' =>
    s' = s ∧ r.1.numBytes = start.numBytes ∧ r.1.numSectors = start.numSectors ∧ Took m r.1 n r.2 ∧
    ∀ i, n ≤ i → r.1.dataSectors i = start.dataSectors i)
  case hinit => exact ⟨rfl, rfl, rfl, Took.zero _ _, fun _ _ => rfl⟩
  case hstep =>
    intro k ⟨hdr', m'⟩ s' hk ⟨hs, hbytes, hsectors, htook, hrest⟩
    obtain ⟨sector, hfind, hsucc⟩ := htook.succ (by omega)
    simp only [hfind]
    rw [returns_bind, returns_setDataSector (by omega), returns_pure]
    refine ⟨hs, hbytes, hsectors, hsucc, ?_⟩
    intro i hi
    dsimp only
    rw [Function.update_of_ne (by omega)]
    exact hrest i (by omega)

theorem returns_allocate {fileSize : Int} (hsize : fileSize ≤ maxFileSize)
    : Returns (hdr.allocate m fileSize) s (fun r s' =>
        s' = s ∧ (r.1 = true ↔ divRoundUp fileSize sectorSize ≤ m.numClear) ∧ (r.1 = false → r.2.2 = m) ∧
        (r.1 = true → Allocated m fileSize r.2.1 r.2.2 ∧
          ∀ i, r.2.1.numSectors.toNat ≤ i → r.2.1.dataSectors i = hdr.dataSectors i)) := by
  unfold allocate
  dsimp only
  split
  next hfull =>
    rw [returns_pure]
    simp only [Bool.false_eq_true, false_iff, Int.not_le, hfull, false_implies, and_self, true_implies]
  next henough =>
    generalize hstart : ({ hdr with numBytes := fileSize, numSectors := divRoundUp fileSize sectorSize } : FileHeader) = start
    have hbytes : start.numBytes = fileSize := by rw [← hstart]
    have hsectors : start.numSectors = divRoundUp fileSize sectorSize := by rw [← hstart]
    have hblocks : start.blocks = (divRoundUp fileSize sectorSize).toNat := by
      unfold blocks
      rw [hbytes]
    have hle : start.blocks ≤ numDirect := by
      apply blocks_le
      rwa [hbytes]
    rw [returns_bind, ← hblocks]
    apply (returns_findLoop hle (by omega)).mono
    intro ⟨hdr', m'⟩ s' ⟨hs, hbytes', hsectors', htook, hrest⟩
    rw [returns_pure]
    refine ⟨hs, ?_, nofun, ?_⟩
    . simp only [true_iff]
      omega
    . intro _
      have hblocks' : hdr'.blocks = start.blocks := by
        unfold blocks
        rw [hbytes']
      refine ⟨⟨hbytes'.trans hbytes, hsectors'.trans hsectors, ?_⟩, ?_⟩
      . rwa [hblocks']
      . intro i hi
        dsimp only at hi ⊢
        rw [hsectors', hsectors] at hi
        rw [hrest i (by omega), ← hstart]

theorem allocate_apply_of_overrun {fileSize : Int} (hsize : maxFileSize < fileSize)
    (henough : divRoundUp fileSize sectorSize ≤ m.numClear)
    : hdr.allocate m fileSize s = .error .index := by
  obtain ⟨k, rfl⟩ := Int.eq_ofNat_of_zero_le (show 0 ≤ fileSize from by omega)
  have hround := divRoundUp_natCast k
  have hdirect : numDirect < (divRoundUp k sectorSize).toNat := by
    rw [maxFileSize_eq] at hsize
    rw [hround, Int.toNat_natCast, numDirect_eq]
    omega
  unfold allocate
  dsimp only
  rw [if_neg (by omega)]
  apply bind_apply_of_error
  apply loop_apply_of_error hdirect
  apply (returns_findLoop (Nat.le_refl _) (by omega)).mono
  intro ⟨hdr', m'⟩ s' _
  dsimp only
  apply bind_apply_of_error
  unfold setDataSector
  rw [if_neg (Nat.lt_irrefl _)]
  rfl

theorem returns_deallocate (hdirect : hdr.numSectors.toNat ≤ numDirect)
    (hrange : ∀ i, i < hdr.numSectors.toNat → 0 ≤ hdr.dataSectors i ∧ hdr.sector i < m.numBits)
    (hmarked : ∀ i, i < hdr.numSectors.toNat → m.bit (hdr.sector i) = true)
    (hdistinct : ∀ i j, i < hdr.numSectors.toNat → j < hdr.numSectors.toNat → hdr.sector i = hdr.sector j → i = j)
    : Returns (hdr.deallocate m) s (fun m' s' =>
        s' = s ∧ m'.numBits = m.numBits ∧
        ∀ j, m'.bit j = true ↔ m.bit j = true ∧ ∀ i, i < hdr.numSectors.toNat → hdr.sector i ≠ j) := by
  unfold deallocate
  apply returns_loop (fun n (m' : BitMap) s' =>
    s' = s ∧ m'.numBits = m.numBits ∧
    ∀ j, m'.bit j = true ↔ m.bit j = true ∧ ∀ i, i < n → hdr.sector i ≠ j)
  . simp
  . intro n m' s' hn ⟨hs, hbits, hbit⟩
    have hsector : hdr.dataSectors n = hdr.sector n := by
      have := (hrange n hn).1
      unfold sector
      omega
    have hlt : hdr.sector n < m'.numBits := by
      rw [hbits]
      exact (hrange n hn).2
    have hset : m'.bit (hdr.sector n) = true := by
      rw [hbit]
      refine ⟨hmarked n hn, ?_⟩
      intro i hi heq
      have := hdistinct i n (by omega) hn heq
      omega
    rw [returns_bind, returns_dataSector (by omega), hsector, returns_bind, BitMap.returns_test hlt, hset, if_pos rfl,
      BitMap.returns_clear hlt]
    refine ⟨hs, hbits, ?_⟩
    intro j
    rw [BitMap.bit_clearBit, Bool.and_eq_true, hbit j]
    simp only [Bool.not_eq_true', decide_eq_false_iff_not]
    constructor
    . intro ⟨hne, hold, hbefore⟩
      refine ⟨hold, ?_⟩
      intro i hi
      by_cases hin : i = n
      . rw [hin]
        exact hne
      . exact hbefore i (by omega)
    . intro ⟨hold, hall⟩
      exact ⟨hall n (by omega), hold, fun i hi => hall i (by omega)⟩

/-! ### Headers as `Allocate` makes them -/

def sectorList (hdr : FileHeader) : List Int :=
  (List.range hdr.numSectors.toNat).map hdr.dataSectors

theorem length_sectorList (hdr : FileHeader) : hdr.sectorList.length = hdr.numSectors.toNat := by
  unfold sectorList
  rw [List.length_map, List.length_range]

structure Proper (hdr : FileHeader) : Prop where
  size : hdr.numBytes ≤ maxFileSize
  numSectors : hdr.numSectors = divRoundUp hdr.numBytes sectorSize

theorem Proper.toNat_numSectors (h : hdr.Proper) : hdr.numSectors.toNat = hdr.blocks := by
  rw [h.numSectors]
  rfl

theorem Proper.mem_sectorList (h : hdr.Proper) {n : Int}
    : n ∈ hdr.sectorList ↔ ∃ i, i < hdr.blocks ∧ hdr.dataSectors i = n := by
  unfold FileHeader.sectorList
  rw [h.toNat_numSectors]
  simp

theorem Proper.valid (h : hdr.Proper) (hrange : ∀ n, n ∈ hdr.sectorList → 0 ≤ n ∧ n < SynchDisk.numSectors)
    (hnodup : hdr.sectorList.Nodup)
    : hdr.Valid where
  size := h.size
  range i hi := hrange _ (h.mem_sectorList.2 ⟨i, hi, rfl⟩)
  distinct i j hi hj heq := by
    unfold FileHeader.sectorList at hnodup
    rw [h.toNat_numSectors] at hnodup
    exact List.inj_on_of_nodup_map hnodup (List.mem_range.2 hi) (List.mem_range.2 hj) heq

theorem Proper.toNat_of_mem (h : hdr.Proper) (hvalid : hdr.Valid) {n : Int} (hn : n ∈ hdr.sectorList)
    : (n.toNat : Int) = n := by
  obtain ⟨i, hi, rfl⟩ := h.mem_sectorList.1 hn
  exact Int.toNat_of_nonneg (hvalid.range i hi).1

section

variable {fileSize : Int} (h : Allocated m fileSize hdr m') (hsize : fileSize ≤ maxFileSize)

include h hsize

theorem Allocated.proper : hdr.Proper where
  size := by rwa [h.numBytes]
  numSectors := by rw [h.numSectors, h.numBytes]

theorem Allocated.not_marks {a : Int} (ha : a ∈ hdr.sectorList) : ¬m.Marks a := by
  obtain ⟨i, hi, rfl⟩ := (h.proper hsize).mem_sectorList.1 ha
  intro hmarks
  have hclear : m.bit (hdr.dataSectors i).toNat = false := h.took.clear i hi
  have hbit := hmarks.2.2
  rw [hclear] at hbit
  cases hbit

theorem Allocated.nodup : hdr.sectorList.Nodup := by
  unfold FileHeader.sectorList
  rw [(h.proper hsize).toNat_numSectors]
  apply List.Nodup.map_on _ List.nodup_range
  intro i hi j hj heq
  apply h.took.distinct i j (List.mem_range.1 hi) (List.mem_range.1 hj)
  unfold FileHeader.sector
  rw [heq]

theorem Allocated.marks_iff (a : Int) : m'.Marks a ↔ m.Marks a ∨ a ∈ hdr.sectorList := by
  unfold BitMap.Marks
  rw [(h.proper hsize).mem_sectorList, h.took.numBits]
  constructor
  . intro ⟨hnonneg, hlt, hmarked⟩
    rw [h.took.bit _ (by omega)] at hmarked
    cases hmarked with
    | inl hold => exact .inl ⟨hnonneg, hlt, hold⟩
    | inr hnew =>
      obtain ⟨i, hi, heq⟩ := hnew
      have := h.took.nonneg i hi
      unfold FileHeader.sector at heq
      exact .inr ⟨i, hi, by omega⟩
  . intro ha
    cases ha with
    | inl hold =>
      refine ⟨hold.1, hold.2.1, ?_⟩
      rw [h.took.bit _ (by omega)]
      exact .inl hold.2.2
    | inr hnew =>
      obtain ⟨i, hi, rfl⟩ := hnew
      have hnonneg := h.took.nonneg i hi
      have hrange : (hdr.dataSectors i).toNat < m.numBits := h.took.range i hi
      refine ⟨hnonneg, by omega, ?_⟩
      rw [h.took.bit _ hrange]
      exact .inr ⟨i, hi, rfl⟩

end

theorem returns_deallocate_of_marks (hproper : hdr.Proper) (hnodup : hdr.sectorList.Nodup)
    (hmarks : ∀ a, a ∈ hdr.sectorList → m.Marks a)
    : Returns (hdr.deallocate m) s (fun m' s' =>
        s' = s ∧ m'.numBits = m.numBits ∧ ∀ a, m'.Marks a ↔ m.Marks a ∧ a ∉ hdr.sectorList) := by
  have hmarks' (i : Nat) (hi : i < hdr.blocks) : m.Marks (hdr.dataSectors i) :=
    hmarks _ (hproper.mem_sectorList.2 ⟨i, hi, rfl⟩)
  have hblocks := hproper.toNat_numSectors
  have hle : hdr.numSectors.toNat ≤ numDirect := by
    rw [hblocks]
    exact blocks_le hproper.size
  refine Returns.mono (returns_deallocate hle ?range ?marked ?distinct) ?done
  case range =>
    intro i hi
    obtain ⟨hnonneg, hlt, _⟩ := hmarks' i (by omega)
    refine ⟨hnonneg, ?_⟩
    unfold sector
    omega
  case marked =>
    intro i hi
    exact (hmarks' i (by omega)).2.2
  case distinct =>
    intro i j hi hj heq
    have hi' := (hmarks' i (by omega)).1
    have hj' := (hmarks' j (by omega)).1
    unfold sector at heq
    unfold FileHeader.sectorList at hnodup
    exact List.inj_on_of_nodup_map hnodup (List.mem_range.2 hi) (List.mem_range.2 hj) (by omega)
  case done =>
    intro m' s' ⟨hs, hbits, hbit⟩
    refine ⟨hs, hbits, ?_⟩
    intro a
    unfold BitMap.Marks
    rw [hbits, hproper.mem_sectorList, hbit]
    constructor
    . intro ⟨hnonneg, hlt, hold, hnot⟩
      refine ⟨⟨hnonneg, hlt, hold⟩, ?_⟩
      intro ⟨i, hi, heq⟩
      apply hnot i (by omega)
      unfold sector
      rw [heq]
    . intro ⟨⟨hnonneg, hlt, hold⟩, hnot⟩
      refine ⟨hnonneg, hlt, hold, ?_⟩
      intro i hi heq
      have := (hmarks' i (by omega)).1
      unfold sector at heq
      exact hnot ⟨i, by omega, by omega⟩

/-! ### The header on the disk -/

theorem numBytes_ofBytes_bytes (hlower : -2 ^ 31 ≤ hdr.numBytes) (hupper : hdr.numBytes < 2 ^ 31)
    : (ofBytes hdr.bytes).numBytes = hdr.numBytes :=
  (Buffer.int_ofWords _ 0).trans (Buffer.toInt_ofInt_of_int hlower hupper)

theorem numSectors_ofBytes_bytes (hlower : -2 ^ 31 ≤ hdr.numSectors) (hupper : hdr.numSectors < 2 ^ 31)
    : (ofBytes hdr.bytes).numSectors = hdr.numSectors :=
  (Buffer.int_ofWords _ 1).trans (Buffer.toInt_ofInt_of_int hlower hupper)

theorem dataSectors_ofBytes_bytes {i : Nat} (hlower : -2 ^ 31 ≤ hdr.dataSectors i)
    (hupper : hdr.dataSectors i < 2 ^ 31)
    : (ofBytes hdr.bytes).dataSectors i = hdr.dataSectors i :=
  (Buffer.int_ofWords _ (i + 2)).trans (Buffer.toInt_ofInt_of_int hlower hupper)

theorem divRoundUp_bounds {n : Int} (hlower : -2 ^ 31 ≤ n) (hupper : n < 2 ^ 31)
    : -2 ^ 31 ≤ divRoundUp n sectorSize ∧ divRoundUp n sectorSize < 2 ^ 31 := by
  by_cases hneg : n ≤ 0
  . have hnonpos := divRoundUp_of_nonpos hneg
    obtain ⟨k, rfl⟩ := Int.exists_eq_neg_ofNat hneg
    have hdiv : (k : Int).tdiv sectorSize ≤ k := by
      rw [Int.tdiv_eq_ediv_of_nonneg (by omega), sectorSize_eq]
      omega
    refine ⟨?_, by omega⟩
    unfold divRoundUp
    rw [Int.neg_tdiv]
    split
    next => omega
    next => omega
  . obtain ⟨k, rfl⟩ := Int.eq_ofNat_of_zero_le (show 0 ≤ n from by omega)
    rw [divRoundUp_natCast]
    omega

theorem Allocated.ofBytes_bytes {fileSize : Int} (h : Allocated m fileSize hdr m') (hbits : m.numBits ≤ 2 ^ 31)
    (hlower : -2 ^ 31 ≤ fileSize) (hupper : fileSize < 2 ^ 31)
    : Allocated m fileSize (ofBytes hdr.bytes) m' := by
  have hbounds := divRoundUp_bounds hlower hupper
  have hbytes : (ofBytes hdr.bytes).numBytes = hdr.numBytes := by
    apply numBytes_ofBytes_bytes
    . rw [h.numBytes]
      exact hlower
    . rw [h.numBytes]
      exact hupper
  have hsectors : (ofBytes hdr.bytes).numSectors = hdr.numSectors := by
    apply numSectors_ofBytes_bytes
    . rw [h.numSectors]
      exact hbounds.1
    . rw [h.numSectors]
      exact hbounds.2
  have hblocks : (ofBytes hdr.bytes).blocks = hdr.blocks := by
    unfold blocks
    rw [hbytes]
  refine ⟨hbytes.trans h.numBytes, hsectors.trans h.numSectors, ?_⟩
  rw [hblocks]
  apply h.took.congr rfl (fun _ _ => rfl)
  intro i hi
  have hnonneg := h.took.nonneg i hi
  have hrange := h.took.range i hi
  unfold sector at hrange
  apply dataSectors_ofBytes_bytes
  . omega
  . omega

end FileHeader

end Filesys

end Nachos
