import Mathlib.Algebra.BigOperators.Group.List.Basic
import Nachos.Filesys.OpenFile

/-!
This module contains sequences of `Read`s and `Write`s: as long as no `int` overflows, they transfer the
same bytes as one `ReadAt` or `WriteAt` of all of them together.
-/

namespace Nachos

namespace Filesys

open Exit

namespace OpenFile

def readChunks (file : OpenFile) : List Nat → FS (List (BitVec 8) × OpenFile)
  | [] => pure ([], file)
  | numBytes :: sizes => do
    let ((n, data), file) ← file.read numBytes
    let (bytes, file) ← file.readChunks sizes
    return (data.take n.toNat ++ bytes, file)

def writeChunks (file : OpenFile) (source : Buffer) : List Nat → FS (Int × OpenFile)
  | [] => pure (0, file)
  | numBytes :: sizes => do
    let (n, file) ← file.write source numBytes
    let (n', file) ← file.writeChunks (source.drop numBytes) sizes
    return (n + n', file)

end OpenFile

/-! ### Parts of a transfer -/

namespace FileHeader

variable {hdr : FileHeader} {disk disk₁ disk₂ : Nat → Buffer}

theorem transferred_nonneg (hdr : FileHeader) (numBytes position : Int) : 0 ≤ hdr.transferred numBytes position := by
  unfold transferred
  split
  next => omega
  next => omega

theorem transferred_le (hdr : FileHeader) (numBytes : Nat) (position : Int)
    : hdr.transferred numBytes position ≤ numBytes := by
  unfold transferred
  split
  next => omega
  next => omega

theorem transferred_of_trivial {numBytes position : Int} (h : numBytes ≤ 0 ∨ position ≥ hdr.numBytes)
    : hdr.transferred numBytes position = 0 := by
  unfold transferred
  rw [if_pos h]

theorem transferred_add (hdr : FileHeader) (m n : Nat) (position : Int)
    : hdr.transferred (m + n : Nat) position =
        hdr.transferred m position + hdr.transferred n (position + hdr.transferred m position) := by
  unfold transferred
  split
  next => split <;> split <;> omega
  next => split <;> split <;> omega

def contents (hdr : FileHeader) (disk : Nat → Buffer) (p k : Nat) : List (BitVec 8) :=
  Buffer.take (fun i => hdr.byte disk (p + i)) k

theorem contents_add (hdr : FileHeader) (disk : Nat → Buffer) (p m n : Nat)
    : hdr.contents disk p (m + n) = hdr.contents disk p m ++ hdr.contents disk (p + m) n := by
  unfold contents
  rw [Buffer.take_add]
  congr 1
  apply Buffer.take_congr
  intro i _
  rw [Buffer.drop_apply, Nat.add_assoc]

theorem transferred_of_short {m : Nat} {position : Int} (h : hdr.transferred m position < m) (n : Nat)
    : hdr.transferred n (position + hdr.transferred m position) = 0 := by
  apply transferred_of_trivial
  unfold transferred at *
  split at h
  next => omega
  next hin =>
    rw [if_neg hin]
    omega

theorem Written.append {a b source : Buffer} {p k k' : Nat} (h : hdr.Written a p k disk disk₁)
    (h' : hdr.Written b (p + k) k' disk₁ disk₂) (ha : ∀ i, i < k → source i = a i)
    (hb : ∀ i, i < k' → source (k + i) = b i)
    : hdr.Written source p (k + k') disk disk₂ := by
  constructor
  case byte =>
    intro offset hoffset
    rw [h'.byte offset hoffset, h.byte offset hoffset]
    split
    next hsecond =>
      rw [if_pos (by omega), ← hb _ (by omega)]
      congr 1
      omega
    next hsecond =>
      split
      next hfirst => rw [if_pos (by omega), ha _ (by omega)]
      next hfirst => rw [if_neg (by omega)]
  case frame =>
    intro n hn
    rw [h'.frame n hn, h.frame n hn]

/--
The same file, and the same sectors outside of it. Behind the end of the file the last sector may differ.
-/
structure SameFile (hdr : FileHeader) (disk disk' : Nat → Buffer) : Prop where
  byte : ∀ offset : Nat, offset < hdr.numBytes → hdr.byte disk offset = hdr.byte disk' offset
  frame : ∀ n, (∀ i, i < hdr.blocks → n ≠ hdr.sector i) → disk n = disk' n

theorem sameFile_refl (hdr : FileHeader) (disk : Nat → Buffer) : hdr.SameFile disk disk where
  byte _ _ := rfl
  frame _ _ := rfl

theorem Written.sameFile {source : Buffer} {p k : Nat} (h : hdr.Written source p k disk disk₁)
    (h' : hdr.Written source p k disk disk₂)
    : hdr.SameFile disk₁ disk₂ where
  byte offset hoffset := (h.byte offset hoffset).trans (h'.byte offset hoffset).symm
  frame n hn := (h.frame n hn).trans (h'.frame n hn).symm

end FileHeader

/-! ### Transfers in range -/

namespace OpenFile

variable {file : OpenFile} {s : Store}

theorem returns_read_seek (hvalid : file.hdr.Valid) {numBytes p : Int} (hpos : 0 ≤ p) (hlt : p < 2 ^ 31)
    (hover : p + numBytes < 2 ^ 31)
    : Returns ((file.seek p).read numBytes) s (fun r s' =>
        s'.disk = s.disk ∧ r.1.1 = file.hdr.transferred numBytes p ∧
        (∀ i : Nat, i < r.1.1 → r.1.2 i = file.hdr.byte s.disk (p.toNat + i)) ∧ r.2 = file.seek (p + r.1.1)) :=
  @returns_read (file.seek p) s hvalid numBytes hpos hlt hover

theorem returns_write_seek (hvalid : file.hdr.Valid) (source : Buffer) {numBytes p : Int} (hpos : 0 ≤ p)
    (hlt : p < 2 ^ 31) (hover : p + numBytes < 2 ^ 31)
    : Returns ((file.seek p).write source numBytes) s (fun r s' =>
        r.1 = file.hdr.transferred numBytes p ∧
        file.hdr.Written source p.toNat r.1.toNat s.disk s'.disk ∧ r.2 = file.seek (p + r.1)) :=
  @returns_write (file.seek p) s hvalid source numBytes hpos hlt hover

theorem returns_readChunks (hvalid : file.hdr.Valid) (sizes : List Nat) {p : Int} (hpos : 0 ≤ p)
    (hover : p + (sizes.sum : Nat) < 2 ^ 31)
    : Returns ((file.seek p).readChunks sizes) s (fun r s' =>
        s'.disk = s.disk ∧
        r.1 = file.hdr.contents s.disk p.toNat (file.hdr.transferred (sizes.sum : Nat) p).toNat ∧
        r.2 = file.seek (p + file.hdr.transferred (sizes.sum : Nat) p)) := by
  induction sizes generalizing p s with
  | nil =>
    unfold readChunks
    rw [returns_pure, List.sum_nil]
    have hzero : file.hdr.transferred (0 : Nat) p = 0 := FileHeader.transferred_of_trivial (.inl (Int.le_refl 0))
    rw [hzero, Int.add_zero]
    exact ⟨rfl, rfl, rfl⟩
  | cons numBytes sizes ih =>
    rw [List.sum_cons] at hover
    have hle := file.hdr.transferred_le numBytes p
    have hnonneg := file.hdr.transferred_nonneg numBytes p
    have hnonneg' := file.hdr.transferred_nonneg (sizes.sum : Nat) (p + file.hdr.transferred numBytes p)
    unfold readChunks
    apply (returns_read_seek hvalid hpos (by omega) (by omega)).bind
    intro ⟨⟨n, data⟩, file'⟩ s₁ ⟨hs₁, hn, hdata, hfile⟩
    dsimp only at hn hdata hfile
    subst hn
    subst hfile
    apply (@ih s₁ (p + file.hdr.transferred numBytes p) (by omega) (by omega)).bind
    intro ⟨bytes, file'⟩ s₂ ⟨hs₂, hbytes, hfile⟩
    dsimp only at hbytes hfile ⊢
    rw [returns_pure, List.sum_cons, FileHeader.transferred_add]
    refine ⟨hs₂.trans hs₁, ?_, ?_⟩
    . dsimp only
      rw [Int.toNat_add hnonneg hnonneg', FileHeader.contents_add, hbytes, Int.toNat_add hpos hnonneg, hs₁]
      congr 1
      apply Buffer.take_congr
      intro i hi
      rw [hdata i (Int.lt_toNat.1 hi)]
    . dsimp only
      rw [hfile, ← Int.add_assoc]

theorem returns_writeChunks (hvalid : file.hdr.Valid) (source : Buffer) (sizes : List Nat) {p : Int}
    (hpos : 0 ≤ p) (hover : p + (sizes.sum : Nat) < 2 ^ 31)
    : Returns ((file.seek p).writeChunks source sizes) s (fun r s' =>
        r.1 = file.hdr.transferred (sizes.sum : Nat) p ∧
        file.hdr.Written source p.toNat r.1.toNat s.disk s'.disk ∧ r.2 = file.seek (p + r.1)) := by
  induction sizes generalizing p source s with
  | nil =>
    unfold writeChunks
    rw [returns_pure, List.sum_nil]
    refine ⟨(FileHeader.transferred_of_trivial (.inl (Int.le_refl 0))).symm,
      FileHeader.written_zero _ _ _ _, ?_⟩
    dsimp only
    rw [Int.add_zero]
  | cons numBytes sizes ih =>
    rw [List.sum_cons] at hover
    have hle := file.hdr.transferred_le numBytes p
    have hnonneg := file.hdr.transferred_nonneg numBytes p
    have hnonneg' := file.hdr.transferred_nonneg (sizes.sum : Nat) (p + file.hdr.transferred numBytes p)
    unfold writeChunks
    apply (returns_write_seek hvalid source hpos (by omega) (by omega)).bind
    intro ⟨n, file'⟩ s₁ ⟨hn, hwritten, hfile⟩
    dsimp only at hn hwritten hfile
    subst hn
    subst hfile
    apply (@ih s₁ (source.drop numBytes) (p + file.hdr.transferred numBytes p) (by omega) (by omega)).bind
    intro ⟨n', file'⟩ s₂ ⟨hn', hwritten', hfile⟩
    dsimp only at hn' hwritten' hfile ⊢
    rw [Int.toNat_add hpos hnonneg] at hwritten'
    rw [returns_pure, List.sum_cons, FileHeader.transferred_add, ← hn']
    refine ⟨rfl, ?_, ?_⟩
    . dsimp only
      rw [Int.toNat_add hnonneg (hn' ▸ hnonneg')]
      apply hwritten.append hwritten' (fun i _ => rfl)
      intro i hi
      -- there is a second part only if the first one was not cut off
      have hfull : file.hdr.transferred numBytes p = numBytes := by
        by_contra hne
        have hzero := @FileHeader.transferred_of_short file.hdr numBytes p (by omega) sizes.sum
        omega
      rw [hfull, Int.toNat_natCast, Buffer.drop_apply]
    . dsimp only
      rw [hfile, ← Int.add_assoc]

/-! ### Requests for nothing -/

theorem readAt_of_trivial {numBytes position : Int} (h : numBytes ≤ 0 ∨ position ≥ file.hdr.numBytes)
    : file.readAt numBytes position = pure (0, fun _ => 0) := by
  unfold readAt
  rw [extent_of_trivial h]

theorem writeAt_of_trivial {numBytes position : Int} (h : numBytes ≤ 0 ∨ position ≥ file.hdr.numBytes)
    (source : Buffer)
    : file.writeAt source numBytes position = pure 0 := by
  unfold writeAt
  rw [extent_of_trivial h]

section

variable (hlower : -2 ^ 31 ≤ file.seekPosition) (hupper : file.seekPosition < 2 ^ 31)

include hlower hupper

theorem read_of_trivial {numBytes : Int} (h : numBytes ≤ 0 ∨ file.seekPosition ≥ file.hdr.numBytes)
    : file.read numBytes = pure ((0, fun _ => 0), file) := by
  unfold read
  rw [readAt_of_trivial h]
  change (pure (_, { file with seekPosition := wrap (file.seekPosition + 0) }) : FS _) = _
  rw [Int.add_zero, wrap_eq hlower hupper]

theorem write_of_trivial {numBytes : Int} (h : numBytes ≤ 0 ∨ file.seekPosition ≥ file.hdr.numBytes) (source : Buffer)
    : file.write source numBytes = pure (0, file) := by
  unfold write
  rw [writeAt_of_trivial h]
  change (pure (_, { file with seekPosition := wrap (file.seekPosition + 0) }) : FS _) = _
  rw [Int.add_zero, wrap_eq hlower hupper]

variable {sizes : List Nat} (h : sizes.sum = 0 ∨ file.seekPosition ≥ file.hdr.numBytes)

include h

theorem readChunks_of_trivial : file.readChunks sizes = pure ([], file) := by
  induction sizes with
  | nil => rfl
  | cons numBytes sizes ih =>
    rw [List.sum_cons] at h
    unfold readChunks
    rw [read_of_trivial hlower hupper (by omega)]
    change file.readChunks sizes >>= _ = _
    rw [ih (by omega)]
    rfl

theorem writeChunks_of_trivial (source : Buffer) : file.writeChunks source sizes = pure (0, file) := by
  induction sizes generalizing source with
  | nil => rfl
  | cons numBytes sizes ih =>
    rw [List.sum_cons] at h
    unfold writeChunks
    rw [write_of_trivial hlower hupper (by omega)]
    change file.writeChunks _ sizes >>= _ = _
    rw [ih (by omega)]
    rfl

end

/-! ### Requests that do not return -/

structure Fits (e : Extent) (position : Int) : Prop where
  lower : 0 ≤ position - e.firstSector * sectorSize
  upper : position - e.firstSector * sectorSize + e.numBytes ≤ e.numSectors * sectorSize
  sectors : ∀ i : Nat, i < e.numSectors → 0 ≤ e.firstSector + i ∧ e.firstSector + i < numDirect

theorem bounds_of_bufferOffset {e : Extent} {position : Int} {value : Nat → Store → Prop}
    (h : Returns (bufferOffset e position) s value)
    : 0 ≤ position - e.firstSector * sectorSize ∧
        position - e.firstSector * sectorSize + e.numBytes ≤ e.numSectors * sectorSize := by
  unfold bufferOffset at h
  dsimp only at h
  split at h
  next hin => exact hin
  next => exact absurd h (not_returns_abort _)

theorem bounds_of_byteToSector {hdr : FileHeader} {i : Int} {value : Int → Store → Prop}
    (h : Returns (hdr.byteToSector (i * sectorSize)) s value)
    : 0 ≤ i ∧ i < numDirect := by
  unfold FileHeader.byteToSector at h
  rw [Int.mul_tdiv_cancel _ (by decide)] at h
  dsimp only at h
  split at h
  next hin => exact hin
  next => exact absurd h (not_returns_abort _)

theorem fits_of_readAt {numBytes position : Int} {e : Extent} (he : file.extent numBytes position = some e)
    {value : Int × Buffer → Store → Prop} (h : Returns (file.readAt numBytes position) s value)
    : Fits e position := by
  unfold readAt at h
  rw [he] at h
  simp only [returns_bind] at h
  obtain ⟨buf, s₁, _, hsectors⟩ := h
  obtain ⟨buf', s₂, _, hoffset⟩ := id hsectors
  have hbounds := bounds_of_bufferOffset hoffset
  refine ⟨hbounds.1, hbounds.2, ?_⟩
  intro i hi
  obtain ⟨b, s', hbody⟩ := hsectors.of_loop (i := i) (by omega)
  rw [returns_bind] at hbody
  exact bounds_of_byteToSector hbody

theorem fits_of_writeAt {numBytes position : Int} {e : Extent} (he : file.extent numBytes position = some e)
    {source : Buffer} {value : Int → Store → Prop} (h : Returns (file.writeAt source numBytes position) s value)
    : Fits e position := by
  unfold writeAt at h
  rw [he] at h
  simp only [returns_bind] at h
  obtain ⟨buf, s₁, _, buf', s₂, _, buf'', s₃, _, hoffset⟩ := h
  have hbounds := bounds_of_bufferOffset hoffset
  obtain ⟨offset, s₄, _, hsectors⟩ := hoffset
  refine ⟨hbounds.1, hbounds.2, ?_⟩
  intro i hi
  obtain ⟨b, s', hbody⟩ := hsectors.of_loop (i := i) (by omega)
  rw [returns_bind] at hbody
  exact bounds_of_byteToSector hbody

theorem inRange_of_fits (hvalid : file.hdr.Valid) (hsize : 0 ≤ file.hdr.numBytes) {numBytes position : Int}
    (h : ¬(numBytes ≤ 0 ∨ position ≥ file.hdr.numBytes)) (hbytes : numBytes < 2 ^ 31) (hpos : -2 ^ 31 ≤ position)
    (hfits : ∀ e, file.extent numBytes position = some e → Fits e position)
    : 0 ≤ position ∧ position + numBytes < 2 ^ 31 := by
  obtain ⟨e, he, hfirst, _, hcount⟩ := extent_of_request h
  have ⟨hlower, hupper, hsectors⟩ := hfits e he
  have hmax := hvalid.size
  have hmod := Int.mul_tdiv_add_tmod position sectorSize
  rw [← hfirst] at hmod
  rw [maxFileSize_eq] at hmax
  rw [sectorSize_eq] at *
  rw [numDirect_eq] at hsectors
  by_cases hneg : position < 0
  . -- the sum does not wrap around, and the first sector is in front of the table
    exfalso
    rw [wrap_eq (by omega) (by omega)] at hcount
    have hpositive : 0 < e.numBytes := by
      split at hcount
      next hcut =>
        rw [wrap_eq (by omega) (by omega)] at hcount
        omega
      next => omega
    have := hsectors 0 (by omega)
    omega
  . by_contra hout
    rw [wrap_of_overflow (by omega) (by omega), if_neg (by omega)] at hcount
    have := hsectors 60 (by omega)
    have := hsectors 0 (by omega)
    omega

/-! ### Transfers in chunks -/

/--
One `ReadAt` of all the bytes at `seekPosition` returns, the reads return the same bytes, and `seekPosition` is
behind them.
-/
def ReadSplits (file : OpenFile) (sizes : List Nat) (s : Store) : Prop :=
  Returns (file.readAt (sizes.sum : Nat) file.seekPosition) s fun r s₁ =>
    Returns (file.readChunks sizes) s fun r' s₂ =>
      r'.1 = r.2.take r.1.toNat ∧ r'.2 = file.seek (file.seekPosition + r.1) ∧ s₂.disk = s₁.disk

def WriteSplits (file : OpenFile) (source : Buffer) (sizes : List Nat) (s : Store) : Prop :=
  Returns (file.writeAt source (sizes.sum : Nat) file.seekPosition) s fun n s₁ =>
    Returns (file.writeChunks source sizes) s fun r' s₂ =>
      r'.1 = n ∧ r'.2 = file.seek (file.seekPosition + n) ∧ file.hdr.SameFile s₁.disk s₂.disk

def InRange (file : OpenFile) (numBytes : Nat) : Prop :=
  numBytes = 0 ∨ file.seekPosition ≥ file.hdr.numBytes ∨
    0 ≤ file.seekPosition ∧ file.seekPosition + numBytes < 2 ^ 31

section

variable (hvalid : file.hdr.Valid) (hsize : 0 ≤ file.hdr.numBytes) (hlower : -2 ^ 31 ≤ file.seekPosition)
  (hupper : file.seekPosition < 2 ^ 31) {sizes : List Nat}

include hvalid hlower hupper

theorem readSplits_of_inRange (h : file.InRange sizes.sum) : file.ReadSplits sizes s := by
  unfold ReadSplits
  by_cases htrivial : sizes.sum = 0 ∨ file.seekPosition ≥ file.hdr.numBytes
  . rw [readAt_of_trivial (by omega), readChunks_of_trivial hlower hupper htrivial]
    rw [returns_pure, returns_pure]
    dsimp only
    rw [Int.add_zero]
    exact ⟨rfl, rfl, rfl⟩
  . obtain ⟨hpos, hover⟩ : 0 ≤ file.seekPosition ∧ file.seekPosition + (sizes.sum : Nat) < 2 ^ 31 := by
      unfold InRange at h
      omega
    apply (returns_readAt hvalid hpos hover).mono
    intro ⟨n, data⟩ s₁ ⟨hs₁, hn, hdata⟩
    dsimp only at hn hdata ⊢
    apply (returns_readChunks hvalid sizes hpos hover).mono
    intro ⟨bytes, file'⟩ s₂ ⟨hs₂, hbytes, hfile⟩
    dsimp only at hbytes hfile ⊢
    rw [hbytes, hfile, ← hn]
    refine ⟨?_, rfl, hs₂.trans hs₁.symm⟩
    apply Buffer.take_congr
    intro i hi
    exact (hdata i (Int.lt_toNat.1 hi)).symm

theorem writeSplits_of_inRange (source : Buffer) (h : file.InRange sizes.sum) : file.WriteSplits source sizes s := by
  unfold WriteSplits
  by_cases htrivial : sizes.sum = 0 ∨ file.seekPosition ≥ file.hdr.numBytes
  . rw [writeAt_of_trivial (by omega), writeChunks_of_trivial hlower hupper htrivial]
    rw [returns_pure, returns_pure]
    dsimp only
    rw [Int.add_zero]
    exact ⟨rfl, rfl, FileHeader.sameFile_refl _ _⟩
  . obtain ⟨hpos, hover⟩ : 0 ≤ file.seekPosition ∧ file.seekPosition + (sizes.sum : Nat) < 2 ^ 31 := by
      unfold InRange at h
      omega
    apply (returns_writeAt hvalid source hpos hover).mono
    intro n s₁ ⟨hn, hwritten⟩
    apply (returns_writeChunks hvalid source sizes hpos hover).mono
    intro ⟨n', file'⟩ s₂ ⟨hn', hwritten', hfile⟩
    dsimp only at hn' hwritten' hfile ⊢
    rw [← hn] at hn'
    subst hn'
    exact ⟨rfl, hfile, hwritten.sameFile hwritten'⟩

include hsize

theorem readSplits_iff (hsum : sizes.sum < 2 ^ 31) : file.ReadSplits sizes s ↔ file.InRange sizes.sum := by
  constructor
  . intro h
    by_contra hout
    unfold InRange at hout
    have hin := inRange_of_fits hvalid hsize (by omega) (by omega) hlower (fun e he => fits_of_readAt he h)
    omega
  . exact readSplits_of_inRange hvalid hlower hupper

theorem writeSplits_iff (hsum : sizes.sum < 2 ^ 31) (source : Buffer)
    : file.WriteSplits source sizes s ↔ file.InRange sizes.sum := by
  constructor
  . intro h
    by_contra hout
    unfold InRange at hout
    have hin := inRange_of_fits hvalid hsize (by omega) (by omega) hlower (fun e he => fits_of_writeAt he h)
    omega
  . exact writeSplits_of_inRange hvalid hlower hupper source

end

def tenBytes : FileHeader where
  numBytes := 10
  numSectors := 1
  dataSectors _ := 5

theorem tenBytes_valid : tenBytes.Valid := by
  refine ⟨by decide, fun _ _ => (by decide : (0 : Int) ≤ 5 ∧ (5 : Int) < SynchDisk.numSectors), ?_⟩
  intro i j hi hj _
  have hblocks : tenBytes.blocks = 1 := by decide
  omega

theorem overflow_not_splits
    : let file : OpenFile := { hdr := tenBytes, seekPosition := 5 }
      let s : Store := { disk := fun _ _ => 0x61, memory := fun _ _ => 0 }
      Returns (file.readChunks [5, 2147483642]) s
        (fun r _ => r.1 = [0x61, 0x61, 0x61, 0x61, 0x61] ∧ r.2.seekPosition = 10) ∧
      ¬Returns (file.readAt 2147483647 5) s (fun _ _ => True) ∧ ¬file.ReadSplits [5, 2147483642] s := by
  -- The reads return the last five bytes. But the sum of the position and of the total size is not an
  -- `int`, and one `ReadAt` copies more than its buffer has.
  intro file s
  refine ⟨⟨_, _, rfl, by decide, by decide⟩, ?_, ?_⟩
  . intro h
    have hin := @inRange_of_fits file tenBytes_valid (by decide) 2147483647 5 (by decide) (by decide) (by decide)
      (fun e he => fits_of_readAt he h)
    omega
  . rw [readSplits_iff tenBytes_valid (by decide) (by decide) (by decide) (by decide)]
    unfold InRange
    decide

end OpenFile

end Filesys

end Nachos
