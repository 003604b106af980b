import Mathlib.Logic.Function.Basic
import Nachos.Lib.Buffer
import Nachos.Lib.Exit
import Nachos.Filesys.SynchDisk

/-!
This module contains `openfile.cc` and the part of `filehdr.cc` that it uses: `ReadAt` and `WriteAt`
transfer exactly the bytes that are asked for, as far as the file has them.
-/

namespace Nachos

namespace Filesys

open Function (update)
open SynchDisk (numSectors)

/--
Why the program stops: a failed `ASSERT` of `disk.cc`, of `bitmap.cc`, in `FileHeader::Deallocate`, in the
constructor of `FileSystem` or in `Copy`, or an access outside an array. In C++ the last one does not stop the
program, but nothing is known about what happens then.
-/
inductive Fault where
  | sector
  | bit
  | unmarked
  | space
  | null
  | index
  deriving DecidableEq

def sectorSize : Nat := 128

/--
`SectorSize` bytes of a sector count. `memory` is what the pieces of memory contain that the next `new`s will
return.
-/
structure Store where
  disk : Nat → Buffer
  memory : Nat → Buffer

abbrev FS : Type → Type :=
  Exit Fault Store

def new : FS Buffer :=
  fun s => .ok (some (s.memory 0), { s with memory := fun i => s.memory (i + 1) })

def readSector (sector : Int) : FS Buffer :=
  if 0 ≤ sector ∧ sector < numSectors then
    Exit.read fun s => s.disk sector.toNat
  else
    Exit.abort .sector

def writeSector (sector : Int) (data : Buffer) : FS Unit :=
  if 0 ≤ sector ∧ sector < numSectors then
    Exit.modify fun s => { s with disk := update s.disk sector.toNat data }
  else
    Exit.abort .sector

def wrap (x : Int) : Int :=
  x.bmod (2 ^ 32)

def divRoundDown (n s : Int) : Int :=
  n.tdiv s

def divRoundUp (n s : Int) : Int :=
  n.tdiv s + if n.tmod s > 0 then 1 else 0

/-! ### `FileHeader` -/

def numDirect : Nat := (sectorSize - 2 * 4) / 4
def maxFileSize : Nat := numDirect * sectorSize

structure FileHeader where
  numBytes : Int
  numSectors : Int
  dataSectors : Nat → Int

namespace FileHeader

def ofBytes (b : Buffer) : FileHeader where
  numBytes := b.int 0
  numSectors := b.int 4
  dataSectors i := b.int (4 * (i + 2))

def bytes (hdr : FileHeader) : Buffer :=
  Buffer.ofWords fun
    | 0 => .ofInt 32 hdr.numBytes
    | 1 => .ofInt 32 hdr.numSectors
    | i + 2 => .ofInt 32 (hdr.dataSectors i)

def fetchFrom (sector : Int) : FS FileHeader := do
  return ofBytes (← readSector sector)

def writeBack (hdr : FileHeader) (sector : Int) : FS Unit :=
  writeSector sector hdr.bytes

def byteToSector (hdr : FileHeader) (offset : Int) : FS Int :=
  let i := offset.tdiv sectorSize
  if 0 ≤ i ∧ i < numDirect then
    pure (hdr.dataSectors i.toNat)
  else
    Exit.abort .index

def fileLength (hdr : FileHeader) : Int :=
  hdr.numBytes

end FileHeader

/-! ### `OpenFile` -/

structure OpenFile where
  hdr : FileHeader
  seekPosition : Int

structure Extent where
  numBytes : Int
  firstSector : Int
  lastSector : Int

def Extent.numSectors (e : Extent) : Int :=
  1 + e.lastSector - e.firstSector

namespace OpenFile

def ofSector (sector : Int) : FS OpenFile := do
  return { hdr := ← FileHeader.fetchFrom sector, seekPosition := 0 }

def seek (file : OpenFile) (position : Int) : OpenFile :=
  { file with seekPosition := position }

def length (file : OpenFile) : Int :=
  file.hdr.fileLength

/--
The first lines of `ReadAt` and of `WriteAt`. It is `none` if they return 0.
-/
def extent (file : OpenFile) (numBytes position : Int) : Option Extent :=
  let fileLength := file.hdr.fileLength
  if numBytes ≤ 0 ∨ position ≥ fileLength then
    none
  else
    let numBytes := if wrap (position + numBytes) > fileLength then wrap (fileLength - position) else numBytes
    some
      { numBytes
        firstSector := divRoundDown position sectorSize
        lastSector := divRoundDown (wrap (position + numBytes - 1)) sectorSize }

def readSectors (file : OpenFile) (firstSector : Int) (count : Nat) (buf : Buffer) : FS Buffer :=
  Exit.loop
    (fun i buf => do
      let sector ← file.hdr.byteToSector ((firstSector + i) * sectorSize)
      let data ← readSector sector
      return buf.blit (i * sectorSize) data sectorSize)
    buf count

def writeSectors (file : OpenFile) (firstSector : Int) (count : Nat) (buf : Buffer) : FS Unit :=
  Exit.loop
    (fun i _ => do
      let sector ← file.hdr.byteToSector ((firstSector + i) * sectorSize)
      writeSector sector (buf.drop (i * sectorSize)))
    () count

def bufferOffset (e : Extent) (position : Int) : FS Nat :=
  let offset := position - e.firstSector * sectorSize
  if 0 ≤ offset ∧ offset + e.numBytes ≤ e.numSectors * sectorSize then
    pure offset.toNat
  else
    Exit.abort .index

/--
Besides the result this returns what is copied to `into`.
-/
def readAt (file : OpenFile) (numBytes position : Int) : FS (Int × Buffer) :=
  match file.extent numBytes position with
  | none => pure (0, fun _ => 0)
  | some e => do
    let buf ← new
    let buf ← file.readSectors e.firstSector e.numSectors.toNat buf
    let offset ← bufferOffset e position
    return (e.numBytes, buf.drop offset)

def readInto (file : OpenFile) (buf : Buffer) (offset position : Int) : FS Buffer := do
  let (n, data) ← file.readAt sectorSize position
  return buf.blit offset.toNat data n.toNat

def firstAligned (e : Extent) (position : Int) : Bool :=
  position == e.firstSector * sectorSize

def lastAligned (e : Extent) (position : Int) : Bool :=
  wrap (position + e.numBytes) == wrap ((e.lastSector + 1) * sectorSize)

def readFirst (file : OpenFile) (e : Extent) (position : Int) (buf : Buffer) : FS Buffer :=
  if !firstAligned e position then
    file.readInto buf 0 (e.firstSector * sectorSize)
  else
    pure buf

def readLast (file : OpenFile) (e : Extent) (position : Int) (buf : Buffer) : FS Buffer :=
  if !lastAligned e position && (e.firstSector != e.lastSector || firstAligned e position) then
    file.readInto buf ((e.lastSector - e.firstSector) * sectorSize) (e.lastSector * sectorSize)
  else
    pure buf

def writeAt (file : OpenFile) (source : Buffer) (numBytes position : Int) : FS Int :=
  match file.extent numBytes position with
  | none => pure 0
  | some e => do
    let buf ← new
    let buf ← file.readFirst e position buf
    let buf ← file.readLast e position buf
    let offset ← bufferOffset e position
    file.writeSectors e.firstSector e.numSectors.toNat (buf.blit offset source e.numBytes.toNat)
    return e.numBytes

def read (file : OpenFile) (numBytes : Int) : FS ((Int × Buffer) × OpenFile) := do
  let result ← file.readAt numBytes file.seekPosition
  return (result, { file with seekPosition := wrap (file.seekPosition + result.1) })

def write (file : OpenFile) (source : Buffer) (numBytes : Int) : FS (Int × OpenFile) := do
  let result ← file.writeAt source numBytes file.seekPosition
  return (result, { file with seekPosition := wrap (file.seekPosition + result) })

end OpenFile

/-! ### Requests that are in range -/

section

open Exit

variable {s : Store}

theorem sectorSize_eq : sectorSize = 128 := rfl

theorem numDirect_eq : numDirect = 30 := rfl

theorem maxFileSize_eq : maxFileSize = 3840 := rfl

theorem numSectors_eq : numSectors = 1024 := rfl

theorem wrap_eq {x : Int} (hlower : -2 ^ 31 ≤ x) (hupper : x < 2 ^ 31) : wrap x = x := by
  unfold wrap
  apply Int.bmod_eq_of_le
  . omega
  . omega

theorem wrap_lt (x : Int) : wrap x < 2 ^ 31 := by
  unfold wrap
  have h := Int.bmod_lt (x := x) (m := 2 ^ 32) (Nat.two_pow_pos 32)
  omega

theorem wrap_of_overflow {x : Int} (hlower : 2 ^ 31 ≤ x) (hupper : x < 2 ^ 32) : wrap x = x - 2 ^ 32 := by
  unfold wrap
  rw [Int.bmod_def, Int.emod_eq_of_lt (by omega) (by omega), if_neg (by omega)]
  rfl

theorem divRoundDown_natCast (n : Nat) : divRoundDown n sectorSize = (n / sectorSize : Nat) := by
  unfold divRoundDown
  rw [Int.tdiv_eq_ediv_of_nonneg (by omega), Int.natCast_ediv]

theorem Returns.new {value : Buffer → Store → Prop} (h : ∀ buf s', s'.disk = s.disk → value buf s')
    : Returns new s value :=
  ⟨_, _, rfl, h _ _ rfl⟩

theorem returns_readSector {sector : Int} (h : 0 ≤ sector ∧ sector < numSectors)
    {value : Buffer → Store → Prop}
    : Returns (readSector sector) s value ↔ value (s.disk sector.toNat) s := by
  unfold readSector
  rw [if_pos h, returns_read]

theorem returns_writeSector {sector : Int} (h : 0 ≤ sector ∧ sector < numSectors) {data : Buffer}
    {value : Unit → Store → Prop}
    : Returns (writeSector sector data) s value ↔
        value () { s with disk := update s.disk sector.toNat data } := by
  unfold writeSector
  rw [if_pos h, returns_modify]

end

/-! ### The bytes of a file -/

namespace FileHeader

def blocks (hdr : FileHeader) : Nat :=
  (divRoundUp hdr.numBytes sectorSize).toNat

def sector (hdr : FileHeader) (i : Nat) : Nat :=
  (hdr.dataSectors i).toNat

def byte (hdr : FileHeader) (disk : Nat → Buffer) (offset : Nat) : BitVec 8 :=
  disk (hdr.sector (offset / sectorSize)) (offset % sectorSize)

structure Valid (hdr : FileHeader) : Prop where
  size : hdr.numBytes ≤ maxFileSize
  range : ∀ i, i < hdr.blocks → 0 ≤ hdr.dataSectors i ∧ hdr.dataSectors i < Nachos.SynchDisk.numSectors
  distinct : ∀ i j, i < hdr.blocks → j < hdr.blocks → hdr.dataSectors i = hdr.dataSectors j → i = j

def transferred (hdr : FileHeader) (numBytes position : Int) : Int :=
  if numBytes ≤ 0 ∨ position ≥ hdr.numBytes then 0 else min numBytes (hdr.numBytes - position)

structure Written (hdr : FileHeader) (source : Buffer) (position k : Nat) (disk disk' : Nat → Buffer) : Prop where
  byte : ∀ offset : Nat, offset < hdr.numBytes → hdr.byte disk' offset =
    if position ≤ offset ∧ offset < position + k then source (offset - position) else hdr.byte disk offset
  frame : ∀ n, (∀ i, i < hdr.blocks → n ≠ hdr.sector i) → disk' n = disk n

theorem written_zero (hdr : FileHeader) (source : Buffer) (p : Nat) (disk : Nat → Buffer)
    : hdr.Written source p 0 disk disk where
  byte offset _ := by rw [if_neg (by omega)]
  frame _ _ := rfl

variable {hdr : FileHeader}

theorem divRoundUp_natCast (n : Nat) : divRoundUp n sectorSize = ((n + 127) / 128 : Nat) := by
  unfold divRoundUp
  rw [Int.tdiv_eq_ediv_of_nonneg (by omega), Int.tmod_eq_emod_of_nonneg (by omega), sectorSize_eq]
  split
  next => omega
  next => omega

theorem divRoundUp_of_nonpos {n : Int} (h : n ≤ 0) : divRoundUp n sectorSize ≤ 0 := by
  obtain ⟨m, rfl⟩ := Int.exists_eq_neg_ofNat h
  unfold divRoundUp
  have hdiv : 0 ≤ (m : Int).tdiv sectorSize := Int.tdiv_nonneg (Int.natCast_nonneg _) (Int.natCast_nonneg _)
  have hmod : 0 ≤ (m : Int).tmod sectorSize := Int.tmod_nonneg _ (by omega)
  rw [Int.neg_tdiv, Int.neg_tmod, if_neg (by omega)]
  omega

theorem blocks_of_natCast {n : Nat} (h : hdr.numBytes = n) : hdr.blocks = (n + 127) / 128 := by
  unfold blocks
  rw [h, divRoundUp_natCast, Int.toNat_natCast]

theorem div_lt_blocks {offset : Nat} (h : offset < hdr.numBytes) : offset / sectorSize < hdr.blocks := by
  obtain ⟨n, hn⟩ := Int.eq_ofNat_of_zero_le (show 0 ≤ hdr.numBytes from by omega)
  rw [blocks_of_natCast hn, sectorSize_eq]
  omega

theorem blocks_le (h : hdr.numBytes ≤ maxFileSize) : hdr.blocks ≤ numDirect := by
  rw [maxFileSize_eq] at h
  rw [numDirect_eq]
  by_cases hneg : hdr.numBytes ≤ 0
  . have := divRoundUp_of_nonpos hneg
    unfold blocks
    omega
  . obtain ⟨n, hn⟩ := Int.eq_ofNat_of_zero_le (show 0 ≤ hdr.numBytes from by omega)
    rw [blocks_of_natCast hn]
    omega

theorem Valid.size_lt (hvalid : hdr.Valid) : hdr.numBytes < 2 ^ 31 := by
  have hsize := hvalid.size
  rw [maxFileSize_eq] at hsize
  omega

theorem Valid.sector_ne (hvalid : hdr.Valid) {i j : Nat} (hi : i < hdr.blocks) (hj : j < hdr.blocks)
    (hne : i ≠ j)
    : hdr.sector i ≠ hdr.sector j := by
  intro h
  have hi' := hvalid.range i hi
  have hj' := hvalid.range j hj
  unfold sector at h
  exact hne (hvalid.distinct i j hi hj (by omega))

end FileHeader

namespace OpenFile

open Exit FileHeader

variable {file : OpenFile} {s : Store}

theorem returns_byteToSector {hdr : FileHeader} {i : Nat} (h : i < numDirect) {value : Int → Store → Prop}
    : Returns (hdr.byteToSector ((i : Int) * sectorSize)) s value ↔ value (hdr.dataSectors i) s := by
  unfold byteToSector
  rw [Int.mul_tdiv_cancel _ (by decide)]
  simp only [Int.toNat_natCast]
  rw [if_pos ⟨by omega, by omega⟩, returns_pure]

theorem returns_readSectors (hvalid : file.hdr.Valid) {first count : Nat}
    (h : first + count ≤ file.hdr.blocks) (buf : Buffer)
    : Returns (file.readSectors first count buf) s (fun buf s' =>
        s' = s ∧ ∀ i, i < count * sectorSize → buf i = file.hdr.byte s.disk (first * sectorSize + i)) := by
  have hblocks := blocks_le hvalid.size
  apply returns_loop (fun n (buf : Buffer) s' =>
    s' = s ∧ ∀ i, i < n * sectorSize → buf i = file.hdr.byte s.disk (first * sectorSize + i))
  . exact ⟨rfl, fun i hi => by omega⟩
  . intro n buf s' hn ⟨hs, hbuf⟩
    subst hs
    rw [← Int.natCast_add, returns_bind, returns_byteToSector (by omega), returns_bind,
      returns_readSector (hvalid.range _ (by omega)), returns_pure]
    refine ⟨rfl, ?_⟩
    intro i hi
    by_cases hlt : i < n * sectorSize
    . rw [Buffer.blit_apply_of_lt_offset _ _ hlt]
      exact hbuf i hlt
    . rw [sectorSize_eq] at *
      have hdiv : (first * 128 + i) / 128 = first + n := by omega
      have hmod : (first * 128 + i) % 128 = i - n * 128 := by omega
      unfold Buffer.blit FileHeader.byte
      rw [if_pos (by omega), sectorSize_eq, hdiv, hmod]
      rfl

theorem returns_writeSectors (hvalid : file.hdr.Valid) {first count : Nat}
    (h : first + count ≤ file.hdr.blocks) (buf : Buffer)
    : Returns (file.writeSectors first count buf) s (fun _ s' =>
        (∀ i, i < count → s'.disk (file.hdr.sector (first + i)) = buf.drop (i * sectorSize)) ∧
        ∀ n, (∀ i, i < count → n ≠ file.hdr.sector (first + i)) → s'.disk n = s.disk n) := by
  have hblocks := blocks_le hvalid.size
  apply returns_loop (fun n _ (s' : Store) =>
    (∀ i, i < n → s'.disk (file.hdr.sector (first + i)) = buf.drop (i * sectorSize)) ∧
    ∀ m, (∀ i, i < n → m ≠ file.hdr.sector (first + i)) → s'.disk m = s.disk m)
  . exact ⟨fun i hi => by omega, fun m _ => rfl⟩
  . intro n _ s' hn ⟨hwritten, hframe⟩
    rw [← Int.natCast_add, returns_bind, returns_byteToSector (by omega),
      returns_writeSector (hvalid.range _ (by omega))]
    change (∀ i, i < n + 1 → update s'.disk (file.hdr.sector (first + n)) (buf.drop (n * sectorSize)) _ = _) ∧ _
    constructor
    . intro i hi
      by_cases hin : i = n
      . rw [hin, Function.update_self]
      . have hne : file.hdr.sector (first + i) ≠ file.hdr.sector (first + n) := by
          apply hvalid.sector_ne
          . omega
          . omega
          . omega
        rw [Function.update_of_ne hne]
        exact hwritten i (by omega)
    . intro m hm
      apply (Function.update_of_ne (hm n (by omega)) _ _).trans
      apply hframe
      intro i hi
      exact hm i (by omega)

def span (p k : Nat) : Extent where
  numBytes := k
  firstSector := (p / sectorSize : Nat)
  lastSector := ((p + k - 1) / sectorSize : Nat)

@[simp]
theorem span_numBytes (p k : Nat) : (span p k).numBytes = k := rfl

@[simp]
theorem span_firstSector (p k : Nat) : (span p k).firstSector = (p / sectorSize : Nat) := rfl

@[simp]
theorem span_lastSector (p k : Nat) : (span p k).lastSector = ((p + k - 1) / sectorSize : Nat) := rfl

theorem extent_of_trivial {numBytes position : Int} (h : numBytes ≤ 0 ∨ position ≥ file.hdr.numBytes)
    : file.extent numBytes position = none := by
  unfold extent FileHeader.fileLength
  rw [if_pos h]

theorem extent_of_request {numBytes position : Int} (h : ¬(numBytes ≤ 0 ∨ position ≥ file.hdr.numBytes))
    : ∃ e, file.extent numBytes position = some e ∧ e.firstSector = position.tdiv sectorSize ∧
        e.lastSector = (wrap (position + e.numBytes - 1)).tdiv sectorSize ∧
        (if wrap (position + numBytes) > file.hdr.numBytes
          then e.numBytes = wrap (file.hdr.numBytes - position)
          else e.numBytes = numBytes) := by
  unfold extent FileHeader.fileLength
  rw [if_neg h]
  refine ⟨_, rfl, rfl, rfl, ?_⟩
  split
  next hcut => rfl
  next hcut => rfl

theorem extent_cases (hsize : file.hdr.numBytes < 2 ^ 31) {numBytes position : Int}
    (hpos : 0 ≤ position) (hover : position + numBytes < 2 ^ 31)
    : (file.extent numBytes position = none ∧ file.hdr.transferred numBytes position = 0) ∨
        ∃ p k : Nat, position = p ∧ 0 < k ∧ (p + k : Nat) ≤ file.hdr.numBytes
          ∧ file.hdr.transferred numBytes position = k ∧ file.extent numBytes position = some (span p k) := by
  unfold extent transferred fileLength
  by_cases hnone : numBytes ≤ 0 ∨ position ≥ file.hdr.numBytes
  . apply Or.inl
    simp only [if_pos hnone, and_self]
  . apply Or.inr
    obtain ⟨p, rfl⟩ := Int.eq_ofNat_of_zero_le hpos
    obtain ⟨k, hk⟩ := Int.eq_ofNat_of_zero_le (show 0 ≤ min numBytes (file.hdr.numBytes - p) from by omega)
    refine ⟨p, k, rfl, by omega, by omega, by rw [if_neg hnone, hk], ?_⟩
    have hbytes : (if wrap (p + numBytes) > file.hdr.numBytes then wrap (file.hdr.numBytes - p) else numBytes) = k := by
      rw [wrap_eq (by omega) (by omega), wrap_eq (by omega) (by omega)]
      split
      next => omega
      next => omega
    have hlast : (p : Int) + k - 1 = (p + k - 1 : Nat) := by omega
    simp only [if_neg hnone, hbytes]
    rw [wrap_eq (by omega) (by omega), hlast, divRoundDown_natCast, divRoundDown_natCast]
    rfl

theorem span_numSectors {p k : Nat} (hk : 0 < k)
    : (span p k).numSectors = ((p + k - 1) / sectorSize - p / sectorSize + 1 : Nat) := by
  have hle : p / sectorSize ≤ (p + k - 1) / sectorSize := Nat.div_le_div_right (by omega)
  simp only [Extent.numSectors, span_firstSector, span_lastSector]
  omega

theorem returns_bufferOffset {p k : Nat} (hk : 0 < k) {value : Nat → Store → Prop}
    : Returns (bufferOffset (span p k) p) s value ↔ value (p % sectorSize) s := by
  have hoffset : (p : Int) - (p / sectorSize : Nat) * sectorSize = (p % sectorSize : Nat) := by
    rw [sectorSize_eq]
    omega
  have hfits : ((p % sectorSize : Nat) : Int) + k
      ≤ ((p + k - 1) / sectorSize - p / sectorSize + 1 : Nat) * sectorSize := by
    rw [sectorSize_eq]
    omega
  unfold bufferOffset
  simp only [span_firstSector, span_numBytes, span_numSectors hk, hoffset, Int.toNat_natCast]
  rw [if_pos ⟨by omega, hfits⟩, returns_pure]

theorem returns_readAt (hvalid : file.hdr.Valid) {numBytes position : Int} (hpos : 0 ≤ position)
    (hover : position + numBytes < 2 ^ 31)
    : Returns (file.readAt numBytes position) s (fun r s' =>
        s'.disk = s.disk ∧ r.1 = file.hdr.transferred numBytes position ∧
        ∀ i : Nat, i < r.1 → r.2 i = file.hdr.byte s.disk (position.toNat + i)) := by
  unfold readAt
  cases extent_cases hvalid.size_lt hpos hover with
  | inl hnone =>
    simp only [hnone.1, hnone.2, returns_pure]
    exact ⟨trivial, trivial, fun i hi => by omega⟩
  | inr hsome =>
    obtain ⟨p, k, rfl, hk, hend, htransferred, hextent⟩ := hsome
    simp only [hextent, htransferred, span_numBytes, span_firstSector, span_numSectors hk, Int.toNat_natCast]
    have hlast : (p + k - 1) / sectorSize < file.hdr.blocks := div_lt_blocks (by omega)
    have hle : p / sectorSize ≤ (p + k - 1) / sectorSize := Nat.div_le_div_right (by omega)
    rw [returns_bind]
    apply Returns.new
    intro buf s' hs
    apply (returns_readSectors hvalid (by omega) buf).bind
    rintro buf s'' ⟨hs', hbuf⟩
    subst hs'
    rw [returns_bind, returns_bufferOffset hk, returns_pure]
    refine ⟨hs, rfl, ?_⟩
    intro i hi
    have hoffset : p / sectorSize * sectorSize + (p % sectorSize + i) = p + i := by
      rw [sectorSize_eq]
      omega
    have hinside : p % sectorSize + i < ((p + k - 1) / sectorSize - p / sectorSize + 1) * sectorSize := by
      rw [sectorSize_eq]
      omega
    rw [← hoffset, ← hs]
    exact hbuf _ hinside

theorem returns_readInto (hvalid : file.hdr.Valid) (buf : Buffer) (offset : Nat) {n : Nat}
    (h : (n * sectorSize : Nat) < file.hdr.numBytes)
    : Returns (file.readInto buf offset ((n : Int) * sectorSize)) s (fun buf' s' =>
        s'.disk = s.disk ∧ (∀ i, i < offset → buf' i = buf i) ∧
        ∀ i, i < sectorSize → (n * sectorSize + i : Nat) < file.hdr.numBytes →
          buf' (offset + i) = file.hdr.byte s.disk (n * sectorSize + i)) := by
  have hsize := hvalid.size
  rw [maxFileSize_eq] at hsize
  unfold readInto
  rw [← Int.natCast_mul]
  apply (returns_readAt hvalid (by omega) (by rw [sectorSize_eq] at *; omega)).bind
  intro r s' ⟨hs, hcount, hdata⟩
  rw [returns_pure, Int.toNat_natCast]
  refine ⟨hs, ?_, ?_⟩
  . intro i hi
    exact Buffer.blit_apply_of_lt_offset _ _ hi
  . intro i hi hinside
    have hlt : i < r.1 := by
      rw [hcount]
      unfold transferred
      rw [sectorSize_eq] at *
      rw [if_neg (by omega)]
      omega
    unfold Buffer.blit
    rw [if_pos (by omega), Nat.add_sub_cancel_left]
    exact hdata i hlt

theorem firstAligned_span (p k : Nat) : firstAligned (span p k) p = true ↔ p = p / sectorSize * sectorSize := by
  simp only [firstAligned, span_firstSector, beq_iff_eq]
  rw [← Int.natCast_mul]
  omega

theorem lastAligned_span {p k : Nat} (h : p + k ≤ maxFileSize)
    : lastAligned (span p k) p = true ↔ p + k = ((p + k - 1) / sectorSize + 1) * sectorSize := by
  rw [maxFileSize_eq] at h
  simp only [lastAligned, span_lastSector, span_numBytes, beq_iff_eq, sectorSize_eq]
  rw [wrap_eq (by omega) (by omega), wrap_eq (by omega) (by omega)]
  omega

theorem returns_readFirst (hvalid : file.hdr.Valid) {p k : Nat} (hk : 0 < k)
    (hend : (p + k : Nat) ≤ file.hdr.numBytes) (buf : Buffer)
    : Returns (file.readFirst (span p k) p buf) s (fun buf s' =>
        s'.disk = s.disk ∧
        (p / sectorSize * sectorSize < p → ∀ i, i < sectorSize →
          (p / sectorSize * sectorSize + i : Nat) < file.hdr.numBytes →
          buf i = file.hdr.byte s.disk (p / sectorSize * sectorSize + i))) := by
  have hle : p / sectorSize * sectorSize ≤ p := Nat.div_mul_le_self p sectorSize
  unfold readFirst
  simp only [Bool.not_eq_true', ← Bool.not_eq_true, firstAligned_span, span_firstSector]
  split
  next =>
    apply (returns_readInto hvalid buf 0 (by omega)).mono
    intro buf' s' ⟨hs, _, hbytes⟩
    refine ⟨hs, ?_⟩
    intro _ i hi hinside
    have hbyte := hbytes i hi hinside
    rwa [Nat.zero_add] at hbyte
  next haligned =>
    rw [returns_pure]
    refine ⟨rfl, ?_⟩
    intro hlt
    omega

theorem returns_readLast (hvalid : file.hdr.Valid) {p k : Nat} (hk : 0 < k)
    (hend : (p + k : Nat) ≤ file.hdr.numBytes) {buf : Buffer}
    (hfirst : p / sectorSize * sectorSize < p → ∀ i, i < sectorSize →
      (p / sectorSize * sectorSize + i : Nat) < file.hdr.numBytes →
      buf i = file.hdr.byte s.disk (p / sectorSize * sectorSize + i))
    : Returns (file.readLast (span p k) p buf) s (fun buf s' =>
        s'.disk = s.disk ∧
        ∀ i, i < ((p + k - 1) / sectorSize - p / sectorSize + 1) * sectorSize →
          (p / sectorSize * sectorSize + i : Nat) < file.hdr.numBytes →
          p / sectorSize * sectorSize + i < p ∨ p + k ≤ p / sectorSize * sectorSize + i →
          buf i = file.hdr.byte s.disk (p / sectorSize * sectorSize + i)) := by
  have hsize := hvalid.size
  have hoffset : (((p + k - 1) / sectorSize : Nat) - (p / sectorSize : Nat) : Int) * sectorSize
      = (((p + k - 1) / sectorSize - p / sectorSize) * sectorSize : Nat) := by
    rw [sectorSize_eq]
    omega
  unfold readLast
  simp only [Bool.and_eq_true, Bool.or_eq_true, bne_iff_ne, Bool.not_eq_true', ← Bool.not_eq_true,
    firstAligned_span, lastAligned_span (show p + k ≤ maxFileSize from by omega), span_firstSector, span_lastSector,
    hoffset]
  rw [sectorSize_eq] at *
  split
  next hlast =>
    apply (returns_readInto hvalid buf _ (by rw [sectorSize_eq]; omega)).mono
    intro buf' s' ⟨hs, hbefore, hbytes⟩
    refine ⟨hs, ?_⟩
    intro i hi hinside hkept
    rw [sectorSize_eq] at hbytes
    by_cases hlt : i < ((p + k - 1) / 128 - p / 128) * 128
    . rw [hbefore i hlt]
      exact hfirst (by omega) i (by omega) hinside
    . obtain ⟨j, rfl⟩ := Nat.exists_eq_add_of_le (Nat.le_of_not_lt hlt)
      have hoffset' : p / 128 * 128 + (((p + k - 1) / 128 - p / 128) * 128 + j) = (p + k - 1) / 128 * 128 + j := by
        omega
      rw [hbytes j (by omega) (by omega), hoffset']
  next hlast =>
    rw [returns_pure]
    refine ⟨rfl, ?_⟩
    intro i hi hinside hkept
    exact hfirst (by omega) i (by omega) hinside

theorem written_of_sectors (hvalid : file.hdr.Valid) {p k : Nat} (hk : 0 < k)
    (hend : (p + k : Nat) ≤ file.hdr.numBytes) {buf source : Buffer} {disk disk' : Nat → Buffer}
    (hbuf : ∀ i, i < ((p + k - 1) / sectorSize - p / sectorSize + 1) * sectorSize →
      (p / sectorSize * sectorSize + i : Nat) < file.hdr.numBytes →
      p / sectorSize * sectorSize + i < p ∨ p + k ≤ p / sectorSize * sectorSize + i →
      buf i = file.hdr.byte disk (p / sectorSize * sectorSize + i))
    (hwritten : ∀ i, i < (p + k - 1) / sectorSize - p / sectorSize + 1 →
      disk' (file.hdr.sector (p / sectorSize + i)) = (buf.blit (p % sectorSize) source k).drop (i * sectorSize))
    (hframe : ∀ n, (∀ i, i < (p + k - 1) / sectorSize - p / sectorSize + 1 →
      n ≠ file.hdr.sector (p / sectorSize + i)) → disk' n = disk n)
    : file.hdr.Written source p k disk disk' := by
  have hlast : (p + k - 1) / sectorSize < file.hdr.blocks := div_lt_blocks (by omega)
  have hle : p / sectorSize ≤ (p + k - 1) / sectorSize := Nat.div_le_div_right (by omega)
  constructor
  case byte =>
    intro offset hoffset
    by_cases htouched : p / sectorSize ≤ offset / sectorSize ∧ offset / sectorSize ≤ (p + k - 1) / sectorSize
    . obtain ⟨j, hj⟩ := Nat.exists_eq_add_of_le htouched.1
      have hbyte : file.hdr.byte disk' offset
          = buf.blit (p % sectorSize) source k (j * sectorSize + offset % sectorSize) := by
        unfold FileHeader.byte
        rw [hj, hwritten j (by omega), Buffer.drop_apply]
      have hi : p / sectorSize * sectorSize + (j * sectorSize + offset % sectorSize) = offset := by
        rw [sectorSize_eq] at *
        omega
      have hold := hbuf (j * sectorSize + offset % sectorSize)
      rw [hi] at hold
      rw [hbyte]
      unfold Buffer.blit
      rw [sectorSize_eq] at *
      split
      next =>
        rw [if_pos (by omega)]
        congr 1
        omega
      next =>
        rw [if_neg (by omega)]
        exact hold (by omega) hoffset (by omega)
    . have hkept : disk' (file.hdr.sector (offset / sectorSize)) = disk (file.hdr.sector (offset / sectorSize)) := by
        apply hframe
        intro i hi
        apply hvalid.sector_ne (div_lt_blocks hoffset)
        . omega
        . omega
      unfold FileHeader.byte
      rw [hkept, if_neg (by rw [sectorSize_eq] at *; omega)]
  case frame =>
    intro n hn
    apply hframe
    intro i hi
    exact hn _ (by omega)

theorem returns_writeAt (hvalid : file.hdr.Valid) (source : Buffer) {numBytes position : Int}
    (hpos : 0 ≤ position) (hover : position + numBytes < 2 ^ 31)
    : Returns (file.writeAt source numBytes position) s (fun r s' =>
        r = file.hdr.transferred numBytes position ∧
        file.hdr.Written source position.toNat r.toNat s.disk s'.disk) := by
  unfold writeAt
  cases extent_cases hvalid.size_lt hpos hover with
  | inl hnone =>
    simp only [hnone.1, hnone.2, returns_pure]
    exact ⟨trivial, written_zero _ _ _ _⟩
  | inr hsome =>
    obtain ⟨p, k, rfl, hk, hend, htransferred, hextent⟩ := hsome
    simp only [hextent, htransferred, span_numBytes, span_firstSector, span_numSectors hk, Int.toNat_natCast]
    have hlast : (p + k - 1) / sectorSize < file.hdr.blocks := div_lt_blocks (by omega)
    have hle : p / sectorSize ≤ (p + k - 1) / sectorSize := Nat.div_le_div_right (by omega)
    rw [returns_bind]
    apply Returns.new
    intro buf s₁ hs₁
    apply (returns_readFirst hvalid hk hend buf).bind
    rintro buf s₂ ⟨hs₂, hfirst⟩
    rw [← hs₂] at hfirst
    apply (returns_readLast hvalid hk hend hfirst).bind
    rintro buf s₃ ⟨hs₃, hbuf⟩
    rw [returns_bind, returns_bufferOffset hk]
    apply (returns_writeSectors hvalid (by omega) _).bind
    rintro _ s₄ ⟨hwritten, hframe⟩
    rw [returns_pure]
    rw [hs₃, hs₂, hs₁] at hframe
    rw [hs₂, hs₁] at hbuf
    exact ⟨rfl, written_of_sectors hvalid hk hend hbuf hwritten hframe⟩

theorem transfers_exact (file : OpenFile) (hvalid : file.hdr.Valid) (source : Buffer) (numBytes position : Int32)
    (hpos : 0 ≤ position.toInt) (hover : position.toInt + numBytes.toInt < 2 ^ 31) (s : Store)
    : ∃ k, k = (if numBytes.toInt ≤ 0 ∨ position.toInt ≥ file.hdr.numBytes then 0
          else min numBytes.toInt (file.hdr.numBytes - position.toInt)) ∧
        (∃ bytes s', file.readAt numBytes.toInt position.toInt s = .ok (some (k, bytes), s') ∧ s'.disk = s.disk ∧
          ∀ i : Nat, i < k → bytes i = file.hdr.byte s.disk (position.toInt.toNat + i)) ∧
        ∃ s', file.writeAt source numBytes.toInt position.toInt s = .ok (some k, s') ∧
          (∀ i : Nat, i < k → file.hdr.byte s'.disk (position.toInt.toNat + i) = source i) ∧
          (∀ offset : Nat, offset < file.hdr.numBytes → ¬(position.toInt ≤ offset ∧ offset < position.toInt + k) →
            file.hdr.byte s'.disk offset = file.hdr.byte s.disk offset) ∧
          ∀ n, (∀ i, i < file.hdr.blocks → n ≠ file.hdr.sector i) → s'.disk n = s.disk n := by
  obtain ⟨⟨k, bytes⟩, s₁, hread, hs₁, hk, hbytes⟩ := returns_readAt (s := s) hvalid hpos hover
  obtain ⟨k', s₂, hwrite, hk', hwritten⟩ := returns_writeAt (s := s) hvalid source hpos hover
  dsimp only at hk hbytes
  have heq : k' = k := hk'.trans hk.symm
  subst heq
  refine ⟨k', hk, ⟨bytes, s₁, hread, hs₁, hbytes⟩, s₂, hwrite, ?_, ?_, hwritten.frame⟩
  . intro i hi
    have hinside : (position.toInt.toNat + i : Nat) < file.hdr.numBytes := by
      unfold transferred at hk
      split at hk
      . omega
      . omega
    rw [hwritten.byte _ hinside, if_pos (by omega), Nat.add_sub_cancel_left]
  . intro offset hoffset hout
    rw [hwritten.byte offset hoffset, if_neg (by omega)]

theorem transfers_exact_across_sectors
    : ∃ s', writeAt
          { hdr := { numBytes := 200, numSectors := 2, dataSectors := fun i => i + 5 }, seekPosition := 0 }
          (fun _ => 1) (100 : Int32).toInt (90 : Int32).toInt { disk := fun _ _ => 0, memory := fun _ _ => 7 } =
          .ok (some 100, s') ∧
        s'.disk 4 = fun _ => 0 := by
  have hvalid : FileHeader.Valid { numBytes := 200, numSectors := 2, dataSectors := fun i => i + 5 } := by
    have hblocks : FileHeader.blocks { numBytes := 200, numSectors := 2, dataSectors := fun i => i + 5 } = 2 := rfl
    have hsectors := numSectors_eq
    constructor
    case size => decide
    case range =>
      intro i hi
      dsimp only
      omega
    case distinct =>
      intro i j hi hj heq
      dsimp only at heq
      omega
  obtain ⟨k, hk, _, s', hwrite, _, _, hframe⟩ := transfers_exact { hdr := _, seekPosition := 0 } hvalid (fun _ => 1)
    100 90 (by decide) (by decide) { disk := fun _ _ => 0, memory := fun _ _ => 7 }
  have hcount : k = 100 := hk.trans (by decide)
  subst hcount
  refine ⟨s', hwrite, hframe 4 ?_⟩
  intro i hi
  dsimp only [FileHeader.sector]
  omega

/-! ### `Read` and `Write` -/

theorem wrap_seekPosition (hvalid : file.hdr.Valid) {numBytes : Int} (hpos : 0 ≤ file.seekPosition)
    (hlt : file.seekPosition < 2 ^ 31)
    : wrap (file.seekPosition + file.hdr.transferred numBytes file.seekPosition)
        = file.seekPosition + file.hdr.transferred numBytes file.seekPosition := by
  have hsize := hvalid.size
  rw [maxFileSize_eq] at hsize
  unfold transferred
  split
  next => exact wrap_eq (by omega) (by omega)
  next => exact wrap_eq (by omega) (by omega)

theorem returns_read (hvalid : file.hdr.Valid) {numBytes : Int} (hpos : 0 ≤ file.seekPosition)
    (hlt : file.seekPosition < 2 ^ 31) (hover : file.seekPosition + numBytes < 2 ^ 31)
    : Returns (file.read numBytes) s (fun r s' =>
        s'.disk = s.disk ∧ r.1.1 = file.hdr.transferred numBytes file.seekPosition ∧
        (∀ i : Nat, i < r.1.1 → r.1.2 i = file.hdr.byte s.disk (file.seekPosition.toNat + i)) ∧
        r.2 = file.seek (file.seekPosition + r.1.1)) := by
  unfold read
  apply (returns_readAt hvalid hpos hover).bind
  intro r s' ⟨hs, hcount, hdata⟩
  rw [returns_pure]
  refine ⟨hs, hcount, hdata, ?_⟩
  rw [hcount, wrap_seekPosition hvalid hpos hlt]
  rfl

theorem returns_write (hvalid : file.hdr.Valid) (source : Buffer) {numBytes : Int} (hpos : 0 ≤ file.seekPosition)
    (hlt : file.seekPosition < 2 ^ 31) (hover : file.seekPosition + numBytes < 2 ^ 31)
    : Returns (file.write source numBytes) s (fun r s' =>
        r.1 = file.hdr.transferred numBytes file.seekPosition ∧
        file.hdr.Written source file.seekPosition.toNat r.1.toNat s.disk s'.disk ∧
        r.2 = file.seek (file.seekPosition + r.1)) := by
  unfold write
  apply (returns_writeAt hvalid source hpos hover).bind
  intro r s' ⟨hcount, hwritten⟩
  rw [returns_pure]
  refine ⟨hcount, hwritten, ?_⟩
  rw [hcount, wrap_seekPosition hvalid hpos hlt]
  rfl

/-! ### The first bytes of a file -/

theorem transferred_zero {hdr : FileHeader} {n : Nat} (h : n ≤ hdr.numBytes) : hdr.transferred n 0 = n := by
  unfold transferred
  split
  next => omega
  next => omega

theorem returns_readAt_zero (hvalid : file.hdr.Valid) {n : Nat} (h : n ≤ file.hdr.numBytes)
    : Returns (file.readAt n 0) s (fun r s' =>
        s'.disk = s.disk ∧ r.1 = n ∧ ∀ i, i < n → r.2 i = file.hdr.byte s.disk i) := by
  have hsize := hvalid.size
  rw [maxFileSize_eq] at hsize
  apply (returns_readAt hvalid (by omega) (by omega)).mono
  intro r s' ⟨hs, hcount, hdata⟩
  rw [transferred_zero h] at hcount
  refine ⟨hs, hcount, ?_⟩
  intro i hi
  rw [hdata i (by omega), Int.toNat_zero, Nat.zero_add]

theorem returns_writeAt_zero (hvalid : file.hdr.Valid) (source : Buffer) {n : Nat} (h : n ≤ file.hdr.numBytes)
    : Returns (file.writeAt source n 0) s (fun _ s' => file.hdr.Written source 0 n s.disk s'.disk) := by
  have hsize := hvalid.size
  rw [maxFileSize_eq] at hsize
  apply (returns_writeAt hvalid source (by omega) (by omega)).mono
  intro r s' ⟨hcount, hwritten⟩
  rw [transferred_zero h] at hcount
  rwa [hcount, Int.toNat_natCast] at hwritten

end OpenFile

end Filesys

end Nachos
