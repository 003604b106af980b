import Nachos.Bin.Coff2noff
import Nachos.Filesys.Sequential
import Nachos.Machine.Trap

/-!
This module contains the executable loader of `addrspace.cc`, over the `ReadAt` of either build: the one of the
host (`FILESYS_STUB`) and the one of `openfile.cc` (`FILESYS`).
-/

namespace Nachos

def userStackSize : UInt32 := 1024

def divRoundUp (n s : UInt32) : UInt32 :=
  n / s + if n % s > 0 then 1 else 0

namespace AddrSpace

open Exit

/--
The two `ASSERT`s of the constructor, and the one of `Lseek`.
-/
inductive Assertion where
  | magic
  | numPages
  | lseek
  deriving DecidableEq, Repr

/--
`&mainMemory[into]` and the bytes that `ReadAt` copies there.
-/
structure Copy where
  into : Int
  bytes : List UInt8

-- A copy to memory outside of the array does not change the array.
def Copy.apply (copy : Copy) (mainMemory : Nat → Byte) : Nat → Byte := fun address =>
  if copy.into ≤ address ∧ address < copy.into + copy.bytes.length then
    (copy.bytes.getD (address - copy.into).toNat 0).toBitVec
  else
    mainMemory address

def pageTable (numPages : Nat) : List TranslationEntry :=
  (List.range numPages).map fun i => ⟨.ofNat 32 i, .ofNat 32 i, true, false, false, false⟩

def bzero (mainMemory : Nat → Byte) (size : Nat) : Nat → Byte := fun address =>
  if address < size then
    0
  else
    mainMemory address

structure Loaded where
  numPages : UInt32
  pageTable : List TranslationEntry
  mainMemory : Nat → Byte
  copies : List Copy

def numPages (noffH : NoffHeader) : UInt32 :=
  let size := noffH.code.size + noffH.initData.size + noffH.uninitData.size + userStackSize
  divRoundUp size (.ofNat pageSize)

def place (noffH : NoffHeader) (mainMemory : Nat → Byte) (copies : List Copy) : Loaded :=
  let size := numPages noffH * .ofNat pageSize
  { numPages := numPages noffH
    pageTable := pageTable (numPages noffH).toNat
    mainMemory := copies.foldl (fun memory copy => copy.apply memory) (bzero mainMemory size.toNat)
    copies }

section

variable {m : Type → Type} [Monad m] (readAt : UInt32 → UInt32 → m (List UInt8)) (fail : Assertion → m Loaded)

def Segment.copies (segment : Segment) : m (List Copy) :=
  if segment.size.toInt32.toInt > 0 then do
    let bytes ← readAt segment.size segment.inFileAddr
    return [⟨segment.virtualAddr.toInt32.toInt, bytes⟩]
  else
    return []

/--
`noffH` after `ReadAt`, where `uninit` is what its memory held before.
-/
def readHeader (uninit : NoffHeader) : m NoffHeader := do
  let buffer ← readAt (.ofNat noffHeaderSize) 0
  return .ofBytes (buffer ++ uninit.bytes.drop buffer.length)

def build (noffH : NoffHeader) (mainMemory : Nat → Byte) : m Loaded :=
  if noffH.noffMagic ≠ noffMagicNumber then
    fail .magic
  else if ¬numPages noffH ≤ .ofNat numPhysPages then
    fail .numPages
  else do
    let code ← Segment.copies readAt noffH.code
    let initData ← Segment.copies readAt noffH.initData
    return place noffH mainMemory (code ++ initData)

-- `SwapHeader` does nothing if the host is little endian.
def load (uninit : NoffHeader) (mainMemory : Nat → Byte) : m Loaded := do
  let noffH ← readHeader readAt uninit
  build readAt fail noffH mainMemory

end

/--
`ReadAt` of the `FILESYS_STUB` build: `Lseek` and `ReadPartial`.
-/
def hostReadAt (file : List UInt8) (numBytes position : UInt32) : Except Assertion (List UInt8) :=
  if position.toInt32.toInt < 0 then
    .error .lseek
  else if numBytes.toInt32.toInt < 0 then
    .ok []
  else
    .ok ((file.drop position.toNat).take numBytes.toNat)

def addrSpace (uninit : NoffHeader) (executable : List UInt8) (mainMemory : Nat → Byte)
    : Except Assertion Loaded :=
  load (hostReadAt executable) .error uninit mainMemory

inductive Stop where
  | assertion (a : Assertion)
  | fault (f : Filesys.Fault)

/--
`ReadAt` of the `FILESYS` build, with the bytes that it copies.
-/
def fileReadAt (file : Filesys.OpenFile) (numBytes position : UInt32) : Exit Stop Filesys.Store (List UInt8) := do
  let (count, bytes) ← mapError .fault (file.readAt numBytes.toInt32.toInt position.toInt32.toInt)
  return (bytes.take count.toNat).map UInt8.ofBitVec

def fileAddrSpace (uninit : NoffHeader) (executable : Filesys.OpenFile) (mainMemory : Nat → Byte)
    : Exit Stop Filesys.Store Loaded :=
  load (fileReadAt executable) (fun a => .abort (.assertion a)) uninit mainMemory

def Loaded.restoreState (loaded : Loaded) (m : Machine) : Machine :=
  { m with mainMemory := loaded.mainMemory, pageTable := some loaded.pageTable }

/-! ### The loader stays inside physical memory -/

structure Passes (noffH : NoffHeader) : Prop where
  magic : noffH.noffMagic = noffMagicNumber
  numPages : numPages noffH ≤ .ofNat numPhysPages

/--
The sizes as the integers that the header holds, added up without an overflow.
-/
def total (noffH : NoffHeader) : Int :=
  noffH.code.size.toInt32.toInt + noffH.initData.size.toInt32.toInt + noffH.uninitData.size.toInt32.toInt +
    userStackSize.toNat

def Inside (loaded : Loaded) (noffH : NoffHeader) : Prop :=
  total noffH ≤ loaded.numPages.toNat * pageSize ∧
    ∀ copy ∈ loaded.copies, ∀ i < copy.bytes.length,
      0 ≤ copy.into + i ∧ copy.into + i < loaded.numPages.toNat * pageSize

inductive Build where
  | stub
  | filesys
  deriving DecidableEq

/--
The request to `ReadAt` is one that the build can serve, and what the file has of the segment ends before `limit`.
-/
def Segment.Within (build : Build) (segment : Segment) (fileLength limit : Int) : Prop :=
  let virtualAddr := segment.virtualAddr.toInt32.toInt
  let inFileAddr := segment.inFileAddr.toInt32.toInt
  let size := segment.size.toInt32.toInt
  size ≤ 0 ∨ 0 ≤ inFileAddr ∧
    (fileLength ≤ inFileAddr ∨
      (build = .filesys → inFileAddr + size < 2 ^ 31) ∧
      0 ≤ virtualAddr ∧ virtualAddr + min size (fileLength - inFileAddr) ≤ limit)

/--
`total` is not too large for an `unsigned int`, and the segments are within the pages for it.
-/
def Fits (build : Build) (noffH : NoffHeader) (fileLength : Int) : Prop :=
  let limit := (total noffH % 2 ^ 32 + 127) / 128 * 128
  total noffH < 2 ^ 32 ∧ Segment.Within build noffH.code fileLength limit ∧
    Segment.Within build noffH.initData fileLength limit

theorem toInt_eq (x : UInt32)
    : x.toInt32.toInt = if 2 * x.toNat < 2 ^ 32 then (x.toNat : Int) else x.toNat - (2 ^ 32 : Nat) :=
  BitVec.toInt_eq_toNat_cond x.toBitVec

theorem toInt_emod (x : UInt32) : x.toInt32.toInt % 2 ^ 32 = x.toNat := by
  have hlt := x.toNat_lt
  rw [toInt_eq]
  split <;> omega

theorem toInt_of_lt {x : UInt32} (h : x.toNat < 2 ^ 31) : x.toInt32.toInt = x.toNat := by
  rw [toInt_eq, if_pos (by omega)]

theorem toNat_divRoundUp (n : UInt32) : (divRoundUp n (.ofNat pageSize)).toNat = (n.toNat + 127) / 128 := by
  have hlt := n.toNat_lt
  unfold divRoundUp
  have hsize : (UInt32.ofNat pageSize).toNat = 128 := rfl
  have hmod : n % .ofNat pageSize > 0 ↔ 0 < n.toNat % 128 := by
    rw [gt_iff_lt, UInt32.lt_iff_toNat_lt, UInt32.toNat_mod, hsize]
    rfl
  rw [UInt32.toNat_add, UInt32.toNat_div, hsize]
  split
  next h =>
    rw [hmod] at h
    change (n.toNat / 128 + 1) % 2 ^ 32 = _
    omega
  next h =>
    rw [hmod] at h
    change (n.toNat / 128 + 0) % 2 ^ 32 = _
    omega

theorem toInt_lt (x : UInt32) : x.toInt32.toInt < 2 ^ 31 := by
  have hlt := x.toNat_lt
  rw [toInt_eq]
  split <;> omega

theorem neg_le_toInt (x : UInt32) : -2 ^ 31 ≤ x.toInt32.toInt := by
  rw [toInt_eq]
  split <;> omega

theorem toNat_of_toInt {x : UInt32} (h : 0 ≤ x.toInt32.toInt) : (x.toNat : Int) = x.toInt32.toInt := by
  have hlt := x.toNat_lt
  rw [toInt_eq] at h ⊢
  split at h <;> split <;> omega

theorem toNat_numPages (noffH : NoffHeader) : ((numPages noffH).toNat : Int) = (total noffH % 2 ^ 32 + 127) / 128 := by
  have hcode := toInt_emod noffH.code.size
  have hinit := toInt_emod noffH.initData.size
  have huninit := toInt_emod noffH.uninitData.size
  unfold numPages
  dsimp only
  rw [toNat_divRoundUp, UInt32.toNat_add, UInt32.toNat_add, UInt32.toNat_add]
  unfold total
  omega

def CopiesInside (limit : Int) (copies : List Copy) : Prop :=
  ∀ copy ∈ copies, ∀ i < copy.bytes.length, 0 ≤ copy.into + i ∧ copy.into + i < limit

theorem copiesInside_nil (limit into : Int) : CopiesInside limit [⟨into, []⟩] := by
  intro copy hcopy i hi
  rw [List.mem_singleton] at hcopy
  subst hcopy
  simp at hi

theorem copiesInside_singleton {limit into : Int} {bytes : List UInt8} (h : 0 < bytes.length)
    : CopiesInside limit [⟨into, bytes⟩] ↔ 0 ≤ into ∧ into + bytes.length ≤ limit := by
  unfold CopiesInside
  simp only [List.mem_singleton, forall_eq]
  constructor
  . intro hinside
    have hfirst := hinside 0 h
    have hlast := hinside (bytes.length - 1) (by omega)
    omega
  . intro hinside i hi
    omega

theorem inside_place_iff {noffH : NoffHeader} (h : Passes noffH) (mainMemory : Nat → Byte) (code initData : List Copy)
    : Inside (place noffH mainMemory (code ++ initData)) noffH ↔
        let limit := (total noffH % 2 ^ 32 + 127) / 128 * 128
        total noffH < 2 ^ 32 ∧ CopiesInside limit code ∧ CopiesInside limit initData := by
  have hpages := toNat_numPages noffH
  have hle : (numPages noffH).toNat ≤ numPhysPages := UInt32.le_iff_toNat_le.mp h.numPages
  have htotal : total noffH ≤ (numPages noffH).toNat * pageSize ↔ total noffH < 2 ^ 32 := by
    unfold pageSize
    unfold numPhysPages at hle
    omega
  have hlimit : ((numPages noffH).toNat : Int) * pageSize = (total noffH % 2 ^ 32 + 127) / 128 * 128 := by
    rw [hpages]
    rfl
  unfold Inside place CopiesInside
  dsimp only
  rw [htotal, hlimit, List.forall_mem_append]

section

variable {m : Type → Type} [Monad m] (readAt : UInt32 → UInt32 → m (List UInt8))

theorem build_of_passes (fail : Assertion → m Loaded) {noffH : NoffHeader} (h : Passes noffH)
    (mainMemory : Nat → Byte)
    : build readAt fail noffH mainMemory = do
        let code ← Segment.copies readAt noffH.code
        let initData ← Segment.copies readAt noffH.initData
        return place noffH mainMemory (code ++ initData) := by
  unfold build
  rw [if_neg (not_not.mpr h.magic), if_neg (not_not.mpr h.numPages)]

theorem copies_of_nonpos {segment : Segment} (h : segment.size.toInt32.toInt ≤ 0)
    : Segment.copies readAt segment = pure [] := by
  unfold Segment.copies
  rw [if_neg (by omega)]

theorem copies_of_pos {segment : Segment} (h : 0 < segment.size.toInt32.toInt)
    : Segment.copies readAt segment = do
        let bytes ← readAt segment.size segment.inFileAddr
        return [⟨segment.virtualAddr.toInt32.toInt, bytes⟩] := by
  unfold Segment.copies
  rw [if_pos h]

end

theorem hostReadAt_of_nonneg {file : List UInt8} {numBytes position : UInt32} (hsize : 0 < numBytes.toInt32.toInt)
    (hpos : 0 ≤ position.toInt32.toInt)
    : hostReadAt file numBytes position = .ok ((file.drop position.toNat).take numBytes.toNat) := by
  unfold hostReadAt
  rw [if_neg (by omega), if_neg (by omega)]

theorem hostCopies_iff (segment : Segment) (file : List UInt8) (limit : Int)
    : (∃ copies, Segment.copies (hostReadAt file) segment = .ok copies ∧ CopiesInside limit copies) ↔
        Segment.Within .stub segment file.length limit := by
  unfold Segment.Within
  dsimp only
  by_cases hsize : segment.size.toInt32.toInt ≤ 0
  . rw [copies_of_nonpos _ hsize]
    exact ⟨fun _ => .inl hsize, fun _ => ⟨[], rfl, nofun⟩⟩
  . rw [copies_of_pos _ (by omega)]
    by_cases hpos : 0 ≤ segment.inFileAddr.toInt32.toInt
    . rw [hostReadAt_of_nonneg (by omega) hpos]
      have hlength : (((file.drop segment.inFileAddr.toNat).take segment.size.toNat).length : Int) =
          max 0 (min segment.size.toInt32.toInt (file.length - segment.inFileAddr.toInt32.toInt)) := by
        have := toNat_of_toInt hpos
        have := toNat_of_toInt (x := segment.size) (by omega)
        rw [List.length_take, List.length_drop]
        omega
      generalize (file.drop segment.inFileAddr.toNat).take segment.size.toNat = bytes at hlength
      simp only [bind, Except.bind, pure, Except.pure, Except.ok.injEq, exists_eq_left', reduceCtorEq,
        false_implies, true_and]
      by_cases hend : (file.length : Int) ≤ segment.inFileAddr.toInt32.toInt
      . obtain rfl : bytes = [] := List.length_eq_zero_iff.1 (by omega)
        simp only [copiesInside_nil, true_iff]
        omega
      . rw [copiesInside_singleton (by omega)]
        omega
    . have hseek : hostReadAt file segment.size segment.inFileAddr = .error .lseek := if_pos (by omega)
      rw [hseek]
      constructor
      . rintro ⟨_, h, _⟩
        cases h
      . omega

theorem fileCopies_iff (segment : Segment) {file : Filesys.OpenFile} (hvalid : file.hdr.Valid)
    (hlength : 0 ≤ file.hdr.numBytes) (limit : Int) (s : Filesys.Store)
    : Returns (Segment.copies (fileReadAt file) segment) s (fun copies _ => CopiesInside limit copies) ↔
        Segment.Within .filesys segment file.hdr.numBytes limit := by
  unfold Segment.Within
  dsimp only
  by_cases hsize : segment.size.toInt32.toInt ≤ 0
  . rw [copies_of_nonpos _ hsize, returns_pure]
    exact ⟨fun _ => .inl hsize, fun _ => nofun⟩
  . rw [copies_of_pos _ (by omega)]
    unfold fileReadAt
    simp only [returns_bind, returns_mapError, returns_pure]
    by_cases hend : file.hdr.numBytes ≤ segment.inFileAddr.toInt32.toInt
    . rw [Filesys.OpenFile.readAt_of_trivial (.inr hend), returns_pure]
      change CopiesInside limit [⟨_, []⟩] ↔ _
      simp only [copiesInside_nil, true_iff]
      omega
    . by_cases hrange : 0 ≤ segment.inFileAddr.toInt32.toInt ∧
          segment.inFileAddr.toInt32.toInt + segment.size.toInt32.toInt < 2 ^ 31
      . obtain ⟨⟨count, bytes⟩, s', happly, -, hcount, -⟩ :=
          Filesys.OpenFile.returns_readAt (s := s) hvalid hrange.1 hrange.2
        dsimp only at hcount
        unfold Filesys.FileHeader.transferred at hcount
        rw [if_neg (by omega)] at hcount
        have hbytes : (((bytes.take count.toNat).map UInt8.ofBitVec).length : Int) = count := by
          rw [List.length_map, Buffer.length_take]
          omega
        have hpos : 0 < ((bytes.take count.toNat).map UInt8.ofBitVec).length := by omega
        rw [returns_iff_of_apply happly, copiesInside_singleton hpos, hbytes, hcount]
        simp only [true_implies]
        omega
      . constructor
        . intro h
          exact absurd (Filesys.OpenFile.inRange_of_fits hvalid hlength (by omega) (toInt_lt _) (neg_le_toInt _)
            (fun e he => Filesys.OpenFile.fits_of_readAt he h)) hrange
        . simp only [true_implies]
          omega

theorem hostBuild_iff {noffH : NoffHeader} (h : Passes noffH) (executable : List UInt8) (mainMemory : Nat → Byte)
    : (∃ loaded, build (hostReadAt executable) .error noffH mainMemory = .ok loaded ∧ Inside loaded noffH) ↔
        Fits .stub noffH executable.length := by
  unfold Fits
  dsimp only
  rw [build_of_passes _ _ h, ← hostCopies_iff, ← hostCopies_iff]
  constructor
  . rintro ⟨loaded, hbuild, hinside⟩
    cases hcode : Segment.copies (hostReadAt executable) noffH.code with
    | error a =>
      rw [hcode] at hbuild
      contradiction
    | ok code =>
      cases hdata : Segment.copies (hostReadAt executable) noffH.initData with
      | error a =>
        rw [hcode, hdata] at hbuild
        contradiction
      | ok initData =>
        rw [hcode, hdata] at hbuild
        obtain rfl : place noffH mainMemory (code ++ initData) = loaded := Except.ok.inj hbuild
        obtain ⟨htotal, hcode, hdata⟩ := (inside_place_iff h mainMemory code initData).1 hinside
        exact ⟨htotal, ⟨code, rfl, hcode⟩, ⟨initData, rfl, hdata⟩⟩
  . rintro ⟨htotal, ⟨code, hcode, hinside⟩, ⟨initData, hdata, hinside'⟩⟩
    rw [hcode, hdata]
    exact ⟨_, rfl, (inside_place_iff h mainMemory code initData).2 ⟨htotal, hinside, hinside'⟩⟩

theorem fileBuild_iff {noffH : NoffHeader} (h : Passes noffH) {executable : Filesys.OpenFile}
    (hvalid : executable.hdr.Valid) (hlength : 0 ≤ executable.hdr.numBytes)
    (fail : Assertion → Exit Stop Filesys.Store Loaded) (mainMemory : Nat → Byte) (s : Filesys.Store)
    : Returns (build (fileReadAt executable) fail noffH mainMemory) s (fun loaded _ => Inside loaded noffH) ↔
        Fits .filesys noffH executable.hdr.numBytes := by
  have hcopies := fun segment limit s => fileCopies_iff segment hvalid hlength limit s
  unfold Fits
  dsimp only
  rw [build_of_passes _ _ h, ← hcopies _ _ s, returns_bind]
  simp only [returns_bind, returns_pure, inside_place_iff h]
  constructor
  . intro hreturns
    obtain ⟨code, s₁, hcode, hdata⟩ := hreturns
    obtain ⟨initData, s₂, hinit, htotal, hinside, hinside'⟩ := hdata
    exact ⟨htotal, ⟨code, s₁, hcode, hinside⟩, (hcopies _ _ s₁).1 ⟨initData, s₂, hinit, hinside'⟩⟩
  . rintro ⟨htotal, hcode, hdata⟩
    apply hcode.mono
    intro code s₁ hinside
    apply ((hcopies _ _ s₁).2 hdata).mono
    intro initData s₂ hinside'
    exact ⟨htotal, hinside, hinside'⟩

theorem loader_inside_iff (uninit : NoffHeader) (mainMemory : Nat → Byte)
    : (∀ (executable : List UInt8) (noffH : NoffHeader),
        readHeader (hostReadAt executable) uninit = .ok noffH → Passes noffH →
        ((∃ loaded, addrSpace uninit executable mainMemory = .ok loaded ∧ Inside loaded noffH) ↔
          Fits .stub noffH executable.length)) ∧
      ∀ (executable : Filesys.OpenFile) (s s' : Filesys.Store) (noffH : NoffHeader),
        executable.hdr.Valid → 0 ≤ executable.hdr.numBytes →
        readHeader (fileReadAt executable) uninit s = .ok (some noffH, s') → Passes noffH →
        (Returns (fileAddrSpace uninit executable mainMemory) s (fun loaded _ => Inside loaded noffH) ↔
          Fits .filesys noffH executable.hdr.numBytes) := by
  constructor
  . intro executable noffH hread h
    rw [← hostBuild_iff h executable mainMemory]
    unfold addrSpace load
    rw [hread]
    rfl
  . intro executable s s' noffH hvalid hlength hread h
    unfold fileAddrSpace load
    rw [returns_bind, returns_iff_of_apply hread]
    exact fileBuild_iff h hvalid hlength _ mainMemory s'

def fourBytes (virtualAddr inFileAddr : UInt32) : NoffHeader :=
  ⟨noffMagicNumber, ⟨virtualAddr, inFileAddr, 4⟩, default, default⟩

def executable (virtualAddr inFileAddr : UInt32) : List UInt8 :=
  (fourBytes virtualAddr inFileAddr).bytes ++ [1, 2, 3, 4]

def onDisk : Filesys.OpenFile where
  hdr := { numBytes := 44, numSectors := 1, dataSectors := fun _ => 5 }
  seekPosition := 0

def stored (virtualAddr inFileAddr : UInt32) : Filesys.Store where
  disk _ := Buffer.ofChars ((executable virtualAddr inFileAddr).map UInt8.toBitVec)
  memory _ _ := 0

theorem onDisk_valid : onDisk.hdr.Valid := by
  refine ⟨by decide, fun _ _ => (by decide : (0 : Int) ≤ 5 ∧ (5 : Int) < SynchDisk.numSectors), ?_⟩
  intro i j hi hj _
  have hblocks : onDisk.hdr.blocks = 1 := by decide
  omega

theorem loader_inside_iff_executable
    : (∃ loaded, addrSpace default (executable 0 40) (fun _ => 0) = .ok loaded ∧ Inside loaded (fourBytes 0 40)) ∧
      Returns (fileAddrSpace default onDisk fun _ => 0) (stored 0 40)
        (fun loaded _ => Inside loaded (fourBytes 0 40)) := by
  have hpasses : Passes (fourBytes 0 40) := ⟨rfl, by decide +kernel⟩
  obtain ⟨hhost, hfile⟩ := loader_inside_iff default fun _ => 0
  constructor
  . apply (hhost (executable 0 40) (fourBytes 0 40) rfl hpasses).2
    unfold Fits Segment.Within
    decide +kernel
  . apply (hfile onDisk (stored 0 40) _ (fourBytes 0 40) onDisk_valid (by decide) rfl hpasses).2
    unfold Fits Segment.Within
    decide +kernel

/--
The sizes add up to `2 ^ 32`.
-/
def overflowing : NoffHeader :=
  ⟨noffMagicNumber, ⟨0, 40, 0x7fffffff⟩, ⟨0, 40, 0x7fffffff⟩, ⟨0, 0, 2⟩⟩

theorem loader_outside
    : (∃ loaded, addrSpace default (executable 5000 40) (fun _ => 0) = .ok loaded ∧
        ¬Inside loaded (fourBytes 5000 40)) ∧
      (∃ loaded, addrSpace default overflowing.bytes (fun _ => 0) = .ok loaded ∧ ¬Inside loaded overflowing) ∧
      Returns (fileAddrSpace default onDisk fun _ => 0) (stored 5000 40)
        (fun loaded _ => ¬Inside loaded (fourBytes 5000 40)) ∧
      fileAddrSpace default onDisk (fun _ => 0) (stored 0 0xffffffff) = .error (.fault .index) := by
  refine ⟨⟨_, rfl, ?_⟩, ⟨_, rfl, ?_⟩, ⟨_, _, rfl, ?_⟩, rfl⟩
  . intro h
    have hfirst := h.2 _ List.mem_cons_self 0 (by decide +kernel)
    revert hfirst
    decide +kernel
  . intro h
    have htotal := h.1
    revert htotal
    decide +kernel
  . intro h
    have hfirst := h.2 _ List.mem_cons_self 0 (by decide +kernel)
    revert hfirst
    decide +kernel

end AddrSpace

end Nachos
