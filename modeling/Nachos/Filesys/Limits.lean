import Nachos.Filesys.Runs

/-!
This module contains what the file system does with requests that it is not made for: positions and counts
that are any `int`, and files that are longer than `MaxFileSize`.
-/

namespace Nachos

namespace Filesys

/-! ### The arrays that `ReadAt` and `WriteAt` index -/

/--
An entry of `dataSectors`, or the bytes from `lower` up to `upper` of a buffer of this size.
-/
inductive Access where
  | dataSector (i : Int)
  | buffer (lower upper size : Int)
  deriving DecidableEq

def Access.InBounds (hdr : FileHeader) : Access → Prop
  | .dataSector i => 0 ≤ i ∧ i < hdr.blocks
  | .buffer lower upper size => 0 ≤ lower ∧ upper ≤ size

namespace Extent

def bufferSize (e : Extent) : Int :=
  e.numSectors * sectorSize

def sectorAccesses (e : Extent) : List Access :=
  (List.range e.numSectors.toNat).flatMap fun (i : Nat) =>
    [.dataSector (e.firstSector + i), .buffer (i * sectorSize) ((i + 1) * sectorSize) e.bufferSize]

def copyAccess (e : Extent) (position : Int) : Access :=
  let offset := position - e.firstSector * sectorSize
  .buffer offset (offset + e.numBytes) e.bufferSize

end Extent

namespace OpenFile

def readAccesses (file : OpenFile) (numBytes position : Int) : List Access :=
  match file.extent numBytes position with
  | none => []
  | some e => e.copyAccess position :: e.sectorAccesses

def readIntoAccesses (file : OpenFile) (offset size position : Int) : List Access :=
  match file.extent sectorSize position with
  | none => []
  | some e => .buffer offset (offset + e.numBytes) size :: e.copyAccess position :: e.sectorAccesses

def writeAccesses (file : OpenFile) (numBytes position : Int) : List Access :=
  match file.extent numBytes position with
  | none => []
  | some e =>
    (if !firstAligned e position then
      file.readIntoAccesses 0 e.bufferSize (e.firstSector * sectorSize)
    else
      []) ++
    (if !lastAligned e position && (e.firstSector != e.lastSector || firstAligned e position) then
      file.readIntoAccesses ((e.lastSector - e.firstSector) * sectorSize) e.bufferSize (e.lastSector * sectorSize)
    else
      []) ++
    e.copyAccess position :: e.sectorAccesses

/--
Either there is nothing to do, and then nothing is done, or there is something to transfer, and it is in the file.
No array is indexed out of its bounds.
-/
structure Checked (file : OpenFile) (numBytes position : Int) : Prop where
  result :
    (file.extent numBytes position = none ∧
      ∀ s source, (∃ bytes, file.readAt numBytes position s = .ok (some (0, bytes), s)) ∧
        file.writeAt source numBytes position s = .ok (some 0, s)) ∨
    ∃ e, file.extent numBytes position = some e ∧ 0 < e.numBytes ∧ e.numBytes ≤ file.hdr.numBytes - position
  read : ∀ a, a ∈ file.readAccesses numBytes position → a.InBounds file.hdr
  write : ∀ a, a ∈ file.writeAccesses numBytes position → a.InBounds file.hdr

variable {file : OpenFile}

/-! ### Requests in range -/

theorem mem_sectorAccesses {e : Extent} {a : Access}
    : a ∈ e.sectorAccesses ↔ ∃ i : Nat, i < e.numSectors.toNat ∧
        (a = .dataSector (e.firstSector + i) ∨ a = .buffer (i * sectorSize) ((i + 1) * sectorSize) e.bufferSize) := by
  unfold Extent.sectorAccesses
  simp only [List.mem_flatMap, List.mem_range, List.mem_cons, List.not_mem_nil, or_false]

theorem inBounds_span {p k : Nat} (hk : 0 < k) (hend : (p + k : Nat) ≤ file.hdr.numBytes) {a : Access}
    (ha : a ∈ (span p k).copyAccess p :: (span p k).sectorAccesses)
    : a.InBounds file.hdr := by
  have hlast : (p + k - 1) / sectorSize < file.hdr.blocks := FileHeader.div_lt_blocks (by omega)
  have hsectors := span_numSectors (p := p) hk
  have hsize : (span p k).bufferSize = (((p + k - 1) / sectorSize - p / sectorSize + 1) * sectorSize : Nat) := by
    unfold Extent.bufferSize
    rw [hsectors, Int.natCast_mul]
  rw [List.mem_cons, mem_sectorAccesses] at ha
  rw [sectorSize_eq] at *
  cases ha with
  | inl hcopy =>
    subst hcopy
    simp only [Extent.copyAccess, Access.InBounds, span_firstSector, span_numBytes, hsize, sectorSize_eq]
    omega
  | inr hsector =>
    obtain ⟨i, hi, hcases⟩ := hsector
    rw [hsectors] at hi
    cases hcases with
    | inl hdata =>
      subst hdata
      simp only [Access.InBounds, span_firstSector, sectorSize_eq]
      omega
    | inr hbuffer =>
      subst hbuffer
      simp only [Access.InBounds, hsize]
      omega

theorem extent_sector (hupper : file.hdr.numBytes < 2 ^ 31) {n : Nat}
    (hn : (n * sectorSize : Nat) < file.hdr.numBytes)
    : ∃ k : Int, 0 < k ∧ k ≤ sectorSize ∧
        file.extent sectorSize (n * sectorSize) = some { numBytes := k, firstSector := n, lastSector := n } := by
  obtain ⟨k, hk⟩ : ∃ k, k = (if wrap (n * sectorSize + sectorSize) > file.hdr.numBytes then
    wrap (file.hdr.numBytes - n * sectorSize) else (sectorSize : Int)) := ⟨_, rfl⟩
  have hrange : 0 < k ∧ k ≤ sectorSize := by
    rw [hk, sectorSize_eq] at *
    split
    next hgt =>
      have hend : file.hdr.numBytes ≤ n * 128 + 128 := by
        by_cases hfits : (n * 128 + 128 : Int) < 2 ^ 31
        . rw [wrap_eq (by omega) (by omega)] at hgt
          omega
        . omega
      rw [wrap_eq (by omega) (by omega)]
      omega
    next => omega
  have hfirst : divRoundDown (n * sectorSize) sectorSize = n := by
    unfold divRoundDown
    exact Int.mul_tdiv_cancel _ (by decide)
  have hlast : divRoundDown (wrap (n * sectorSize + k - 1)) sectorSize = n := by
    obtain ⟨j, hj⟩ := Int.eq_ofNat_of_zero_le (show 0 ≤ n * sectorSize + k - 1 from by omega)
    have hdiv : j / sectorSize = n := by
      rw [sectorSize_eq] at *
      omega
    have hbounds : (-2 ^ 31 : Int) ≤ j ∧ (j : Int) < 2 ^ 31 := by
      rw [sectorSize_eq] at *
      omega
    rw [hj, wrap_eq hbounds.1 hbounds.2, divRoundDown_natCast, hdiv]
  refine ⟨k, hrange.1, hrange.2, ?_⟩
  unfold extent FileHeader.fileLength
  rw [if_neg (by rw [sectorSize_eq] at *; omega)]
  dsimp only
  rw [← hk, hfirst, hlast]

theorem inBounds_readInto (hupper : file.hdr.numBytes < 2 ^ 31) {n : Nat}
    (hn : (n * sectorSize : Nat) < file.hdr.numBytes) {offset size : Int} (hoffset : 0 ≤ offset)
    (hsize : offset + sectorSize ≤ size) {a : Access}
    (ha : a ∈ file.readIntoAccesses offset size (n * sectorSize))
    : a.InBounds file.hdr := by
  obtain ⟨k, hpos, hle, hextent⟩ := extent_sector hupper hn
  have hblock : n * sectorSize / sectorSize < file.hdr.blocks := FileHeader.div_lt_blocks hn
  unfold readIntoAccesses at ha
  rw [hextent] at ha
  simp only [List.mem_cons, mem_sectorAccesses] at ha
  rw [sectorSize_eq] at *
  rcases ha with hinto | hcopy | ⟨i, hi, hdata | hbuffer⟩
  . subst hinto
    simp only [Access.InBounds]
    omega
  . subst hcopy
    simp only [Extent.copyAccess, Access.InBounds, Extent.bufferSize, Extent.numSectors, sectorSize_eq]
    omega
  . subst hdata
    simp only [Extent.numSectors] at hi
    simp only [Access.InBounds]
    omega
  . subst hbuffer
    simp only [Extent.numSectors] at hi
    simp only [Access.InBounds, Extent.bufferSize, Extent.numSectors, sectorSize_eq]
    omega

theorem inBounds_write (hupper : file.hdr.numBytes < 2 ^ 31) {p k : Nat} (hk : 0 < k)
    (hend : (p + k : Nat) ≤ file.hdr.numBytes) {numBytes : Int} (hextent : file.extent numBytes p = some (span p k))
    {a : Access} (ha : a ∈ file.writeAccesses numBytes p)
    : a.InBounds file.hdr := by
  have hsectors := span_numSectors (p := p) hk
  have hsize : (span p k).bufferSize = (((p + k - 1) / sectorSize - p / sectorSize + 1) * sectorSize : Nat) := by
    unfold Extent.bufferSize
    rw [hsectors, Int.natCast_mul]
  unfold writeAccesses at ha
  rw [hextent] at ha
  simp only [List.mem_append] at ha
  rcases ha with (hfirst | hlast) | hown
  . split at hfirst
    next =>
      apply inBounds_readInto hupper _ _ _ hfirst
      . rw [sectorSize_eq] at *
        omega
      . omega
      . rw [hsize]
        rw [sectorSize_eq] at *
        omega
    next => cases hfirst
  . split at hlast
    next =>
      apply inBounds_readInto hupper _ _ _ hlast
      . rw [sectorSize_eq] at *
        omega
      . rw [span_firstSector, span_lastSector, sectorSize_eq]
        omega
      . rw [hsize, span_firstSector, span_lastSector]
        rw [sectorSize_eq] at *
        omega
    next => cases hlast
  . exact inBounds_span hk hend hown

theorem Checked.of_none {numBytes position : Int} (h : file.extent numBytes position = none)
    : file.Checked numBytes position := by
  refine ⟨.inl ⟨h, ?_⟩, ?_, ?_⟩
  . intro s source
    unfold readAt writeAt
    rw [h]
    exact ⟨⟨_, rfl⟩, rfl⟩
  . intro a ha
    unfold readAccesses at ha
    rw [h] at ha
    cases ha
  . intro a ha
    unfold writeAccesses at ha
    rw [h] at ha
    cases ha

theorem Checked.of_inRange (hupper : file.hdr.numBytes < 2 ^ 31) {numBytes position : Int} (hpos : 0 ≤ position)
    (hover : position + numBytes < 2 ^ 31)
    : file.Checked numBytes position := by
  cases extent_cases hupper hpos hover with
  | inl hnone => exact .of_none hnone.1
  | inr hsome =>
    obtain ⟨p, k, rfl, hk, hend, _, hextent⟩ := hsome
    refine ⟨.inr ⟨_, hextent, ?_, ?_⟩, ?_, ?_⟩
    . rw [span_numBytes]
      omega
    . rw [span_numBytes]
      omega
    . intro a ha
      unfold readAccesses at ha
      rw [hextent] at ha
      exact inBounds_span hk hend ha
    . intro a ha
      exact inBounds_write hupper hk hend hextent ha

/-! ### Requests out of range -/

theorem not_checked_of_overflow (hupper : file.hdr.numBytes < 2 ^ 31) {numBytes position : Int}
    (hrequest : ¬(numBytes ≤ 0 ∨ position ≥ file.hdr.numBytes)) (hpos : 0 ≤ position) (hbytes : numBytes < 2 ^ 31)
    (hover : 2 ^ 31 ≤ position + numBytes)
    : ¬file.Checked numBytes position := by
  intro hchecked
  obtain ⟨e, he, _, _, hcount⟩ := extent_of_request hrequest
  rw [wrap_of_overflow hover (by omega), if_neg (by omega)] at hcount
  cases hchecked.result with
  | inl hnone =>
    rw [he] at hnone
    cases hnone.1
  | inr hsome =>
    obtain ⟨e', he', _, hle⟩ := hsome
    rw [he] at he'
    cases he'
    omega

theorem not_checked_of_neg (hlower : 0 ≤ file.hdr.numBytes) (hupper : file.hdr.numBytes < 2 ^ 31)
    {numBytes position : Int} (hbytes : 0 < numBytes) (hneg : position < 0) (hpos : -2 ^ 31 ≤ position)
    : ¬file.Checked numBytes position := by
  intro hchecked
  obtain ⟨e, he, hfirst, hlast, _⟩ := @extent_of_request file numBytes position (by omega)
  cases hchecked.result with
  | inl hnone =>
    rw [he] at hnone
    cases hnone.1
  | inr hsome =>
    obtain ⟨e', he', hcount, hle⟩ := hsome
    rw [he] at he'
    cases he'
    have hread := hchecked.read
    unfold readAccesses at hread
    rw [he] at hread
    have hcopy := hread _ List.mem_cons_self
    rw [wrap_eq (by omega) (by omega)] at hlast
    have hdiv := Int.mul_tdiv_add_tmod position sectorSize
    have hdiv' := Int.mul_tdiv_add_tmod (position + e.numBytes - 1) sectorSize
    have hmod : position.tmod sectorSize ≤ 0 := by
      obtain ⟨m, rfl⟩ := Int.exists_eq_neg_ofNat (Int.le_of_lt hneg)
      have := Int.tmod_nonneg sectorSize (Int.natCast_nonneg m)
      rw [Int.neg_tmod]
      omega
    have hmod' := Int.tmod_lt_of_pos (position + e.numBytes - 1) (show 0 < (sectorSize : Int) from by decide)
    simp only [Extent.copyAccess, Access.InBounds] at hcopy
    rw [← hfirst] at hdiv
    rw [← hlast] at hdiv'
    have hnum : 0 < e.numSectors.toNat := by
      unfold Extent.numSectors
      rw [sectorSize_eq] at *
      omega
    have hsector := hread (.dataSector e.firstSector) (by
      apply List.mem_cons_of_mem
      rw [mem_sectorAccesses]
      exact ⟨0, hnum, .inl (by simp)⟩)
    simp only [Access.InBounds] at hsector
    rw [sectorSize_eq] at *
    omega

theorem checked_iff (file : OpenFile) (hlower : 0 ≤ file.hdr.numBytes) (hupper : file.hdr.numBytes < 2 ^ 31)
    (numBytes position : Int32)
    : file.Checked numBytes.toInt position.toInt ↔
        numBytes.toInt ≤ 0 ∨ position.toInt ≥ file.hdr.numBytes ∨
          0 ≤ position.toInt ∧ position.toInt + numBytes.toInt < 2 ^ 31 := by
  by_cases hrequest : numBytes.toInt ≤ 0 ∨ position.toInt ≥ file.hdr.numBytes
  . constructor
    . intro _
      omega
    . intro _
      exact .of_none (extent_of_trivial hrequest)
  . constructor
    . intro hchecked
      apply Classical.byContradiction
      intro hout
      by_cases hneg : position.toInt < 0
      . exact not_checked_of_neg hlower hupper (by omega) hneg position.le_toInt hchecked
      . exact not_checked_of_overflow hupper hrequest (by omega) numBytes.toInt_lt (by omega) hchecked
    . intro hin
      exact .of_inRange hupper (by omega) (by omega)

theorem checked_inside
    : OpenFile.Checked { hdr := { numBytes := 10, numSectors := 1, dataSectors := fun _ => 5 }, seekPosition := 0 }
        (3 : Int32).toInt (4 : Int32).toInt :=
  (checked_iff _ (by decide) (by decide) 3 4).2 (by decide)

theorem not_checked_negative
    : ¬OpenFile.Checked { hdr := { numBytes := 10, numSectors := 1, dataSectors := fun _ => 5 }, seekPosition := 0 }
        (3 : Int32).toInt (-5 : Int32).toInt := by
  intro hchecked
  have hbounds := hchecked.read (.buffer (-5) (-2) 128) (by decide)
  simp [Access.InBounds] at hbounds

end OpenFile

/-! ### Files that are longer than `MaxFileSize` -/

/--
`Allocate` takes nothing and fails, or it takes as many sectors as it has to, and there is an entry of the table for
each of them.
-/
def AllocateSafe (m : BitMap) (fileSize : Int) : Prop :=
  ∀ hdr s, ∃ success hdr' m', FileHeader.allocate hdr m fileSize s = .ok (some (success, hdr', m'), s) ∧
    (success = false → m' = m) ∧
    (success = true →
      hdr'.numSectors = ⌈(fileSize / sectorSize : ℚ)⌉ ∧ hdr'.numSectors.toNat ≤ numDirect ∧
      (∀ i, i < hdr'.numSectors.toNat → ¬m.Marks (hdr'.dataSectors i) ∧ m'.Marks (hdr'.dataSectors i)) ∧
      ∀ i, hdr'.numSectors.toNat ≤ i → hdr'.dataSectors i = hdr.dataSectors i)

theorem allocate_apply_of_full (hdr : FileHeader) {m : BitMap} (s : Store) {fileSize : Int}
    (hfull : m.numClear < divRoundUp fileSize sectorSize)
    : ∃ hdr', hdr.allocate m fileSize s = .ok (some (false, hdr', m), s) := by
  unfold FileHeader.allocate
  dsimp only
  rw [if_pos hfull]
  exact ⟨_, rfl⟩

theorem allocateSafe_of_le {m : BitMap} {fileSize : Int} (hsize : fileSize ≤ maxFileSize)
    : AllocateSafe m fileSize := by
  intro hdr s
  obtain ⟨⟨success, hdr', m'⟩, s', hrun, hs, _, hfalse, htrue⟩ := @FileHeader.returns_allocate hdr m s fileSize hsize
  subst hs
  refine ⟨success, hdr', m', hrun, hfalse, ?_⟩
  intro hsuccess
  obtain ⟨hallocated, hrest⟩ := htrue hsuccess
  have hproper := hallocated.proper hsize
  have hle := FileHeader.blocks_le hproper.size
  rw [← hproper.toNat_numSectors] at hle
  refine ⟨?_, hle, ?_, hrest⟩
  . rw [← divRoundUp_eq_ceil]
    exact hallocated.numSectors
  . intro i hi
    have hmem := hproper.mem_sectorList.2 ⟨i, by rwa [← hproper.toNat_numSectors], rfl⟩
    exact ⟨hallocated.not_marks hsize hmem, (hallocated.marks_iff hsize _).2 (.inr hmem)⟩

namespace FileSystem

open Exit

theorem create_of_large {fs : FileSystem} {s : Store} (hsound : Sound s.disk) (hmounted : fs.Mounted s.disk)
    (name : Name) {size : Int} (hsize : maxFileSize < size)
    : (CanCreate s.disk name size ∧ fs.create name size s = .error .index) ∨
        ¬CanCreate s.disk name size ∧ ∃ s', s'.disk = s.disk ∧ fs.create name size s = .ok (some false, s') := by
  cases create_cases hsound hmounted name size with
  | inl hfail =>
    obtain ⟨s', hs', hrun, hcannot⟩ := hfail
    exact .inr ⟨hcannot, s', hs', hrun⟩
  | inr hrest =>
    obtain ⟨d, m, slot, n, s', hs', hreserved, hrun⟩ := hrest
    rw [hrun, hreserved.canCreate_iff]
    unfold allocateNew
    have hnew : Returns new s' (fun _ s'' => s''.disk = s'.disk) := Returns.new fun _ _ h => h
    obtain ⟨memory, s'', hs'', heq⟩ := hnew.bind_apply
    rw [heq]
    by_cases hroom : divRoundUp size sectorSize ≤ m.numClear
    . exact .inl ⟨hroom, bind_apply_of_error (FileHeader.allocate_apply_of_overrun hsize hroom)⟩
    . obtain ⟨hdr', hallocate⟩ := allocate_apply_of_full (.ofBytes memory) s'' (Int.not_le.1 hroom)
      refine .inr ⟨hroom, s'', hs''.trans hs', ?_⟩
      rw [bind_apply_of_ok hallocate]
      rfl

end FileSystem

theorem allocateSafe_iff (m : BitMap) (fileSize : Int32)
    : (AllocateSafe m fileSize.toInt ↔
          fileSize.toInt ≤ maxFileSize ∨ m.numClear < ⌈(fileSize.toInt / sectorSize : ℚ)⌉) ∧
        ∀ (fs : FileSystem) (s : Store) (name : Name), Sound s.disk → fs.Mounted s.disk → maxFileSize < fileSize.toInt →
          ((∃ s', fs.create name fileSize.toInt s = .ok (some false, s')) ↔
            ¬CanCreate s.disk name fileSize.toInt) := by
  constructor
  . rw [← divRoundUp_eq_ceil]
    constructor
    . intro hsafe
      apply Classical.byContradiction
      intro hout
      obtain ⟨success, hdr', m', hrun, _⟩ := hsafe { numBytes := 0, numSectors := 0, dataSectors := fun _ => 0 }
        { disk := fun _ _ => 0, memory := fun _ _ => 0 }
      rw [FileHeader.allocate_apply_of_overrun (by omega) (by omega)] at hrun
      cases hrun
    . intro hcases
      cases hcases with
      | inl hle => exact allocateSafe_of_le hle
      | inr hfull =>
        intro hdr s
        obtain ⟨hdr', hrun⟩ := allocate_apply_of_full hdr s hfull
        exact ⟨false, hdr', m, hrun, fun _ => rfl, nofun⟩
  . intro fs s name hsound hmounted hsize
    cases FileSystem.create_of_large hsound hmounted name hsize with
    | inl hcan =>
      simp only [hcan.1, hcan.2, not_true_eq_false, iff_false, not_exists]
      nofun
    | inr hcannot =>
      obtain ⟨hcannot, s', _, hrun⟩ := hcannot
      simp only [hcannot, not_false_eq_true, iff_true]
      exact ⟨s', hrun⟩

theorem allocateSafe_of_no_room
    : ∃ fs s s', FileSystem.format { disk := fun _ _ => 0, memory := fun _ _ => 0 } = .ok (some fs, s) ∧
        AllocateSafe (freeMapOf s.disk) (130560 : Int32).toInt ∧
        fs.create ⟨[97], by decide⟩ (130560 : Int32).toInt s = .ok (some false, s') := by
  obtain ⟨fs, s, hformat, hformatted, hmounted⟩ :=
    FileSystem.returns_format (s := { disk := fun _ _ => 0, memory := fun _ _ => 0 })
  obtain ⟨hsafe, hcreate⟩ := allocateSafe_iff (freeMapOf s.disk) 130560
  have hsectors : divRoundUp (130560 : Int32).toInt sectorSize = 1020 := by decide
  have hclear := hformatted.numClear_eq
  have hroom : ((freeMapOf s.disk).numClear : Int) < divRoundUp (130560 : Int32).toInt sectorSize := by omega
  have hcannot : ¬CanCreate s.disk ⟨[97], by decide⟩ (130560 : Int32).toInt := by
    rintro ⟨_, _, hle⟩
    omega
  rw [← divRoundUp_eq_ceil] at hsafe
  obtain ⟨s', hrun⟩ := (hcreate fs s ⟨[97], by decide⟩ hformatted.sound hmounted (by decide)).2 hcannot
  exact ⟨fs, s, s', hformat, hsafe.2 (.inr hroom), hrun⟩

theorem create_overrun
    : ∃ fs s, FileSystem.format { disk := fun _ _ => 0, memory := fun _ _ => 0 } = .ok (some fs, s) ∧
        fs.create ⟨[97], by decide⟩ (3841 : Int32).toInt s = .error .index := by
  obtain ⟨fs, s, hformat, hformatted, hmounted⟩ :=
    FileSystem.returns_format (s := { disk := fun _ _ => 0, memory := fun _ _ => 0 })
  have hround : max 0 (divRoundUp (3841 : Int32).toInt sectorSize) < 1019 := by decide
  have hcan := canCreate_of_empty hformatted (fun _ => Iff.rfl) hformatted.empty ⟨[97], by decide⟩ hround
  have hlarge : maxFileSize < (3841 : Int32).toInt := by decide
  cases FileSystem.create_of_large hformatted.sound hmounted ⟨[97], by decide⟩ hlarge with
  | inl hoverrun => exact ⟨fs, s, hformat, hoverrun.2⟩
  | inr hcannot => exact absurd hcan hcannot.1

end Filesys

end Nachos
