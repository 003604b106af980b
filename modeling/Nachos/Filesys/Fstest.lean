import Nachos.Filesys.Limits
import Nachos.Filesys.Sequential

/-!
This module contains `Copy` and `Print` of `fstest.cc`, and that together they reproduce a file.
-/

namespace Nachos

namespace Filesys

namespace Fstest

open Session (Holds headerOf holds_iff_of_created kept_of_written)

def ascii (text : String) : List (BitVec 8) :=
  text.toList.map fun c => BitVec.ofNat 8 c.toNat

def copyChunks (transferSize : Nat) (openFile : OpenFile) (buffer : Buffer) (rest : List (BitVec 8)) : FS OpenFile :=
  let chunk := rest.take transferSize
  let amountRead := chunk.length
  if amountRead > 0 then do
    let buffer := buffer.blit 0 (Buffer.ofChars chunk) amountRead
    let (_, openFile) ← openFile.write buffer amountRead
    copyChunks transferSize openFile buffer (rest.drop amountRead)
  else
    pure openFile
termination_by rest.length
decreasing_by
  rename_i h
  change (rest.take transferSize).length > 0 at h
  rw [List.length_take] at h
  rw [List.length_drop, List.length_take]
  omega

/--
`input` is the UNIX file `source`, if it can be opened. The result is what is printed.
-/
def copy (fs : FileSystem) (transferSize : Int) (source : Name) (input : Option (List (BitVec 8))) (dest : Name)
    : FS (List (BitVec 8)) := do
  match input with
  | none => return ascii "Copy: couldn't open input file " ++ source.chars ++ ascii "\n"
  | some bytes =>
    let fileLength := (BitVec.ofInt 32 bytes.length).toInt
    if !(← fs.create dest fileLength) then
      return ascii "Copy: couldn't create output file " ++ dest.chars ++ ascii "\n"
    else
      match ← fs.openFile dest with
      | none => Exit.abort .null
      | some openFile =>
        let buffer ← new
        let _ ← copyChunks transferSize.toNat openFile buffer bytes
        return []

/--
The loop of `Print`. It is `none` if it is not done after `fuel` runs.
-/
def printChunks (transferSize : Int) (openFile : OpenFile) (buffer : Buffer) : Nat → FS (Option (List (BitVec 8)))
  | 0 => pure none
  | fuel + 1 => do
    let ((amountRead, data), openFile) ← openFile.read transferSize
    let buffer := buffer.blit 0 data amountRead.toNat
    if amountRead > 0 then
      let printed ← printChunks transferSize openFile buffer fuel
      return printed.map (buffer.take amountRead.toNat ++ ·)
    else
      return some []

def print (fs : FileSystem) (transferSize : Int) (name : Name) (fuel : Nat) : FS (Option (List (BitVec 8))) := do
  match ← fs.openFile name with
  | none => return some (ascii "Print: unable to open file " ++ name.chars ++ ascii "\n")
  | some openFile =>
    let buffer ← new
    printChunks transferSize openFile buffer fuel

section

open Exit OpenFile

variable {fs : FileSystem} {file : OpenFile}

/-! ### The loops -/

theorem returns_copyChunks {s : Store} (hvalid : file.hdr.Valid) {transferSize : Nat} (htransfer : 0 < transferSize)
    (buffer : Buffer) (rest : List (BitVec 8)) {p : Nat} (hend : (p + rest.length : Nat) ≤ file.hdr.numBytes)
    : Returns (copyChunks transferSize (file.seek p) buffer rest) s (fun _ s' =>
        file.hdr.Written (Buffer.ofChars rest) p rest.length s.disk s'.disk) := by
  unfold copyChunks
  dsimp only
  split
  next h =>
    have hsize := hvalid.size_lt
    have hlength : (rest.take transferSize).length ≤ rest.length := List.length_take_le' _ _
    generalize hbuffer : buffer.blit 0 (Buffer.ofChars (rest.take transferSize)) (rest.take transferSize).length = buffer'
    generalize hk : (rest.take transferSize).length = k at *
    have hall : file.hdr.transferred k p = k := by
      unfold FileHeader.transferred
      rw [if_neg (by omega)]
      omega
    apply (returns_write_seek hvalid buffer' (Int.natCast_nonneg p) (by omega) (by omega)).bind
    intro ⟨n, file'⟩ s₁ ⟨hn, hwritten, hfile⟩
    dsimp only at hn hwritten hfile
    rw [hall] at hn
    subst hn
    subst hfile
    rw [Int.toNat_natCast, Int.toNat_natCast] at hwritten
    have hrest := @returns_copyChunks (s := s₁) hvalid _ htransfer buffer' (rest.drop k) (p + k) (by
      rw [List.length_drop]
      omega)
    rw [Int.natCast_add] at hrest
    apply hrest.mono
    intro _ s₂ hwritten'
    have hsum : rest.length = k + (rest.drop k).length := by
      rw [List.length_drop]
      omega
    rw [hsum]
    apply hwritten.append hwritten'
    . intro i hi
      rw [← hbuffer, Buffer.blit_apply_of_lt _ _ hi, Buffer.ofChars_take (hk ▸ hi)]
    . intro i _
      rw [Buffer.ofChars_drop]
  next h =>
    rw [List.length_take] at h
    have hnil : rest = [] := List.length_eq_zero_iff.1 (by omega)
    rw [returns_pure, hnil]
    exact FileHeader.written_zero _ _ _ _
termination_by rest.length

theorem returns_printChunks {s : Store} (hvalid : file.hdr.Valid) {transferSize : Int} (htransfer : 0 < transferSize)
    (buffer : Buffer) {p n fuel : Nat} (hnumBytes : file.hdr.numBytes = (p + n : Nat))
    (hover : p + transferSize < 2 ^ 31 ∨ n = 0) (hfuel : n < fuel)
    : Returns (printChunks transferSize (file.seek p) buffer fuel) s (fun printed s' =>
        s'.disk = s.disk ∧ printed = some (file.hdr.contents s.disk p n)) := by
  have hsize := hvalid.size
  rw [maxFileSize_eq] at hsize
  induction fuel generalizing p n buffer s with
  | zero => omega
  | succ fuel ih =>
    unfold printChunks
    by_cases hn : n = 0
    . have hread := @read_of_trivial (file.seek p) (by change -2 ^ 31 ≤ (p : Int); omega)
        (by change (p : Int) < _; omega) transferSize (.inr (by change (p : Int) ≥ file.hdr.numBytes; omega))
      rw [hread, hn]
      exact ⟨_, _, rfl, rfl, rfl⟩
    . obtain ⟨k, hk, hpos, hle, hcut⟩ : ∃ k : Nat, file.hdr.transferred transferSize p = k ∧ 0 < k ∧ k ≤ n ∧
          (k = transferSize ∨ k = n) := by
        unfold FileHeader.transferred
        rw [if_neg (by omega)]
        exact ⟨(min transferSize (file.hdr.numBytes - p)).toNat, by omega, by omega, by omega, by omega⟩
      apply (returns_read_seek hvalid (Int.natCast_nonneg p) (by omega) (by omega)).bind
      intro ⟨⟨amountRead, data⟩, file'⟩ s₁ ⟨hs₁, hamount, hdata, hfile⟩
      dsimp only at hamount hdata hfile ⊢
      rw [hk] at hamount
      subst hamount
      subst hfile
      rw [if_pos (by omega)]
      have hrest := @ih s₁ (buffer.blit 0 data (k : Int).toNat) (p + k) (n - k) (by omega) (by omega) (by omega)
      rw [Int.natCast_add] at hrest
      apply hrest.bind
      intro printed s₂ ⟨hs₂, hprinted⟩
      rw [returns_pure]
      refine ⟨hs₂.trans hs₁, ?_⟩
      have hsum : n = k + (n - k) := by omega
      rw [hprinted, Option.map_some, hs₁, hsum, FileHeader.contents_add, Nat.add_sub_cancel_left]
      congr 2
      apply Buffer.take_congr
      intro i hi
      rw [Buffer.blit_apply_of_lt _ _ (by omega), hdata i (by omega)]
      rfl

/-! ### `Copy` and `Print` -/

def Contains (disk : Nat → Buffer) (key bytes : List (BitVec 8)) : Prop :=
  ∃ i, Holds disk key i ∧ (headerOf disk i).numBytes = bytes.length ∧
    (headerOf disk i).contents disk 0 bytes.length = bytes

variable {s : Store} (hsound : Sound s.disk) (hmounted : fs.Mounted s.disk)

include hsound hmounted

theorem returns_openFile_of_holds {name : Name} {i : Nat} (hholds : Holds s.disk name.key i)
    : Returns (fs.openFile name) s (fun r s' =>
        s'.disk = s.disk ∧ r = some { hdr := headerOf s.disk i, seekPosition := 0 }) := by
  apply (FileSystem.returns_openFile hsound hmounted name).mono
  intro r s' ⟨hs', hr⟩
  refine ⟨hs', ?_⟩
  cases hr with
  | inl hnone => exact absurd ⟨hholds.inUse, hholds.key_eq⟩ (hnone.2 i hholds.lt)
  | inr hsome =>
    obtain ⟨j, hj, hmatches, hr⟩ := hsome
    have hij : i = j := hholds.unique hsound ⟨hj, hmatches.1, hmatches.2⟩
    rw [hr, hij]
    rfl

theorem returns_copy {transferSize : Int} (htransfer : 0 < transferSize) (source : Name) {dest : Name}
    {bytes : List (BitVec 8)} (hlength : bytes.length ≤ maxFileSize) (hcan : CanCreate s.disk dest bytes.length)
    : Returns (copy fs transferSize source (some bytes) dest) s (fun printed s' =>
        printed = [] ∧ Sound s'.disk ∧ fs.Mounted s'.disk ∧ Contains s'.disk dest.key bytes) := by
  have hsize : (bytes.length : Int) ≤ maxFileSize := Int.ofNat_le.2 hlength
  have hint : (BitVec.ofInt 32 bytes.length).toInt = bytes.length := by
    apply Buffer.toInt_ofInt_of_int
    . omega
    . rw [maxFileSize_eq] at hlength
      omega
  unfold copy
  dsimp only
  rw [hint]
  apply (FileSystem.returns_create hsound hmounted dest (by omega) hsize).bind
  intro success s₁ ⟨hsuccess, _, hcreated⟩
  rw [hsuccess.2 hcan]
  obtain ⟨slot, n, hcreated⟩ := hcreated (hsuccess.2 hcan)
  have hsound₁ := hcreated.sound hsound hsize
  have hmounted₁ := hmounted.congr (hcreated.freeMapSector_eq hsound) (hcreated.directorySector_eq hsound)
  have hholds₁ : Holds s₁.disk dest.key slot := (holds_iff_of_created hcreated).2 (.inr ⟨rfl, rfl⟩)
  have hvalid₁ : (headerOf s₁.disk slot).Valid := hsound₁.valid_file hholds₁.lt hholds₁.inUse
  have hnumBytes : (headerOf s₁.disk slot).numBytes = bytes.length := by
    obtain ⟨m, hallocated, _⟩ := hcreated.allocated
    unfold headerOf
    rw [hcreated.entry_slot]
    exact hallocated.numBytes
  apply (returns_openFile_of_holds hsound₁ hmounted₁ hholds₁).bind
  intro r s₂ ⟨hs₂, hr⟩
  subst hr
  dsimp only
  rw [returns_bind]
  apply Returns.new
  intro buffer s₃ hs₃
  have hs₁ := hs₃.trans hs₂
  have hchunks := @returns_copyChunks { hdr := headerOf s₁.disk slot, seekPosition := 0 } s₃ hvalid₁
    transferSize.toNat (by omega) buffer bytes 0 (by rw [hnumBytes]; omega)
  apply hchunks.bind
  intro _ s₄ hwritten
  rw [returns_pure, hs₁] at *
  have hkept := kept_of_written hsound₁ hholds₁ hwritten
  refine ⟨rfl, hkept.sound hsound₁, hmounted₁.congr hkept.freeMapSector_eq hkept.directorySector_eq, slot,
    (hkept.holds_iff hsound₁).2 hholds₁, ?_, ?_⟩
  . rw [hkept.headerOf_eq hsound₁ hholds₁.lt hholds₁.inUse, hnumBytes]
  . rw [hkept.headerOf_eq hsound₁ hholds₁.lt hholds₁.inUse]
    refine Eq.trans ?_ (Buffer.take_ofChars bytes)
    apply Buffer.take_congr
    intro i hi
    rw [hwritten.byte (0 + i) (by rw [hnumBytes]; omega), if_pos (by omega)]
    congr 1
    omega

theorem returns_print {transferSize : Int} (htransfer : 0 < transferSize) (hint : transferSize < 2 ^ 31) {name : Name}
    {bytes : List (BitVec 8)} (hcontains : Contains s.disk name.key bytes) {fuel : Nat} (hfuel : bytes.length < fuel)
    : Returns (print fs transferSize name fuel) s (fun printed s' => s'.disk = s.disk ∧ printed = some bytes) := by
  obtain ⟨i, hholds, hnumBytes, hcontents⟩ := hcontains
  unfold print
  apply (returns_openFile_of_holds hsound hmounted hholds).bind
  intro r s₁ ⟨hs₁, hr⟩
  subst hr
  dsimp only
  rw [returns_bind]
  apply Returns.new
  intro buffer s₂ hs₂
  have hs := hs₂.trans hs₁
  have hchunks := @returns_printChunks { hdr := headerOf s.disk i, seekPosition := 0 } s₂
    (hsound.valid_file hholds.lt hholds.inUse) transferSize htransfer buffer 0 bytes.length fuel
    (by rw [hnumBytes]; omega) (by omega) hfuel
  apply hchunks.mono
  intro printed s₃ ⟨hs₃, hprinted⟩
  rw [hs, hcontents] at hprinted
  exact ⟨hs₃.trans hs, hprinted⟩

end

/--
`Copy` prints no message, and then `Print` returns and prints the bytes that were copied.
-/
def Reproduces (fs : FileSystem) (transferSize transferSize' : Int) (source dest : Name) (bytes : List (BitVec 8))
    (s : Store) : Prop :=
  Exit.Returns (copy fs transferSize source (some bytes) dest) s fun printed s₁ =>
    printed = [] ∧ ∀ fuel, bytes.length < fuel →
      Exit.Returns (print fs transferSize' dest fuel) s₁ fun printed' s₂ => printed' = some bytes ∧ s₂.disk = s₁.disk

theorem copy_print_exact (fs : FileSystem) (transferSize transferSize' : Int32) (source dest : Name)
    (bytes : List (BitVec 8)) (file : OpenFile) (buffer : Buffer) (sizes : List Nat) (s : Store)
    : (Sound s.disk → fs.Mounted s.disk → bytes.length ≤ maxFileSize → CanCreate s.disk dest bytes.length →
        0 < transferSize.toInt → 0 < transferSize'.toInt →
        Reproduces fs transferSize.toInt transferSize'.toInt source dest bytes s) ∧
      (file.hdr.Valid → 0 ≤ file.hdr.numBytes → -2 ^ 31 ≤ file.seekPosition → file.seekPosition < 2 ^ 31 →
        sizes.sum < 2 ^ 31 →
        (file.ReadSplits sizes s ↔ file.InRange sizes.sum) ∧
        (file.WriteSplits buffer sizes s ↔ file.InRange sizes.sum)) := by
  constructor
  . intro hsound hmounted hlength hcan htransfer htransfer'
    apply (returns_copy hsound hmounted htransfer source hlength hcan).mono
    intro printed s₁ ⟨hprinted, hsound₁, hmounted₁, hcontains⟩
    refine ⟨hprinted, ?_⟩
    intro fuel hfuel
    apply (returns_print hsound₁ hmounted₁ htransfer' transferSize'.toInt_lt hcontains hfuel).mono
    intro printed' s₂ ⟨hs₂, hprinted'⟩
    exact ⟨hprinted', hs₂⟩
  . intro hvalid hsize hlower hupper hsum
    exact ⟨OpenFile.readSplits_iff hvalid hsize hlower hupper hsum,
      OpenFile.writeSplits_iff hvalid hsize hlower hupper hsum buffer⟩

theorem copy_print_exact_blank
    : (∃ fs s, FileSystem.format { disk := fun _ _ => 0, memory := fun _ _ => 0 } = .ok (some fs, s) ∧
        Reproduces fs (10 : Int32).toInt (7 : Int32).toInt ⟨[97], by decide⟩ ⟨[98], by decide⟩
          (List.replicate 300 120) s) ∧
      OpenFile.ReadSplits { hdr := OpenFile.tenBytes, seekPosition := 2 } [3, 0, 200]
        { disk := fun _ _ => 0, memory := fun _ _ => 0 } := by
  constructor
  . obtain ⟨fs, s, hformat, hformatted, hmounted⟩ :=
      FileSystem.returns_format (s := { disk := fun _ _ => 0, memory := fun _ _ => 0 })
    refine ⟨fs, s, hformat, ?_⟩
    have hlength : (List.replicate 300 (120 : BitVec 8)).length = 300 := List.length_replicate
    apply (copy_print_exact _ _ _ _ _ _ ⟨OpenFile.tenBytes, 2⟩ (fun _ => 0) [3, 0, 200] _).1 hformatted.sound
      hmounted _ _ (by decide) (by decide)
    . rw [hlength]
      decide
    . rw [hlength]
      exact canCreate_of_empty hformatted (fun _ => Iff.rfl) hformatted.empty _ (by decide)
  . obtain ⟨fs, _⟩ := FileSystem.returns_format (s := { disk := fun _ _ => 0, memory := fun _ _ => 0 })
    have hsplits := (copy_print_exact fs 10 7 ⟨[97], by decide⟩ ⟨[98], by decide⟩ [] ⟨OpenFile.tenBytes, 2⟩
      (fun _ => 0) [3, 0, 200] { disk := fun _ _ => 0, memory := fun _ _ => 0 }).2 OpenFile.tenBytes_valid
      (by decide) (by decide) (by decide) (by decide)
    rw [hsplits.1]
    unfold OpenFile.InRange
    decide

end Fstest

end Filesys

end Nachos
