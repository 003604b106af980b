import Nachos.Lib.Ownership
import Nachos.Filesys.FileSystem

/-!
This module contains what is on the disk: the free map, the directory and the headers, and which sectors
belong to which file. The free map and the directory are themselves in files.
-/

namespace Nachos

namespace Filesys

open Function (update)
open SynchDisk (numSectors)
open FileHeader (Written Took Allocated divRoundUp_bounds)

/-! ### What a disk contains -/

def headerAt (disk : Nat → Buffer) (n : Nat) : FileHeader :=
  .ofBytes (disk n)

def freeMapOf (disk : Nat → Buffer) : BitMap :=
  .ofBytes numSectors ((headerAt disk freeMapSector).byte disk)

def entryOf (disk : Nat → Buffer) (i : Nat) : Directory.Entry :=
  (Directory.ofBytes numDirEntries ((headerAt disk directorySector).byte disk)).entry i

def spareOf (disk : Nat → Buffer) (i : Nat) : BitVec 8 :=
  (Directory.ofBytes numDirEntries ((headerAt disk directorySector).byte disk)).spare i

/--
Who a sector can belong to. `boot` are the headers at the fixed places.
-/
inductive Owner where
  | boot
  | freeMap
  | directory
  | entry (i : Nat)
  deriving DecidableEq

def owns (disk : Nat → Buffer) : Owner → List Int
  | .boot => [(freeMapSector : Int), (directorySector : Int)]
  | .freeMap => (headerAt disk freeMapSector).sectorList
  | .directory => (headerAt disk directorySector).sectorList
  | .entry i =>
    let entry := entryOf disk i
    if i < numDirEntries ∧ entry.inUse then
      entry.sector :: (headerAt disk entry.sector.toNat).sectorList
    else
      []

def Marked (disk : Nat → Buffer) (n : Int) : Prop :=
  (freeMapOf disk).Marks n

structure Sound (disk : Nat → Buffer) : Prop where
  freeMapSize : (headerAt disk freeMapSector).numBytes = freeMapFileSize
  freeMap : (headerAt disk freeMapSector).Proper
  directorySize : (headerAt disk directorySector).numBytes = directoryFileSize
  directory : (headerAt disk directorySector).Proper
  file : ∀ i, i < numDirEntries → (entryOf disk i).inUse = true →
    (headerAt disk (entryOf disk i).sector.toNat).Proper
  ownership : Ownership (Marked disk) (owns disk)
  names : ∀ i j, i < numDirEntries → j < numDirEntries → (entryOf disk i).inUse = true →
    (entryOf disk j).inUse = true → (entryOf disk i).key = (entryOf disk j).key → i = j

structure FileSystem.Mounted (fs : FileSystem) (disk : Nat → Buffer) : Prop where
  freeMapFile : fs.freeMapFile.hdr = headerAt disk freeMapSector
  directoryFile : fs.directoryFile.hdr = headerAt disk directorySector

section

variable {disk disk' : Nat → Buffer} {hdr : FileHeader}

theorem FileHeader.Written.frame_of_notMem {source : Buffer} {p k : Nat} (h : hdr.Written source p k disk disk')
    (hproper : hdr.Proper) (hvalid : hdr.Valid) {n : Nat} (hn : (n : Int) ∉ hdr.sectorList)
    : disk' n = disk n := by
  apply h.frame
  intro i hi heq
  apply hn
  rw [hproper.mem_sectorList]
  refine ⟨i, hi, ?_⟩
  have := (hvalid.range i hi).1
  unfold FileHeader.sector at heq
  omega

theorem FileHeader.byte_congr (hproper : hdr.Proper)
    (h : ∀ n, n ∈ hdr.sectorList → disk' n.toNat = disk n.toNat) {offset : Nat} (hoffset : offset < hdr.numBytes)
    : hdr.byte disk' offset = hdr.byte disk offset := by
  unfold FileHeader.byte
  unfold FileHeader.sector
  rw [h _ (hproper.mem_sectorList.2 ⟨_, FileHeader.div_lt_blocks hoffset, rfl⟩)]

theorem owns_entry {i : Nat} (hi : i < numDirEntries) (hinUse : (entryOf disk i).inUse = true)
    : owns disk (.entry i) =
        (entryOf disk i).sector :: (headerAt disk (entryOf disk i).sector.toNat).sectorList := by
  simp only [owns]
  rw [if_pos ⟨hi, hinUse⟩]

theorem owns_entry_eq_nil {i : Nat} (h : ¬(i < numDirEntries ∧ (entryOf disk i).inUse = true))
    : owns disk (.entry i) = [] := by
  simp only [owns]
  rw [if_neg h]

theorem sector_mem_owns {i : Nat} (hi : i < numDirEntries) (hinUse : (entryOf disk i).inUse = true)
    : (entryOf disk i).sector ∈ owns disk (.entry i) := by
  rw [owns_entry hi hinUse]
  exact List.mem_cons_self

theorem mem_owns_of_mem_sectorList {i : Nat} (hi : i < numDirEntries) (hinUse : (entryOf disk i).inUse = true)
    {n : Int} (hn : n ∈ (headerAt disk (entryOf disk i).sector.toNat).sectorList)
    : n ∈ owns disk (.entry i) := by
  rw [owns_entry hi hinUse]
  exact List.mem_cons_of_mem _ hn

namespace Sound

variable (h : Sound disk)

include h

theorem marked_of_mem {o : Owner} {n : Int} (hn : n ∈ owns disk o) : Marked disk n :=
  h.ownership.used_of_mem hn

theorem notMem_of_clear {n : Nat} (hclear : (freeMapOf disk).bit n = false) (o : Owner) : (n : Int) ∉ owns disk o := by
  intro hn
  exact BitMap.not_marks_of_clear hclear (h.marked_of_mem hn)

theorem valid_freeMap : (headerAt disk freeMapSector).Valid := by
  apply h.freeMap.valid
  . intro n hn
    have hmarked := h.marked_of_mem (o := .freeMap) hn
    exact ⟨hmarked.1, hmarked.2.1⟩
  . exact h.ownership.nodup .freeMap

theorem valid_directory : (headerAt disk directorySector).Valid := by
  apply h.directory.valid
  . intro n hn
    have hmarked := h.marked_of_mem (o := .directory) hn
    exact ⟨hmarked.1, hmarked.2.1⟩
  . exact h.ownership.nodup .directory

theorem valid_file {i : Nat} (hi : i < numDirEntries) (hinUse : (entryOf disk i).inUse = true)
    : (headerAt disk (entryOf disk i).sector.toNat).Valid := by
  apply (h.file i hi hinUse).valid
  . intro n hn
    have hmarked := h.marked_of_mem (mem_owns_of_mem_sectorList hi hinUse hn)
    exact ⟨hmarked.1, hmarked.2.1⟩
  . have hnodup := h.ownership.nodup (.entry i)
    rw [owns_entry hi hinUse] at hnodup
    exact hnodup.of_cons

end Sound

/-! ### The files for the free map and the directory -/

/--
What `FetchFrom` and `WriteBack` need. All of it is in the headers at the fixed places.
-/
structure System (disk : Nat → Buffer) : Prop where
  freeMapSize : (headerAt disk freeMapSector).numBytes = freeMapFileSize
  freeMap : (headerAt disk freeMapSector).Proper
  freeMapValid : (headerAt disk freeMapSector).Valid
  directorySize : (headerAt disk directorySector).numBytes = directoryFileSize
  directory : (headerAt disk directorySector).Proper
  directoryValid : (headerAt disk directorySector).Valid
  boot_notMem_freeMap : ∀ n, n ∈ owns disk .boot → n ∉ owns disk .freeMap
  boot_notMem_directory : ∀ n, n ∈ owns disk .boot → n ∉ owns disk .directory
  apart : ∀ n, n ∈ owns disk .freeMap → n ∉ owns disk .directory

theorem Sound.system (h : Sound disk) : System disk where
  freeMapSize := h.freeMapSize
  freeMap := h.freeMap
  freeMapValid := h.valid_freeMap
  directorySize := h.directorySize
  directory := h.directory
  directoryValid := h.valid_directory
  boot_notMem_freeMap _ hn := h.ownership.notMem_of_ne (by simp) hn
  boot_notMem_directory _ hn := h.ownership.notMem_of_ne (by simp) hn
  apart _ hn := h.ownership.notMem_of_ne (by simp) hn

theorem headerAt_congr {n : Nat} (h : disk' n = disk n) : headerAt disk' n = headerAt disk n := by
  unfold headerAt
  rw [h]

namespace System

variable (h : System disk)

include h

theorem congr (hfreeMap : disk' freeMapSector = disk freeMapSector) (hdirectory : disk' directorySector = disk directorySector)
    : System disk' := by
  have hfreeMap' := headerAt_congr hfreeMap
  have hdirectory' := headerAt_congr hdirectory
  obtain ⟨h1, h2, h3, h4, h5, h6, h7, h8, h9⟩ := h
  unfold owns at h7 h8 h9
  constructor
  case freeMapSize => rwa [hfreeMap']
  case freeMap => rwa [hfreeMap']
  case freeMapValid => rwa [hfreeMap']
  case directorySize => rwa [hdirectory']
  case directory => rwa [hdirectory']
  case directoryValid => rwa [hdirectory']
  case boot_notMem_freeMap =>
    unfold owns
    rwa [hfreeMap']
  case boot_notMem_directory =>
    unfold owns
    rwa [hdirectory']
  case apart =>
    unfold owns
    rwa [hfreeMap', hdirectory']

theorem directory_length : (numDirEntries * Directory.entrySize : Nat) ≤ (headerAt disk directorySector).numBytes := by
  rw [h.directorySize]
  decide

theorem freeMap_length : ((numSectors + 31) / 32 * 4 : Nat) ≤ (headerAt disk freeMapSector).numBytes := by
  rw [h.freeMapSize]
  decide

theorem entryOf_congr (hboot : disk' directorySector = disk directorySector)
    (hsectors : ∀ n, n ∈ owns disk .directory → disk' n.toNat = disk n.toNat) {i : Nat} (hi : i < numDirEntries)
    : entryOf disk' i = entryOf disk i := by
  have hlength := h.directory_length
  unfold entryOf
  rw [headerAt_congr hboot]
  apply Directory.entry_ofBytes_congr _ hi
  intro k hk
  apply FileHeader.byte_congr h.directory hsectors
  omega

theorem spareOf_congr (hboot : disk' directorySector = disk directorySector)
    (hsectors : ∀ n, n ∈ owns disk .directory → disk' n.toNat = disk n.toNat) {i : Nat} (hi : i < numDirEntries)
    : spareOf disk' i = spareOf disk i := by
  have hlength := h.directory_length
  unfold spareOf
  rw [headerAt_congr hboot]
  apply Directory.spare_ofBytes_congr _ hi
  intro k hk
  apply FileHeader.byte_congr h.directory hsectors
  omega

theorem freeMapOf_congr (hboot : disk' freeMapSector = disk freeMapSector)
    (hsectors : ∀ n, n ∈ owns disk .freeMap → disk' n.toNat = disk n.toNat) {i : Nat} (hi : i < numSectors)
    : (freeMapOf disk').bit i = (freeMapOf disk).bit i := by
  have hlength := h.freeMap_length
  unfold freeMapOf
  rw [headerAt_congr hboot]
  apply BitMap.bit_ofBytes_congr _ (Nat.le_refl _) hi
  intro k hk
  apply FileHeader.byte_congr h.freeMap hsectors
  omega

end System

theorem owns_freeMap_congr (h : disk' freeMapSector = disk freeMapSector)
    : owns disk' .freeMap = owns disk .freeMap := by
  simp only [owns]
  rw [headerAt_congr h]

theorem owns_directory_congr (h : disk' directorySector = disk directorySector)
    : owns disk' .directory = owns disk .directory := by
  simp only [owns]
  rw [headerAt_congr h]

theorem owns_entry_congr {i : Nat} (hentry : i < numDirEntries → entryOf disk' i = entryOf disk i)
    (hheader : i < numDirEntries → (entryOf disk i).inUse = true →
      headerAt disk' (entryOf disk i).sector.toNat = headerAt disk (entryOf disk i).sector.toNat)
    : owns disk' (.entry i) = owns disk (.entry i) := by
  by_cases hin : i < numDirEntries ∧ (entryOf disk i).inUse = true
  . have hentry := hentry hin.1
    rw [owns_entry hin.1 hin.2, owns_entry hin.1 (by rw [hentry]; exact hin.2), hentry, hheader hin.1 hin.2]
  . rw [owns_entry_eq_nil hin, owns_entry_eq_nil]
    intro ⟨hi, hinUse⟩
    rw [hentry hi] at hinUse
    exact hin ⟨hi, hinUse⟩

theorem owns_eq_update {slot : Nat} {sectors : List Int} (hslot : owns disk' (.entry slot) = sectors)
    (hfreeMap : disk' freeMapSector = disk freeMapSector) (hdirectory : disk' directorySector = disk directorySector)
    (hentry : ∀ i, i < numDirEntries → i ≠ slot → entryOf disk' i = entryOf disk i)
    (hheader : ∀ i, i < numDirEntries → (entryOf disk i).inUse = true →
      headerAt disk' (entryOf disk i).sector.toNat = headerAt disk (entryOf disk i).sector.toNat)
    : owns disk' = update (owns disk) (.entry slot) sectors := by
  funext o
  by_cases ho : o = .entry slot
  . rw [ho, Function.update_self, hslot]
  . rw [Function.update_of_ne ho]
    cases o with
    | boot => rfl
    | freeMap => exact owns_freeMap_congr hfreeMap
    | directory => exact owns_directory_congr hdirectory
    | entry i =>
      have hne : i ≠ slot := by
        intro heq
        exact ho (by rw [heq])
      apply owns_entry_congr
      . intro hi
        exact hentry i hi hne
      . intro hi hinUse
        exact hheader i hi hinUse

theorem System.sound (h : System disk)
    (hfile : ∀ i, i < numDirEntries → (entryOf disk i).inUse = true →
      (headerAt disk (entryOf disk i).sector.toNat).Proper)
    (hownership : Ownership (Marked disk) (owns disk))
    (hnames : ∀ i j, i < numDirEntries → j < numDirEntries → (entryOf disk i).inUse = true →
      (entryOf disk j).inUse = true → (entryOf disk i).key = (entryOf disk j).key → i = j)
    : Sound disk where
  freeMapSize := h.freeMapSize
  freeMap := h.freeMap
  directorySize := h.directorySize
  directory := h.directory
  file := hfile
  ownership := hownership
  names := hnames

theorem FileSystem.Mounted.congr {fs : FileSystem} (h : fs.Mounted disk)
    (hfreeMap : disk' freeMapSector = disk freeMapSector) (hdirectory : disk' directorySector = disk directorySector)
    : fs.Mounted disk' where
  freeMapFile := by rw [h.freeMapFile, headerAt_congr hfreeMap]
  directoryFile := by rw [h.directoryFile, headerAt_congr hdirectory]

structure Flushed (disk : Nat → Buffer) (d : Directory) (m : BitMap) (disk' : Nat → Buffer) : Prop where
  entry : ∀ i, i < numDirEntries → entryOf disk' i = d.entry i
  spare : ∀ i, i < numDirEntries → spareOf disk' i = d.spare i
  bit : ∀ i, i < numSectors → (freeMapOf disk').bit i = m.bit i
  frame : ∀ n : Nat, (n : Int) ∉ owns disk .freeMap → (n : Int) ∉ owns disk .directory → disk' n = disk n

theorem freeMapSector_mem_boot (disk : Nat → Buffer) : (freeMapSector : Int) ∈ owns disk .boot := by
  simp [owns]

theorem directorySector_mem_boot (disk : Nat → Buffer) : (directorySector : Int) ∈ owns disk .boot := by
  simp [owns]

theorem Flushed.boot_eq {d : Directory} {m : BitMap} (h : Flushed disk d m disk') (hsystem : System disk) {n : Nat}
    (hn : (n : Int) ∈ owns disk .boot)
    : disk' n = disk n := by
  apply h.frame
  . exact hsystem.boot_notMem_freeMap _ hn
  . exact hsystem.boot_notMem_directory _ hn

end

namespace FileSystem

open Exit

variable {fs : FileSystem} {s : Store} (hsystem : System s.disk) (hmounted : fs.Mounted s.disk)

include hsystem hmounted

theorem returns_fetchDirectory
    : Returns fs.fetchDirectory s (fun d s' =>
        s'.disk = s.disk ∧ d.tableSize = numDirEntries ∧
        (∀ i, i < numDirEntries → d.entry i = entryOf s.disk i) ∧
        ∀ i, i < numDirEntries → d.spare i = spareOf s.disk i) := by
  unfold fetchDirectory
  rw [returns_bind]
  apply Directory.Returns.ofSize
  intro d s' hsize _ _ hs
  have hlength := hsystem.directory_length
  rw [← hmounted.directoryFile, ← hsize] at hlength
  have hvalid := hsystem.directoryValid
  rw [← hmounted.directoryFile] at hvalid
  apply (Directory.returns_fetchFrom hvalid hlength).mono
  intro d' s'' ⟨hs', hsize', hbyte⟩
  rw [hsize, hs, hmounted.directoryFile] at hbyte
  refine ⟨hs'.trans hs, hsize'.trans hsize, ?_, ?_⟩
  . intro i hi
    exact Directory.entry_ofBytes_congr (b := d'.table) (n := numDirEntries) hbyte hi
  . intro i hi
    exact Directory.spare_ofBytes_congr (b := d'.table) (n := numDirEntries) hbyte hi

theorem returns_fetchFreeMap
    : Returns fs.fetchFreeMap s (fun m s' =>
        s'.disk = s.disk ∧ m.numBits = numSectors ∧
        ∀ i, i < numSectors → m.bit i = (freeMapOf s.disk).bit i) := by
  unfold fetchFreeMap
  rw [returns_bind]
  apply BitMap.Returns.ofSize
  intro m s' hbits _ hs _
  have hlength := hsystem.freeMap_length
  rw [← hmounted.freeMapFile, ← hbits] at hlength
  have hvalid := hsystem.freeMapValid
  rw [← hmounted.freeMapFile] at hvalid
  apply (BitMap.returns_fetchFrom hvalid hlength).mono
  intro m' s'' ⟨hs', hbits', hbit⟩
  rw [hbits, hs, hmounted.freeMapFile] at hbit
  exact ⟨hs'.trans hs, hbits'.trans hbits, hbit⟩

theorem returns_writeDirectory {d : Directory} (hsize : d.tableSize = numDirEntries)
    : Returns (d.writeBack fs.directoryFile) s (fun _ s' =>
        (∀ i, i < numDirEntries → entryOf s'.disk i = d.entry i) ∧
        (∀ i, i < numDirEntries → spareOf s'.disk i = d.spare i) ∧
        ∀ n : Nat, (n : Int) ∉ owns s.disk .directory → s'.disk n = s.disk n) := by
  have hlength := hsystem.directory_length
  have hlength' := hlength
  rw [← hmounted.directoryFile, ← hsize] at hlength'
  have hvalid := hsystem.directoryValid
  rw [← hmounted.directoryFile] at hvalid
  apply (Directory.returns_writeBack hvalid hlength').mono
  intro _ s' hwritten
  rw [hmounted.directoryFile] at hwritten
  have hframe (n : Nat) (hn : (n : Int) ∉ owns s.disk .directory) : s'.disk n = s.disk n :=
    hwritten.frame_of_notMem hsystem.directory hsystem.directoryValid hn
  have hboot : s'.disk directorySector = s.disk directorySector := by
    apply hframe
    apply hsystem.boot_notMem_directory
    simp [owns]
  have hbyte (k : Nat) (hk : k < numDirEntries * Directory.entrySize)
      : (headerAt s'.disk directorySector).byte s'.disk k = d.table k := by
    rw [headerAt_congr hboot]
    rw [← hsize] at hk hlength
    exact Directory.byte_of_written hlength hwritten hk
  refine ⟨?_, ?_, hframe⟩
  . intro i hi
    exact Directory.entry_ofBytes_congr hbyte hi
  . intro i hi
    exact Directory.spare_ofBytes_congr hbyte hi

theorem returns_writeFreeMap {m : BitMap} (hbits : m.numBits = numSectors)
    : Returns (m.writeBack fs.freeMapFile) s (fun _ s' =>
        (∀ i, i < numSectors → (freeMapOf s'.disk).bit i = m.bit i) ∧
        ∀ n : Nat, (n : Int) ∉ owns s.disk .freeMap → s'.disk n = s.disk n) := by
  have hlength := hsystem.freeMap_length
  have hlength' := hlength
  rw [← hmounted.freeMapFile, ← hbits] at hlength'
  have hvalid := hsystem.freeMapValid
  rw [← hmounted.freeMapFile] at hvalid
  apply (BitMap.returns_writeBack hvalid hlength').mono
  intro _ s' hwritten
  rw [hmounted.freeMapFile] at hwritten
  have hframe (n : Nat) (hn : (n : Int) ∉ owns s.disk .freeMap) : s'.disk n = s.disk n :=
    hwritten.frame_of_notMem hsystem.freeMap hsystem.freeMapValid hn
  refine ⟨?_, hframe⟩
  intro i hi
  have hboot : s'.disk freeMapSector = s.disk freeMapSector := by
    apply hframe
    apply hsystem.boot_notMem_freeMap
    simp [owns]
  unfold freeMapOf
  rw [headerAt_congr hboot, ← hbits]
  rw [← hbits] at hi hlength
  exact BitMap.bit_of_written hlength hwritten hi

theorem Returns.writeDirectory_writeFreeMap {d : Directory} {m : BitMap} (hsize : d.tableSize = numDirEntries)
    (hbits : m.numBits = numSectors) {f : FS α} {value : α → Store → Prop}
    (hrest : ∀ s', Flushed s.disk d m s'.disk → Returns f s' value)
    : Returns (do d.writeBack fs.directoryFile; m.writeBack fs.freeMapFile; f : FS α) s value := by
  apply (returns_writeDirectory hsystem hmounted hsize).bind
  intro _ s₁ ⟨hentry, hspare, hframe⟩
  have hfreeMap : s₁.disk freeMapSector = s.disk freeMapSector :=
    hframe _ (hsystem.boot_notMem_directory _ (freeMapSector_mem_boot _))
  have hdirectory : s₁.disk directorySector = s.disk directorySector :=
    hframe _ (hsystem.boot_notMem_directory _ (directorySector_mem_boot _))
  have hsystem₁ := hsystem.congr hfreeMap hdirectory
  apply (returns_writeFreeMap hsystem₁ (hmounted.congr hfreeMap hdirectory) hbits).bind
  intro _ s₂ ⟨hbit, hframe₁⟩
  apply hrest
  have hboot : s₂.disk directorySector = s₁.disk directorySector :=
    hframe₁ _ (hsystem₁.boot_notMem_freeMap _ (directorySector_mem_boot _))
  have hsectors (n : Int) (hn : n ∈ owns s₁.disk .directory) : s₂.disk n.toNat = s₁.disk n.toNat := by
    apply hframe₁
    rw [hsystem₁.directory.toNat_of_mem hsystem₁.directoryValid hn]
    intro hn'
    exact hsystem₁.apart n hn' hn
  constructor
  case entry =>
    intro i hi
    rw [← hentry i hi]
    exact hsystem₁.entryOf_congr hboot hsectors hi
  case spare =>
    intro i hi
    rw [← hspare i hi]
    exact hsystem₁.spareOf_congr hboot hsectors hi
  case bit => exact hbit
  case frame =>
    intro n hn hn'
    rw [hframe₁ n (by rwa [owns_freeMap_congr hfreeMap]), hframe n hn']

theorem Returns.writeFreeMap_writeDirectory {d : Directory} {m : BitMap} (hsize : d.tableSize = numDirEntries)
    (hbits : m.numBits = numSectors) {f : FS α} {value : α → Store → Prop}
    (hrest : ∀ s', Flushed s.disk d m s'.disk → Returns f s' value)
    : Returns (do m.writeBack fs.freeMapFile; d.writeBack fs.directoryFile; f : FS α) s value := by
  apply (returns_writeFreeMap hsystem hmounted hbits).bind
  intro _ s₁ ⟨hbit, hframe⟩
  have hfreeMap : s₁.disk freeMapSector = s.disk freeMapSector :=
    hframe _ (hsystem.boot_notMem_freeMap _ (freeMapSector_mem_boot _))
  have hdirectory : s₁.disk directorySector = s.disk directorySector :=
    hframe _ (hsystem.boot_notMem_freeMap _ (directorySector_mem_boot _))
  have hsystem₁ := hsystem.congr hfreeMap hdirectory
  apply (returns_writeDirectory hsystem₁ (hmounted.congr hfreeMap hdirectory) hsize).bind
  intro _ s₂ ⟨hentry, hspare, hframe₁⟩
  apply hrest
  constructor
  case entry => exact hentry
  case spare => exact hspare
  case bit =>
    intro i hi
    rw [← hbit i hi]
    apply hsystem₁.freeMapOf_congr _ _ hi
    . exact hframe₁ _ (hsystem₁.boot_notMem_directory _ (freeMapSector_mem_boot _))
    . intro n hn
      apply hframe₁
      rw [hsystem₁.freeMap.toNat_of_mem hsystem₁.freeMapValid hn]
      exact hsystem₁.apart n hn
  case frame =>
    intro n hn hn'
    rw [hframe₁ n (by rwa [owns_directory_congr hdirectory]), hframe n hn]

end FileSystem

section

variable {disk disk' : Nat → Buffer}

theorem Sound.find_cases (h : Sound disk) {d : Directory} (hsize : d.tableSize = numDirEntries)
    (hentry : ∀ i, i < numDirEntries → d.entry i = entryOf disk i) (name : Name)
    : (∃ i, i < numDirEntries ∧ (entryOf disk i).Matches name ∧ d.findIndex name = some i ∧
          0 ≤ (entryOf disk i).sector ∧ d.find name = (entryOf disk i).sector) ∨
        (∀ i, i < numDirEntries → ¬(entryOf disk i).Matches name) ∧ d.find name = -1 := by
  unfold Directory.find
  cases d.findIndex_cases name with
  | inl hfound =>
    obtain ⟨i, hi, hmatches, hindex⟩ := hfound
    rw [hsize] at hi
    rw [hentry i hi] at hmatches
    refine .inl ⟨i, hi, hmatches, hindex, ?_, ?_⟩
    . exact (h.marked_of_mem (sector_mem_owns hi hmatches.1)).1
    . rw [hindex, ← hentry i hi]
      rfl
  | inr hnone =>
    refine .inr ⟨?_, ?_⟩
    . intro i hi
      rw [← hentry i hi]
      exact hnone.1 i (by rwa [hsize])
    . rw [hnone.2]

end

end Filesys

end Nachos
