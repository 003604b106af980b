import Nachos.Filesys.Remove

/-!
This module contains the constructor of `FileSystem`: formatting makes any disk one with an empty
directory, and mounting finds the files again.
-/

namespace Nachos

namespace Filesys

open Function (update)
open SynchDisk (numSectors)
open FileHeader (Allocated)

namespace FileSystem

open Exit

variable {fs : FileSystem} {s : Store}

theorem returns_mount {value : FileSystem → Store → Prop}
    : Returns mount s value ↔ value
        { freeMapFile := { hdr := headerAt s.disk freeMapSector, seekPosition := 0 }
          directoryFile := { hdr := headerAt s.disk directorySector, seekPosition := 0 } } s := by
  have hfreeMap : (freeMapSector : Int) < numSectors := by decide
  have hdirectory : (directorySector : Int) < numSectors := by decide
  unfold mount
  rw [returns_bind, returns_ofSector (by omega) hfreeMap, returns_bind, returns_ofSector (by omega) hdirectory,
    returns_pure, Int.toNat_natCast, Int.toNat_natCast]

theorem returns_assertAllocate {m : BitMap} {fileSize : Nat} (hsize : fileSize ≤ maxFileSize)
    (hclear : (fileSize + 127) / 128 ≤ m.numClear)
    : Returns (assertAllocate m fileSize) s (fun r s' => s'.disk = s.disk ∧ Allocated m fileSize r.1 r.2) := by
  unfold assertAllocate
  rw [returns_bind]
  apply Returns.new
  intro memory s₁ hs₁
  apply (FileHeader.returns_allocate (by omega)).bind
  intro ⟨success, hdr, m'⟩ s₂ ⟨hs₂, hsuccess, _, hallocated⟩
  subst hs₂
  have hsuccess : success = true := by
    rw [hsuccess, FileHeader.divRoundUp_natCast]
    omega
  subst hsuccess
  simp only [if_true, returns_pure]
  exact ⟨hs₁, (hallocated rfl).1⟩

end FileSystem

structure Formatted (disk : Nat → Buffer) : Prop where
  system : System disk
  ownership : Ownership (Marked disk) (owns disk)
  empty : ∀ i, i < numDirEntries → (entryOf disk i).inUse = false

theorem Formatted.sound {disk : Nat → Buffer} (h : Formatted disk) : Sound disk where
  freeMapSize := h.system.freeMapSize
  freeMap := h.system.freeMap
  directorySize := h.system.directorySize
  directory := h.system.directory
  ownership := h.ownership
  file i hi hinUse := by
    rw [h.empty i hi] at hinUse
    cases hinUse
  names i j hi hj hinUse := by
    rw [h.empty i hi] at hinUse
    cases hinUse

def bootOwns (mapHdr dirHdr : FileHeader) : Owner → List Int
  | .boot => [(freeMapSector : Int), (directorySector : Int)]
  | .freeMap => mapHdr.sectorList
  | .directory => dirHdr.sectorList
  | .entry _ => []

theorem ownership_boot {m m₁ m₂ : BitMap} {mapHdr dirHdr : FileHeader} {mapSize dirSize : Int}
    (hmarks : ∀ a, m.Marks a ↔ a ∈ [(freeMapSector : Int), (directorySector : Int)])
    (hmap : Allocated m mapSize mapHdr m₁) (hmapSize : mapSize ≤ maxFileSize)
    (hdir : Allocated m₁ dirSize dirHdr m₂) (hdirSize : dirSize ≤ maxFileSize)
    : Ownership m₂.Marks (bootOwns mapHdr dirHdr) := by
  have hempty : Ownership (fun _ : Int => False) (fun _ : Owner => []) := by
    constructor
    . intro i
      exact List.nodup_nil
    . intro i j a ha
      cases ha
    . intro a
      simp
  have hboot : Ownership m.Marks (update (fun _ : Owner => []) .boot [(freeMapSector : Int), (directorySector : Int)]) := by
    apply hempty.take rfl (by decide) (fun a ha => id)
    intro a
    rw [hmarks, false_or]
  have hfreeMap := hboot.take (i := .freeMap) rfl (hmap.nodup hmapSize) (fun a ha => hmap.not_marks hmapSize ha)
    (hmap.marks_iff hmapSize)
  have hdirectory := hfreeMap.take (i := .directory) rfl (hdir.nodup hdirSize) (fun a ha => hdir.not_marks hdirSize ha)
    (hdir.marks_iff hdirSize)
  convert hdirectory using 1
  funext o
  cases o with
  | boot => rfl
  | freeMap => rfl
  | directory => rfl
  | entry i => rfl

section

variable {disk : Nat → Buffer} {m m₁ m₂ : BitMap}

variable (hmarks : ∀ a, m.Marks a ↔ a ∈ [(freeMapSector : Int), (directorySector : Int)])
  (hbits : m.numBits = numSectors)
  (hmap : Allocated m freeMapFileSize (headerAt disk freeMapSector) m₁)
  (hdir : Allocated m₁ directoryFileSize (headerAt disk directorySector) m₂)

include hmarks hbits hmap hdir

theorem system_of_allocated : System disk := by
  have hmapSize : (freeMapFileSize : Int) ≤ maxFileSize := by decide
  have hdirSize : (directoryFileSize : Int) ≤ maxFileSize := by decide
  have hownership := ownership_boot hmarks hmap hmapSize hdir hdirSize
  have hbits₂ : m₂.numBits = numSectors := by
    rw [hdir.took.numBits, hmap.took.numBits, hbits]
  have hrange (o : Owner) (a : Int) (ha : a ∈ bootOwns (headerAt disk freeMapSector) (headerAt disk directorySector) o)
      : 0 ≤ a ∧ a < numSectors := by
    have hmarked := hownership.used_of_mem ha
    rw [← hbits₂]
    exact ⟨hmarked.1, hmarked.2.1⟩
  constructor
  case freeMapSize => exact hmap.numBytes
  case freeMap => exact hmap.proper hmapSize
  case freeMapValid => exact (hmap.proper hmapSize).valid (hrange .freeMap) (hmap.nodup hmapSize)
  case directorySize => exact hdir.numBytes
  case directory => exact hdir.proper hdirSize
  case directoryValid => exact (hdir.proper hdirSize).valid (hrange .directory) (hdir.nodup hdirSize)
  case boot_notMem_freeMap =>
    intro n hn
    exact hownership.notMem_of_ne (i := .boot) (j := .freeMap) nofun hn
  case boot_notMem_directory =>
    intro n hn
    exact hownership.notMem_of_ne (i := .boot) (j := .directory) nofun hn
  case apart =>
    intro n hn
    exact hownership.notMem_of_ne (i := .freeMap) (j := .directory) nofun hn

theorem formatted_of_flushed {d : Directory} (hempty : ∀ i, i < numDirEntries → (d.entry i).inUse = false)
    {disk' : Nat → Buffer} (hflushed : Flushed disk d m₂ disk')
    : Formatted disk' := by
  have hmapSize : (freeMapFileSize : Int) ≤ maxFileSize := by decide
  have hdirSize : (directoryFileSize : Int) ≤ maxFileSize := by decide
  have hsystem := system_of_allocated hmarks hbits hmap hdir
  have hfreeMap := hflushed.boot_eq hsystem (freeMapSector_mem_boot disk)
  have hdirectory := hflushed.boot_eq hsystem (directorySector_mem_boot disk)
  have hempty' (i : Nat) (hi : i < numDirEntries) : (entryOf disk' i).inUse = false := by
    rw [hflushed.entry i hi]
    exact hempty i hi
  have hbits₂ : m₂.numBits = numSectors := by
    rw [hdir.took.numBits, hmap.took.numBits, hbits]
  have hmarked : Marked disk' = m₂.Marks := by
    funext a
    apply propext
    apply BitMap.marks_congr hbits₂.symm
    rw [hbits₂]
    exact hflushed.bit
  have howns : owns disk' = bootOwns (headerAt disk freeMapSector) (headerAt disk directorySector) := by
    funext o
    cases o with
    | boot => rfl
    | freeMap => exact owns_freeMap_congr hfreeMap
    | directory => exact owns_directory_congr hdirectory
    | entry i =>
      apply owns_entry_eq_nil
      intro ⟨hi, hinUse⟩
      rw [hempty' i hi] at hinUse
      cases hinUse
  constructor
  case system => exact hsystem.congr hfreeMap hdirectory
  case ownership =>
    rw [hmarked, howns]
    exact ownership_boot hmarks hmap hmapSize hdir hdirSize
  case empty => exact hempty'

end

namespace FileSystem

open Exit

variable {s : Store}

theorem returns_format_spare
    : Returns format s (fun fs s' => (Formatted s'.disk ∧ fs.Mounted s'.disk) ∧
        ∀ i, i < numDirEntries → spareOf s'.disk i = (Directory.ofBytes numDirEntries (s.memory 1)).spare i) := by
  have hfreeMapLt : freeMapSector < numSectors := by decide
  have hdirectoryLt : directorySector < numSectors := by decide
  unfold format
  rw [returns_bind]
  apply BitMap.Returns.ofSize
  intro m s₁ hbits hclear hs₁ hmemory
  rw [returns_bind]
  apply Directory.Returns.ofSize
  intro d s₂ hdsize hempty hspare hs₂
  rw [hmemory] at hspare
  rw [returns_bind, BitMap.returns_mark (by rw [hbits]; exact hfreeMapLt), returns_bind,
    BitMap.returns_mark (by rw [BitMap.numBits_setBit, hbits]; exact hdirectoryLt)]
  have hmarks (a : Int) : ((m.setBit freeMapSector).setBit directorySector).Marks a ↔
      a ∈ [(freeMapSector : Int), (directorySector : Int)] := by
    have hnone : ¬m.Marks a := by
      intro ⟨hnonneg, hlt, hbit⟩
      rw [hclear _ (by omega)] at hbit
      cases hbit
    rw [BitMap.marks_setBit (by rw [BitMap.numBits_setBit, hbits]; exact hdirectoryLt),
      BitMap.marks_setBit (by rw [hbits]; exact hfreeMapLt)]
    simp [hnone]
  have hnumClear : m.numClear = 1024 := by
    rw [BitMap.numClear_of_clear (by rwa [hbits]), hbits]
    rfl
  have hnumClear₁ := BitMap.numClear_setBit (m := m) (i := freeMapSector) (by rw [hbits]; exact hfreeMapLt)
    (hclear _ hfreeMapLt)
  have hnumClear₂ := BitMap.numClear_setBit (m := m.setBit freeMapSector) (i := directorySector)
    (by rw [BitMap.numBits_setBit, hbits]; exact hdirectoryLt)
    (by rw [BitMap.bit_setBit, hclear _ hdirectoryLt]; rfl)
  have hbits₁ : ((m.setBit freeMapSector).setBit directorySector).numBits = numSectors := hbits
  generalize (m.setBit freeMapSector).setBit directorySector = m₁ at *
  have hmapSize : freeMapFileSize = 128 := rfl
  have hdirSize : directoryFileSize = 200 := rfl
  apply (returns_assertAllocate (by decide) (by omega)).bind
  intro ⟨mapHdr, m₂⟩ s₃ ⟨hs₃, hmap⟩
  have hmapClear : m₂.numClear + 1 = m₁.numClear := by
    have := hmap.took.numClear
    rwa [FileHeader.blocks_of_natCast hmap.numBytes, hmapSize] at this
  apply (returns_assertAllocate (by decide) (by omega)).bind
  intro ⟨dirHdr, m₃⟩ s₄ ⟨hs₄, hdir⟩
  have hle₁ : m₁.numBits ≤ 2 ^ 31 := by
    rw [hbits₁]
    decide
  have hle₂ : m₂.numBits ≤ 2 ^ 31 := by
    rw [hmap.took.numBits]
    exact hle₁
  have hmap' := hmap.ofBytes_bytes hle₁ (by omega) (by omega)
  have hdir' := hdir.ofBytes_bytes hle₂ (by omega) (by omega)
  unfold FileHeader.writeBack
  rw [returns_bind, returns_writeSector (by omega), returns_bind, returns_writeSector (by omega), returns_bind,
    returns_mount, Int.toNat_natCast, Int.toNat_natCast]
  generalize hs₅ : ({ s₄ with disk := update (update s₄.disk freeMapSector mapHdr.bytes) directorySector dirHdr.bytes } : Store)
    = s₅
  have hmapHdr : headerAt s₅.disk freeMapSector = .ofBytes mapHdr.bytes := by
    rw [← hs₅]
    rfl
  have hdirHdr : headerAt s₅.disk directorySector = .ofBytes dirHdr.bytes := by
    rw [← hs₅]
    rfl
  rw [← hmapHdr] at hmap'
  rw [← hdirHdr] at hdir'
  have hsystem := system_of_allocated hmarks hbits₁ hmap' hdir'
  have hbits₃ : m₃.numBits = numSectors := by
    rw [hdir'.took.numBits, hmap'.took.numBits, hbits₁]
  apply Returns.writeFreeMap_writeDirectory hsystem ⟨rfl, rfl⟩ hdsize hbits₃
  intro s₆ hflushed
  rw [returns_pure]
  refine ⟨⟨?_, ?_⟩, ?_⟩
  . exact formatted_of_flushed hmarks hbits₁ hmap' hdir' hempty hflushed
  . have hmounted : Mounted
        { freeMapFile := { hdr := headerAt s₅.disk freeMapSector, seekPosition := 0 }
          directoryFile := { hdr := headerAt s₅.disk directorySector, seekPosition := 0 } } s₅.disk := ⟨rfl, rfl⟩
    exact hmounted.congr (hflushed.boot_eq hsystem (freeMapSector_mem_boot _))
      (hflushed.boot_eq hsystem (directorySector_mem_boot _))
  . intro i hi
    rw [hflushed.spare i hi, hspare]

theorem returns_format
    : Returns format s (fun fs s' => Formatted s'.disk ∧ fs.Mounted s'.disk) := by
  apply returns_format_spare.mono
  intro fs s' h
  exact h.1

end FileSystem

end Filesys

end Nachos
