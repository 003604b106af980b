import Nachos.Filesys.Consistency

/-!
This module contains what `Open` and `Remove` do: `Open` reads the header of an entry, and `Remove` takes
the entry and its sectors away.
-/

namespace Nachos

namespace Filesys

open Function (update)
open SynchDisk (numSectors)

structure Removed (disk : Nat → Buffer) (name : Name) (slot : Nat) (disk' : Nat → Buffer) : Prop where
  slot_lt : slot < numDirEntries
  found : (entryOf disk slot).Matches name
  marked_iff : ∀ a, Marked disk' a ↔ Marked disk a ∧ a ∉ owns disk (.entry slot)
  entry : ∀ i, i < numDirEntries →
    entryOf disk' i = update (entryOf disk) slot { entryOf disk slot with inUse := false } i
  spare : ∀ i, i < numDirEntries → spareOf disk' i = spareOf disk i
  frame : ∀ k : Nat, (k : Int) ∉ owns disk .freeMap → (k : Int) ∉ owns disk .directory → disk' k = disk k

namespace FileSystem

open Exit

variable {fs : FileSystem} {s : Store}

theorem returns_fetchHeader {sector : Int} (hnonneg : 0 ≤ sector) (hlt : sector < numSectors)
    {value : FileHeader → Store → Prop}
    : Returns (FileHeader.fetchFrom sector) s value ↔ value (headerAt s.disk sector.toNat) s := by
  unfold FileHeader.fetchFrom
  rw [returns_bind, returns_readSector ⟨hnonneg, hlt⟩, returns_pure]
  rfl

theorem returns_ofSector {sector : Int} (hnonneg : 0 ≤ sector) (hlt : sector < numSectors)
    {value : OpenFile → Store → Prop}
    : Returns (OpenFile.ofSector sector) s value ↔
        value { hdr := headerAt s.disk sector.toNat, seekPosition := 0 } s := by
  unfold OpenFile.ofSector
  rw [returns_bind, returns_fetchHeader hnonneg hlt, returns_pure]

variable (hsound : Sound s.disk) (hmounted : fs.Mounted s.disk)

include hsound hmounted

theorem returns_openFile (name : Name)
    : Returns (fs.openFile name) s (fun r s' =>
        s'.disk = s.disk ∧
        ((r = none ∧ ∀ i, i < numDirEntries → ¬(entryOf s.disk i).Matches name) ∨
          ∃ i, i < numDirEntries ∧ (entryOf s.disk i).Matches name ∧
            r = some { hdr := headerAt s.disk (entryOf s.disk i).sector.toNat, seekPosition := 0 })) := by
  unfold openFile
  apply (returns_fetchDirectory hsound.system hmounted).bind
  intro d s₁ ⟨hs₁, hsize, hentry, _⟩
  cases hsound.find_cases hsize hentry name with
  | inl hfound =>
    obtain ⟨i, hi, hmatches, _, hnonneg, hfind⟩ := hfound
    have hlt : (entryOf s.disk i).sector < numSectors :=
      (hsound.marked_of_mem (sector_mem_owns hi hmatches.1)).2.1
    rw [hfind, if_pos hnonneg, returns_bind, returns_ofSector hnonneg hlt, returns_pure, hs₁]
    exact ⟨rfl, .inr ⟨i, hi, hmatches, rfl⟩⟩
  | inr habsent =>
    rw [habsent.2, if_neg (by omega), returns_pure]
    exact ⟨hs₁, .inl ⟨rfl, habsent.1⟩⟩

theorem returns_remove (name : Name)
    : Returns (fs.remove name) s (fun r s' =>
        (r = true ↔ ∃ i, i < numDirEntries ∧ (entryOf s.disk i).Matches name) ∧
        (r = false → s'.disk = s.disk) ∧ (r = true → ∃ slot, Removed s.disk name slot s'.disk)) := by
  have hsystem := hsound.system
  unfold remove
  apply (returns_fetchDirectory hsystem hmounted).bind
  intro d s₁ ⟨hs₁, hsize, hentry, hspare⟩
  cases hsound.find_cases hsize hentry name with
  | inr habsent =>
    rw [habsent.2, if_pos rfl, returns_pure]
    refine ⟨?_, fun _ => hs₁, nofun⟩
    simp only [Bool.false_eq_true, false_iff]
    intro ⟨i, hi, hmatches⟩
    exact habsent.1 i hi hmatches
  | inl hfound =>
    obtain ⟨i, hi, hmatches, hindex, hnonneg, hfind⟩ := hfound
    have hlt : (entryOf s.disk i).sector < numSectors :=
      (hsound.marked_of_mem (sector_mem_owns hi hmatches.1)).2.1
    have howns := owns_entry hi hmatches.1
    have hnodup := hsound.ownership.nodup (.entry i)
    rw [howns, List.nodup_cons] at hnodup
    rw [hfind, if_neg (by omega), returns_bind, returns_fetchHeader hnonneg hlt]
    apply (returns_fetchFreeMap (hs₁ ▸ hsystem) (hs₁ ▸ hmounted)).bind
    intro m s₂ ⟨hs₂, hbits, hbit⟩
    have hs := hs₂.trans hs₁
    rw [hs₁] at hbit
    have hmarks (a : Int) : m.Marks a ↔ Marked s.disk a := BitMap.marks_congr hbits hbit a
    have hall (a : Int) (ha : a ∈ (headerAt s.disk (entryOf s.disk i).sector.toNat).sectorList) : m.Marks a := by
      rw [hmarks]
      exact hsound.marked_of_mem (mem_owns_of_mem_sectorList hi hmatches.1 ha)
    rw [hs₁]
    apply (FileHeader.returns_deallocate_of_marks (hsound.file i hi hmatches.1) hnodup.2 hall).bind
    intro m₁ s₃ ⟨hs₃, hbits₁, hmarks₁⟩
    subst hs₃
    obtain ⟨n, hn⟩ := Int.eq_ofNat_of_zero_le hnonneg
    rw [hn, returns_bind, BitMap.returns_clear (by omega)]
    obtain ⟨_, hsize', hentry'⟩ := Directory.entry_remove hindex
    have hsystem₃ : System s₃.disk := by rwa [hs]
    have hmounted₃ : fs.Mounted s₃.disk := by rwa [hs]
    have hbits' : (m₁.clearBit n).numBits = numSectors := hbits₁.trans hbits
    apply Returns.writeFreeMap_writeDirectory hsystem₃ hmounted₃ (hsize'.trans hsize) hbits'
    intro s₄ hflushed
    rw [returns_pure]
    refine ⟨by simpa using ⟨i, hi, hmatches⟩, nofun, fun _ => ⟨i, ?_⟩⟩
    constructor
    case slot_lt => exact hi
    case found => exact hmatches
    case marked_iff =>
      intro a
      have hmarked : Marked s₄.disk a ↔ (m₁.clearBit n).Marks a := by
        apply BitMap.marks_congr hbits'.symm
        rw [hbits']
        exact hflushed.bit
      rw [hmarked, BitMap.marks_clearBit, hmarks₁, hmarks, howns, List.mem_cons, hn]
      simp only [not_or, ne_eq]
      constructor
      . intro ⟨⟨hold, hlist⟩, hne⟩
        exact ⟨hold, hne, hlist⟩
      . intro ⟨hold, hne, hlist⟩
        exact ⟨⟨hold, hlist⟩, hne⟩
    case entry =>
      intro j hj
      rw [hflushed.entry j hj, hentry']
      by_cases hji : j = i
      . rw [hji, Function.update_self, Function.update_self, hentry i hi]
      . rw [Function.update_of_ne hji, Function.update_of_ne hji, hentry j hj]
    case spare =>
      intro j hj
      rw [hflushed.spare j hj, Directory.spare_remove, hspare j hj]
    case frame =>
      have hframe := hflushed.frame
      rw [hs] at hframe
      exact hframe

end FileSystem

namespace Removed

variable {disk disk' : Nat → Buffer} {name : Name} {slot : Nat} (h : Removed disk name slot disk')

include h

theorem entry_slot : (entryOf disk' slot).inUse = false := by
  rw [h.entry slot h.slot_lt, Function.update_self]

theorem entry_of_ne {i : Nat} (hi : i < numDirEntries) (hne : i ≠ slot) : entryOf disk' i = entryOf disk i := by
  rw [h.entry i hi, Function.update_of_ne hne]

variable (hsound : Sound disk)

include hsound

theorem disk_eq {o : Owner} (ho : o ≠ .freeMap) (ho' : o ≠ .directory) {a : Int} (ha : a ∈ owns disk o)
    : disk' a.toNat = disk a.toNat := by
  have hnat : (a.toNat : Int) = a := Int.toNat_of_nonneg (hsound.marked_of_mem ha).1
  apply h.frame
  . rw [hnat]
    exact hsound.ownership.notMem_of_ne ho ha
  . rw [hnat]
    exact hsound.ownership.notMem_of_ne ho' ha

theorem freeMapSector_eq : disk' freeMapSector = disk freeMapSector :=
  h.disk_eq hsound (o := .boot) nofun nofun (freeMapSector_mem_boot disk)

theorem directorySector_eq : disk' directorySector = disk directorySector :=
  h.disk_eq hsound (o := .boot) nofun nofun (directorySector_mem_boot disk)

theorem header_eq {i : Nat} (hi : i < numDirEntries) (hinUse : (entryOf disk i).inUse = true)
    : headerAt disk' (entryOf disk i).sector.toNat = headerAt disk (entryOf disk i).sector.toNat :=
  headerAt_congr (h.disk_eq hsound (o := .entry i) nofun nofun (sector_mem_owns hi hinUse))

theorem owns_eq : owns disk' = update (owns disk) (.entry slot) [] := by
  apply owns_eq_update _ (h.freeMapSector_eq hsound) (h.directorySector_eq hsound) (fun _ => h.entry_of_ne)
    (fun _ => h.header_eq hsound)
  apply owns_entry_eq_nil
  intro ⟨_, hinUse⟩
  rw [h.entry_slot] at hinUse
  cases hinUse

theorem sound : Sound disk' := by
  have hsystem := hsound.system.congr (h.freeMapSector_eq hsound) (h.directorySector_eq hsound)
  have hused (i : Nat) (hi : i < numDirEntries) (hinUse : (entryOf disk' i).inUse = true)
      : (entryOf disk i).inUse = true ∧ (entryOf disk' i) = entryOf disk i := by
    have hne : i ≠ slot := by
      intro heq
      rw [heq, h.entry_slot] at hinUse
      cases hinUse
    have hentry := h.entry_of_ne hi hne
    rw [hentry] at hinUse
    exact ⟨hinUse, hentry⟩
  apply hsystem.sound
  case hfile =>
    intro i hi hinUse
    have ⟨hinUse', hentry⟩ := hused i hi hinUse
    rw [hentry, h.header_eq hsound hi hinUse']
    exact hsound.file i hi hinUse'
  case hownership =>
    rw [h.owns_eq hsound]
    exact hsound.ownership.give (.entry slot) h.marked_iff
  case hnames =>
    intro i j hi hj hinUse hinUse' hkey
    have ⟨hi', hentry⟩ := hused i hi hinUse
    have ⟨hj', hentry'⟩ := hused j hj hinUse'
    rw [hentry, hentry'] at hkey
    exact hsound.names i j hi hj hi' hj' hkey

end Removed

end Filesys

end Nachos
