import Nachos.Filesys.Consistency

/-!
This module contains what `Create` does to the disk: it fails and leaves the disk as it is, or it gives
free sectors to a new entry.
-/

namespace Nachos

namespace Filesys

open Function (update)
open SynchDisk (numSectors)
open FileHeader (Allocated)

def CanCreate (disk : Nat → Buffer) (name : Name) (size : Int) : Prop :=
  (∀ i, i < numDirEntries → ¬(entryOf disk i).Matches name) ∧
    (∃ i, i < numDirEntries ∧ (entryOf disk i).inUse = false) ∧
    1 + max 0 (divRoundUp size sectorSize) ≤ (freeMapOf disk).numClear

/--
What it has done then: `slot` is the new entry, and `n` the sector of the new header.
-/
structure Created (disk : Nat → Buffer) (name : Name) (size : Int) (slot n : Nat) (disk' : Nat → Buffer) : Prop where
  slot_lt : slot < numDirEntries
  unused : (entryOf disk slot).inUse = false
  absent : ∀ i, i < numDirEntries → ¬(entryOf disk i).Matches name
  lt : n < numSectors
  clear : (freeMapOf disk).bit n = false
  least : ∀ j, j < n → (freeMapOf disk).bit j = true
  allocated : ∃ m, Allocated ((freeMapOf disk).setBit n) size (headerAt disk' n) m ∧
    ∀ j, j < numSectors → (freeMapOf disk').bit j = m.bit j
  entry : ∀ i, i < numDirEntries →
    entryOf disk' i = update (entryOf disk) slot { inUse := true, sector := n, key := name.key } i
  spare : ∀ i, i < numDirEntries → spareOf disk' i = spareOf disk i
  frame : ∀ k : Nat, k ≠ n → (k : Int) ∉ owns disk .freeMap → (k : Int) ∉ owns disk .directory → disk' k = disk k

namespace FileSystem

open Exit

variable {fs : FileSystem} {s : Store}

theorem returns_flushNew (hsystem : System s.disk) (hmounted : fs.Mounted s.disk) (hdr : FileHeader) {d : Directory}
    {m : BitMap} (hsize : d.tableSize = numDirEntries) (hbits : m.numBits = numSectors) {n : Nat} (hn : n < numSectors)
    (hboot : (n : Int) ∉ owns s.disk .boot) (hfreeMap : (n : Int) ∉ owns s.disk .freeMap)
    (hdirectory : (n : Int) ∉ owns s.disk .directory)
    : Returns (do
        hdr.writeBack n
        d.writeBack fs.directoryFile
        m.writeBack fs.freeMapFile
        return true : FS Bool) s (fun r s' =>
        r = true ∧ headerAt s'.disk n = .ofBytes hdr.bytes ∧
        (∀ i, i < numDirEntries → entryOf s'.disk i = d.entry i) ∧
        (∀ i, i < numDirEntries → spareOf s'.disk i = d.spare i) ∧
        (∀ i, i < numSectors → (freeMapOf s'.disk).bit i = m.bit i) ∧
        ∀ k : Nat, k ≠ n → (k : Int) ∉ owns s.disk .freeMap → (k : Int) ∉ owns s.disk .directory →
          s'.disk k = s.disk k) := by
  unfold FileHeader.writeBack
  rw [returns_bind, returns_writeSector (by omega), Int.toNat_natCast]
  have hfreeMap₁ : update s.disk n hdr.bytes freeMapSector = s.disk freeMapSector := by
    apply Function.update_of_ne
    intro heq
    apply hboot
    rw [← heq]
    apply freeMapSector_mem_boot
  have hdirectory₁ : update s.disk n hdr.bytes directorySector = s.disk directorySector := by
    apply Function.update_of_ne
    intro heq
    apply hboot
    rw [← heq]
    apply directorySector_mem_boot
  apply Returns.writeDirectory_writeFreeMap (hsystem.congr hfreeMap₁ hdirectory₁) (hmounted.congr hfreeMap₁ hdirectory₁)
    hsize hbits
  intro s' hflushed
  have hframe := hflushed.frame
  rw [owns_freeMap_congr hfreeMap₁, owns_directory_congr hdirectory₁] at hframe
  dsimp only at hframe
  rw [returns_pure]
  refine ⟨rfl, ?_, hflushed.entry, hflushed.spare, hflushed.bit, ?_⟩
  . unfold headerAt
    rw [hframe n hfreeMap hdirectory, Function.update_self]
  . intro k hk hk' hk''
    rw [hframe k hk' hk'', Function.update_of_ne hk]

/--
What `Create` has before it allocates the data sectors: the name is in the directory `d`, and the header has the
sector `n`, which is marked in `m`.
-/
structure Reserved (disk : Nat → Buffer) (name : Name) (d : Directory) (m : BitMap) (slot n : Nat) : Prop where
  absent : ∀ i, i < numDirEntries → ¬(entryOf disk i).Matches name
  slot_lt : slot < numDirEntries
  unused : (entryOf disk slot).inUse = false
  lt : n < numSectors
  clear : (freeMapOf disk).bit n = false
  least : ∀ j, j < n → (freeMapOf disk).bit j = true
  tableSize : d.tableSize = numDirEntries
  entry : ∀ i, i < numDirEntries →
    d.entry i = update (entryOf disk) slot { inUse := true, sector := n, key := name.key } i
  spare : ∀ i, i < numDirEntries → d.spare i = spareOf disk i
  numBits : m.numBits = numSectors
  bit : ∀ j, j < numSectors → m.bit j = ((freeMapOf disk).setBit n).bit j

theorem Reserved.canCreate_iff {disk : Nat → Buffer} {name : Name} {d : Directory} {m : BitMap} {slot n : Nat}
    (h : Reserved disk name d m slot n) (size : Int)
    : CanCreate disk name size ↔ divRoundUp size sectorSize ≤ m.numClear := by
  have hbits : m.numBits = ((freeMapOf disk).setBit n).numBits := h.numBits
  have hnumClear := BitMap.numClear_setBit (m := freeMapOf disk) h.lt h.clear
  rw [← BitMap.numClear_congr hbits h.bit] at hnumClear
  constructor
  . intro hcan
    have := hcan.2.2
    omega
  . intro henough
    exact ⟨h.absent, ⟨slot, h.slot_lt, h.unused⟩, by omega⟩

def allocateNew (fs : FileSystem) (directory : Directory) (freeMap : BitMap) (sector initialSize : Int) : FS Bool := do
  let memory ← new
  let (success, hdr, freeMap) ← (FileHeader.ofBytes memory).allocate freeMap initialSize
  if !success then
    return false
  else
    hdr.writeBack sector
    directory.writeBack fs.directoryFile
    freeMap.writeBack fs.freeMapFile
    return true

theorem create_cases (hsound : Sound s.disk) (hmounted : fs.Mounted s.disk) (name : Name) (size : Int)
    : (∃ s', s'.disk = s.disk ∧ fs.create name size s = .ok (some false, s') ∧ ¬CanCreate s.disk name size) ∨
        ∃ d m slot n s', s'.disk = s.disk ∧ Reserved s.disk name d m slot n ∧
          fs.create name size s = fs.allocateNew d m n size s' := by
  have hsystem := hsound.system
  unfold create
  obtain ⟨d, s₁, ⟨hs₁, hdsize, hentry, hspare⟩, heq⟩ := (returns_fetchDirectory hsystem hmounted).bind_apply
  rw [heq]
  cases hsound.find_cases hdsize hentry name with
  | inl hfound =>
    obtain ⟨i, hi, hmatches, _, hnonneg, hfind⟩ := hfound
    rw [if_pos (by omega)]
    refine .inl ⟨s₁, hs₁, rfl, ?_⟩
    intro hcan
    exact hcan.1 i hi hmatches
  | inr habsent =>
    rw [if_neg (by omega)]
    obtain ⟨m, s₂, ⟨hs₂, hbits, hbit⟩, heq⟩ := (returns_fetchFreeMap (hs₁ ▸ hsystem) (hs₁ ▸ hmounted)).bind_apply
    rw [heq]
    rw [hs₁] at hbit
    have hs : s₂.disk = s.disk := hs₂.trans hs₁
    cases m.find_cases with
    | inr hfull =>
      simp only [hfull.2, if_true]
      refine .inl ⟨s₂, hs, rfl, ?_⟩
      intro hcan
      have hnumClear : m.numClear = (freeMapOf s.disk).numClear := BitMap.numClear_congr hbits hbit
      have hpos : 0 < m.numClear := by
        have := hcan.2.2
        omega
      obtain ⟨i, hi, hclear⟩ := BitMap.numClear_pos.1 hpos
      rw [hfull.1 i hi] at hclear
      cases hclear
    | inl hfree =>
      obtain ⟨n, hn, hclear, hleast, hfind⟩ := hfree
      simp only [hfind]
      rw [if_neg (by omega)]
      rw [hbits] at hn
      have hn' := numSectors_eq
      cases d.add_cases name (show -2 ^ 31 ≤ (n : Int) from by omega) (by omega) with
      | inl hfail =>
        simp only [hfail.1, Bool.not_false, if_true]
        refine .inl ⟨s₂, hs, rfl, ?_⟩
        intro hcan
        cases hfail.2 with
        | inl hfound =>
          obtain ⟨i, hi, hmatches⟩ := hfound
          rw [hdsize] at hi
          rw [hentry i hi] at hmatches
          exact habsent.1 i hi hmatches
        | inr hused =>
          obtain ⟨i, hi, hunused⟩ := hcan.2.1
          have := hused i (by rwa [hdsize])
          rw [hentry i hi, hunused] at this
          cases this
      | inr hadded =>
        obtain ⟨hadded, _, slot, hslot, hunused, hdsize', hentry'⟩ := hadded
        simp only [hadded, Bool.not_true, Bool.false_eq_true, if_false]
        rw [hdsize] at hslot
        refine .inr ⟨(d.add name n).2, m.setBit n, slot, n, s₂, hs, ?_, rfl⟩
        constructor
        case absent => exact habsent.1
        case slot_lt => exact hslot
        case unused =>
          rw [← hentry slot hslot]
          exact hunused
        case lt => exact hn
        case clear =>
          rw [← hbit n hn]
          exact hclear
        case least =>
          intro j hj
          rw [← hbit j (by omega)]
          exact hleast j hj
        case tableSize => exact hdsize'.trans hdsize
        case entry =>
          intro i hi
          rw [hentry']
          by_cases his : i = slot
          . rw [his, Function.update_self, Function.update_self]
          . rw [Function.update_of_ne his, Function.update_of_ne his, hentry i hi]
        case spare =>
          intro i hi
          rw [Directory.spare_add, hspare i hi]
        case numBits => exact hbits
        case bit =>
          intro j hj
          rw [BitMap.bit_setBit, BitMap.bit_setBit, hbit j hj]

theorem returns_allocateNew (hsound : Sound s.disk) (hmounted : fs.Mounted s.disk) {name : Name} {size : Int}
    {d : Directory} {m : BitMap} {slot n : Nat} (hreserved : Reserved s.disk name d m slot n) (hlower : -2 ^ 31 ≤ size)
    (hsize : size ≤ maxFileSize)
    : Returns (fs.allocateNew d m n size) s (fun r s' =>
        (r = true ↔ CanCreate s.disk name size) ∧ (r = false → s'.disk = s.disk) ∧
        (r = true → ∃ slot n, Created s.disk name size slot n s'.disk)) := by
  unfold allocateNew
  rw [returns_bind]
  apply Returns.new
  intro memory s₁ hs₁
  apply (FileHeader.returns_allocate hsize).bind
  rintro ⟨success, hdr, m'⟩ s₂ ⟨hs₂, hsuccess, _, hallocated⟩
  subst hs₂
  have hcan : success = true ↔ CanCreate s.disk name size := by
    rw [hsuccess, hreserved.canCreate_iff]
  cases success with
  | false =>
    simp only [Bool.not_false, if_true, returns_pure]
    exact ⟨hcan, fun _ => hs₁, by simp⟩
  | true =>
    simp only [Bool.not_true, Bool.false_eq_true, if_false]
    have hallocated : Allocated m size hdr m' := (hallocated rfl).1
    have hnot (o : Owner) : (n : Int) ∉ owns s₂.disk o := by
      rw [hs₁]
      exact hsound.notMem_of_clear hreserved.clear o
    have hflush := returns_flushNew (hs₁ ▸ hsound.system) (hs₁ ▸ hmounted) hdr hreserved.tableSize
      (hallocated.took.numBits.trans hreserved.numBits) hreserved.lt (hnot _) (hnot _) (hnot _)
    apply hflush.mono
    rintro r s₃ ⟨hr, hheader, hentry, hspare, hbit, hframe⟩
    rw [hs₁] at hframe
    subst hr
    refine ⟨hcan, by simp, fun _ => ⟨slot, n, ?_⟩⟩
    constructor
    case slot_lt => exact hreserved.slot_lt
    case unused => exact hreserved.unused
    case absent => exact hreserved.absent
    case lt => exact hreserved.lt
    case clear => exact hreserved.clear
    case least => exact hreserved.least
    case allocated =>
      refine ⟨m', ?_, hbit⟩
      rw [hheader]
      apply (hallocated.ofBytes_bytes _ hlower _).congr
      . exact hreserved.numBits.symm
      . intro j hj
        rw [hreserved.bit j (hreserved.numBits ▸ hj)]
      . rw [hreserved.numBits, numSectors_eq]
        omega
      . have := maxFileSize_eq
        omega
    case entry =>
      intro i hi
      rw [hentry i hi, hreserved.entry i hi]
    case spare =>
      intro i hi
      rw [hspare i hi, hreserved.spare i hi]
    case frame => exact hframe

theorem returns_create (hsound : Sound s.disk) (hmounted : fs.Mounted s.disk) (name : Name) {size : Int}
    (hlower : -2 ^ 31 ≤ size) (hsize : size ≤ maxFileSize)
    : Returns (fs.create name size) s (fun r s' =>
        (r = true ↔ CanCreate s.disk name size) ∧ (r = false → s'.disk = s.disk) ∧
        (r = true → ∃ slot n, Created s.disk name size slot n s'.disk)) := by
  cases create_cases hsound hmounted name size with
  | inl hfail =>
    obtain ⟨s', hs', hrun, hcannot⟩ := hfail
    refine ⟨false, s', hrun, ?_, fun _ => hs', nofun⟩
    simp only [Bool.false_eq_true, false_iff]
    exact hcannot
  | inr hrest =>
    obtain ⟨d, m, slot, n, s', hs', hreserved, hrun⟩ := hrest
    rw [← hs'] at hsound hmounted hreserved ⊢
    obtain ⟨r, s'', hrun', hr⟩ := returns_allocateNew hsound hmounted hreserved hlower hsize
    exact ⟨r, s'', hrun.trans hrun', hr⟩

end FileSystem

namespace Created

variable {disk disk' : Nat → Buffer} {name : Name} {size : Int} {slot n : Nat}
  (h : Created disk name size slot n disk')

include h

theorem entry_slot : entryOf disk' slot = { inUse := true, sector := n, key := name.key } := by
  rw [h.entry slot h.slot_lt, Function.update_self]

theorem entry_of_ne {i : Nat} (hi : i < numDirEntries) (hne : i ≠ slot) : entryOf disk' i = entryOf disk i := by
  rw [h.entry i hi, Function.update_of_ne hne]

theorem proper (hsize : size ≤ maxFileSize) : (headerAt disk' n).Proper := by
  obtain ⟨m, hallocated, _⟩ := h.allocated
  exact hallocated.proper hsize

theorem not_marked (hsize : size ≤ maxFileSize) {a : Int} (ha : a ∈ (n : Int) :: (headerAt disk' n).sectorList)
    : ¬Marked disk a := by
  obtain ⟨m, hallocated, _⟩ := h.allocated
  cases List.mem_cons.1 ha with
  | inl heq =>
    rw [heq]
    exact BitMap.not_marks_of_clear h.clear
  | inr hlist =>
    intro hmarked
    exact hallocated.not_marks hsize hlist ((BitMap.marks_setBit h.lt a).2 (.inl hmarked))

theorem nodup (hsize : size ≤ maxFileSize) : ((n : Int) :: (headerAt disk' n).sectorList).Nodup := by
  obtain ⟨m, hallocated, _⟩ := h.allocated
  apply List.nodup_cons.2
  constructor
  . intro hmem
    exact hallocated.not_marks hsize hmem ((BitMap.marks_setBit h.lt _).2 (.inr rfl))
  . exact hallocated.nodup hsize

theorem marked_iff (hsize : size ≤ maxFileSize) (a : Int)
    : Marked disk' a ↔ Marked disk a ∨ a ∈ (n : Int) :: (headerAt disk' n).sectorList := by
  obtain ⟨m, hallocated, hbit⟩ := h.allocated
  have hbits : m.numBits = numSectors := hallocated.took.numBits
  have hmarked : Marked disk' a ↔ m.Marks a := by
    apply BitMap.marks_congr hbits.symm
    rw [hbits]
    exact hbit
  rw [hmarked, hallocated.marks_iff hsize, BitMap.marks_setBit h.lt, List.mem_cons, or_assoc]
  rfl

theorem sector_eq {disk₁ disk₁' : Nat → Buffer} {name₁ : Name} {slot₁ n₁ : Nat}
    (h₁ : Created disk₁ name₁ size slot₁ n₁ disk₁')
    (hbit : ∀ j, j < numSectors → (freeMapOf disk₁).bit j = (freeMapOf disk).bit j) {i : Nat}
    (hi : i < (headerAt disk' n).blocks)
    : (headerAt disk₁' n₁).sector i = (headerAt disk' n).sector i := by
  obtain ⟨m, hallocated, _⟩ := h.allocated
  obtain ⟨m₁, hallocated₁, _⟩ := h₁.allocated
  have hn : n₁ = n := by
    apply Nat.le_antisymm
    . apply Nat.le_of_not_lt
      intro hlt
      have hset := h₁.least n hlt
      rw [hbit n h.lt, h.clear] at hset
      cases hset
    . apply Nat.le_of_not_lt
      intro hlt
      have hset := h.least n₁ hlt
      rw [← hbit n₁ h₁.lt, h₁.clear] at hset
      cases hset
  subst hn
  have hblocks : (headerAt disk₁' n₁).blocks = (headerAt disk' n₁).blocks := by
    unfold FileHeader.blocks
    rw [hallocated.numBytes, hallocated₁.numBytes]
  apply hallocated.took.sector_eq hallocated₁.took rfl _ hi (by rwa [hblocks])
  intro j hj
  rw [BitMap.bit_setBit, BitMap.bit_setBit, hbit j hj]

variable (hsound : Sound disk)

include hsound

theorem disk_eq {o : Owner} (ho : o ≠ .freeMap) (ho' : o ≠ .directory) {a : Int} (ha : a ∈ owns disk o)
    : disk' a.toNat = disk a.toNat := by
  have hnat : (a.toNat : Int) = a := Int.toNat_of_nonneg (hsound.marked_of_mem ha).1
  apply h.frame
  . intro heq
    rw [← hnat, heq] at ha
    exact hsound.notMem_of_clear h.clear o ha
  . rw [hnat]
    exact hsound.ownership.notMem_of_ne ho ha
  . rw [hnat]
    exact hsound.ownership.notMem_of_ne ho' ha

theorem freeMapSector_eq : disk' freeMapSector = disk freeMapSector :=
  h.disk_eq hsound (o := .boot) nofun nofun (freeMapSector_mem_boot disk)

theorem directorySector_eq : disk' directorySector = disk directorySector :=
  h.disk_eq hsound (o := .boot) nofun nofun (directorySector_mem_boot disk)

theorem header_eq {i : Nat} (hi : i < numDirEntries) (hinUse : (entryOf disk i).inUse = true)
    : headerAt disk' (entryOf disk i).sector.toNat = headerAt disk (entryOf disk i).sector.toNat :=
  headerAt_congr (h.disk_eq hsound (o := .entry i) nofun nofun (sector_mem_owns hi hinUse))

theorem owns_eq : owns disk' = update (owns disk) (.entry slot) ((n : Int) :: (headerAt disk' n).sectorList) := by
  apply owns_eq_update _ (h.freeMapSector_eq hsound) (h.directorySector_eq hsound) (fun _ => h.entry_of_ne)
    (fun _ => h.header_eq hsound)
  rw [owns_entry h.slot_lt (by rw [h.entry_slot]), h.entry_slot]
  rfl

theorem ownership (hsize : size ≤ maxFileSize) : Ownership (Marked disk') (owns disk') := by
  rw [h.owns_eq hsound]
  apply hsound.ownership.take _ (h.nodup hsize) _ (h.marked_iff hsize)
  . apply owns_entry_eq_nil
    intro ⟨_, hinUse⟩
    rw [h.unused] at hinUse
    cases hinUse
  . intro a ha
    exact h.not_marked hsize ha

theorem sound (hsize : size ≤ maxFileSize) : Sound disk' := by
  have hsystem := hsound.system.congr (h.freeMapSector_eq hsound) (h.directorySector_eq hsound)
  have hunused (i : Nat) (hi : i < numDirEntries) (hne : i ≠ slot) (hinUse : (entryOf disk' i).inUse = true)
      : (entryOf disk i).inUse = true ∧ (entryOf disk' i) = entryOf disk i := by
    have hentry := h.entry_of_ne hi hne
    rw [hentry] at hinUse
    exact ⟨hinUse, hentry⟩
  apply hsystem.sound
  case hfile =>
    intro i hi hinUse
    by_cases his : i = slot
    . rw [his, h.entry_slot]
      exact h.proper hsize
    . have ⟨hinUse', hentry⟩ := hunused i hi his hinUse
      rw [hentry, h.header_eq hsound hi hinUse']
      exact hsound.file i hi hinUse'
  case hownership => exact h.ownership hsound hsize
  case hnames =>
    intro i j hi hj hinUse hinUse' hkey
    by_cases his : i = slot
    . by_cases hjs : j = slot
      . rw [his, hjs]
      . have ⟨hused, hentry⟩ := hunused j hj hjs hinUse'
        rw [his, h.entry_slot, hentry] at hkey
        exact absurd ⟨hused, hkey.symm⟩ (h.absent j hj)
    . have ⟨hused, hentry⟩ := hunused i hi his hinUse
      by_cases hjs : j = slot
      . rw [hjs, h.entry_slot, hentry] at hkey
        exact absurd ⟨hused, hkey⟩ (h.absent i hi)
      . have ⟨hused', hentry'⟩ := hunused j hj hjs hinUse'
        rw [hentry, hentry'] at hkey
        exact hsound.names i j hi hj hused hused' hkey

end Created

end Filesys

end Nachos
