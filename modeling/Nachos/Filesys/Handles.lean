import Nachos.Filesys.Runs

/-!
This module contains what a program can reach through an open file. An `OpenFile` keeps the header that
was on the disk when the file was opened, whatever happens to the file later.
-/

namespace Nachos

namespace Filesys

namespace Session

open Function (update)
open Transition (Reachable Trace)

variable {w : Session} {h : Handle} {p k : Nat}

/-! ### The history of the bytes -/

theorem written_stamp {key : List (BitVec 8)} {offset : Nat}
    : (w.stamp h p k).written key offset = true ↔
        w.written key offset = true ∨ key = h.key ∧ p ≤ offset ∧ offset < p + k := by
  unfold stamp
  dsimp only
  by_cases hkey : key = h.key
  . subst hkey
    rw [Function.update_self]
    simp
  . rw [Function.update_of_ne hkey]
    simp [hkey]

theorem writer_stamp_of_mem {offset : Nat} (hlower : p ≤ offset) (hupper : offset < p + k)
    : (w.stamp h p k).writer (h.file.hdr.sector (offset / sectorSize)) (offset % sectorSize) = h.id := by
  unfold stamp
  dsimp only
  rw [if_pos]
  rw [List.any_eq_true]
  refine ⟨offset - p, List.mem_range.2 (by omega), ?_⟩
  rw [Nat.add_sub_cancel' hlower]
  simp

theorem writer_stamp_of_ne {n i : Nat}
    (hne : ∀ offset, p ≤ offset → offset < p + k →
      ¬(h.file.hdr.sector (offset / sectorSize) = n ∧ offset % sectorSize = i))
    : (w.stamp h p k).writer n i = w.writer n i := by
  unfold stamp
  dsimp only
  rw [if_neg]
  rw [List.any_eq_true]
  intro ⟨j, hj, heq⟩
  rw [List.mem_range] at hj
  apply hne (p + j) (by omega) (by omega)
  simpa using heq

/--
The bytes that have been written since their file was created have been written for this file.
-/
def Recorded (w : Session) : Prop :=
  ∀ key i id, Holds w.disk key i → w.current key = some id → ∀ offset : Nat, offset < (headerOf w.disk i).numBytes →
    w.written key offset = true →
    w.writer ((headerOf w.disk i).sector (offset / sectorSize)) (offset % sectorSize) = some id

theorem Recorded.of_disk_eq (hrecorded : Recorded w) {s : Store} (hdisk : s.disk = w.disk)
    : Recorded { w with store := s } := by
  unfold Recorded at hrecorded
  rw [← hdisk] at hrecorded
  exact hrecorded

theorem Recorded.create (hinv : Inv w) (hrecorded : Recorded w) {name : Name} {size : Int} {slot n : Nat} {s : Store}
    (hcreated : Created w.disk name size slot n s.disk)
    : Recorded
        { w with
          store := s
          current := update w.current name.key (some w.created)
          created := w.created + 1
          written := update w.written name.key fun _ => false } := by
  intro key i id hholds hcurrent offset hoffset hwritten
  dsimp only at hcurrent hwritten
  by_cases hkey : key = name.key
  . rw [hkey, Function.update_self] at hwritten
    cases hwritten
  . rw [Function.update_of_ne hkey] at hcurrent hwritten
    cases (holds_iff_of_created hcreated).1 hholds with
    | inl hold =>
      have hheader : headerOf s.disk i = headerOf w.disk i := headerOf_eq_of_created hinv.sound hcreated hold
      dsimp only [disk] at hoffset ⊢
      rw [hheader] at hoffset ⊢
      exact hrecorded key i id hold hcurrent offset hoffset hwritten
    | inr hnew => exact absurd hnew.2 hkey

theorem Recorded.remove (hinv : Inv w) (hrecorded : Recorded w) {name : Name} {slot : Nat} {s : Store}
    (hremoved : Removed w.disk name slot s.disk)
    : Recorded { w with store := s, current := update w.current name.key none } := by
  intro key i id hholds hcurrent offset hoffset hwritten
  dsimp only at hcurrent hwritten
  obtain ⟨hold, hkey⟩ := (holds_iff_of_removed hinv.sound hremoved).1 hholds
  rw [Function.update_of_ne hkey] at hcurrent
  have hheader : headerOf s.disk i = headerOf w.disk i := headerOf_eq_of_removed hinv.sound hremoved hold hkey
  dsimp only [disk] at hoffset ⊢
  rw [hheader] at hoffset ⊢
  exact hrecorded key i id hold hcurrent offset hoffset hwritten

theorem sector_ne_of_ne {disk : Nat → Buffer} (hsound : Sound disk) {key key' : List (BitVec 8)} {i j a b : Nat}
    (hi : Holds disk key i) (hj : Holds disk key' j) (hne : i ≠ j) (ha : a < (headerOf disk i).blocks)
    (hb : b < (headerOf disk j).blocks)
    : (headerOf disk i).sector a ≠ (headerOf disk j).sector b := by
  intro heq
  have hproper := hsound.file i hi.lt hi.inUse
  have hproper' := hsound.file j hj.lt hj.inUse
  have hmem := mem_owns_of_mem_sectorList hi.lt hi.inUse (hproper.mem_sectorList.2 ⟨a, ha, rfl⟩)
  have hmem' := mem_owns_of_mem_sectorList hj.lt hj.inUse (hproper'.mem_sectorList.2 ⟨b, hb, rfl⟩)
  have hnonneg := ((hsound.valid_file hi.lt hi.inUse).range a ha).1
  have hnonneg' := ((hsound.valid_file hj.lt hj.inUse).range b hb).1
  have hsector : (headerOf disk i).dataSectors a = (headerOf disk j).dataSectors b := by
    unfold FileHeader.sector at heq
    unfold headerOf at heq ⊢
    omega
  unfold headerOf at hsector
  rw [hsector] at hmem
  have howner := hsound.ownership.unique _ _ _ hmem hmem'
  cases howner
  exact hne rfl

theorem Recorded.write (hinv : Inv w) (hrecorded : Recorded w) {i : Nat} {source : Buffer} {s : Store}
    (hhandle : w.handles[i]? = some h) (hlive : w.Live h) (hrange : (p + k : Int) ≤ h.file.hdr.numBytes ∨ k = 0)
    (hwritten : h.file.hdr.Written source p k w.disk s.disk)
    : Recorded (({ w with store := s } : Session).stamp h p k) := by
  obtain ⟨j, hj, hhdr⟩ := hinv.holds_of_live hhandle hlive
  have hwritten' := hwritten
  rw [hhdr] at hwritten'
  have hkept := kept_of_written hinv.sound hj hwritten'
  intro key i' id hholds hcurrent offset hoffset hstamped
  have hold := (hkept.holds_iff hinv.sound).1 hholds
  have hheader : headerOf s.disk i' = headerOf w.disk i' := hkept.headerOf_eq hinv.sound hold.lt hold.inUse
  change offset < (headerOf s.disk i').numBytes at hoffset
  change Session.writer _ ((headerOf s.disk i').sector _) _ = _
  change w.current key = some id at hcurrent
  rw [hheader] at hoffset ⊢
  rw [written_stamp] at hstamped
  by_cases hkey : key = h.key
  . subst hkey
    have hij := hold.unique hinv.sound hj
    subst hij
    by_cases hin : p ≤ offset ∧ offset < p + k
    . rw [← hhdr, writer_stamp_of_mem hin.1 hin.2, ← hlive.2, hcurrent]
    . rw [writer_stamp_of_ne]
      . apply hrecorded _ i' id hold hcurrent offset hoffset
        cases hstamped with
        | inl hbefore => exact hbefore
        | inr hnow => exact absurd hnow.2 hin
      . intro offset' hlower hupper ⟨hsector, hmod⟩
        rw [hhdr] at hsector hrange
        have hvalid := hinv.sound.valid_file hold.lt hold.inUse
        have hblock := FileHeader.div_lt_blocks hoffset
        have hblock' : offset' / sectorSize < (headerOf w.disk i').blocks := FileHeader.div_lt_blocks (by omega)
        have hdiv : offset' / sectorSize = offset / sectorSize := by
          apply Classical.byContradiction
          intro hne
          exact hvalid.sector_ne hblock' hblock hne hsector
        rw [sectorSize_eq] at hdiv hmod
        omega
  . have hne : j ≠ i' := by
      intro heq
      rw [heq] at hj
      exact hkey (hold.key_eq.symm.trans hj.key_eq)
    rw [writer_stamp_of_ne]
    . apply hrecorded key i' id hold hcurrent offset hoffset
      cases hstamped with
      | inl hbefore => exact hbefore
      | inr hnow => exact absurd hnow.1 hkey
    . intro offset' hlower hupper ⟨hsector, _⟩
      rw [hhdr] at hsector hrange
      have hblock' : offset' / sectorSize < (headerOf w.disk j).blocks := FileHeader.div_lt_blocks (by omega)
      exact sector_ne_of_ne hinv.sound hj hold hne hblock' (FileHeader.div_lt_blocks hoffset) hsector

theorem transferred_le (hdr : FileHeader) (numBytes : Int) {position : Int} (hpos : 0 ≤ position)
    : (position.toNat + (hdr.transferred numBytes position).toNat : Int) ≤ hdr.numBytes ∨
        (hdr.transferred numBytes position).toNat = 0 := by
  unfold FileHeader.transferred
  split
  . exact .inr rfl
  . omega

theorem Recorded.outcome (hinv : Inv w) (hrecorded : Recorded w) {c : Call} {r : Result} {w' : Session}
    (houtcome : Outcome w c r w')
    : Recorded w' := by
  cases houtcome with
  | create hsize hcreated => exact hrecorded.create hinv hcreated
  | createFail hdisk hcannot => exact hrecorded.of_disk_eq hdisk
  | openFile hdisk hholds => exact hrecorded.of_disk_eq hdisk
  | openFail hdisk hnone => exact hrecorded.of_disk_eq hdisk
  | remove hremoved => exact hrecorded.remove hinv hremoved
  | removeFail hdisk hnone => exact hrecorded.of_disk_eq hdisk
  | mount hdisk hmounted => exact hrecorded.of_disk_eq hdisk
  | readAt hdisk hhandle hlive hpos hcount hbytes => exact hrecorded.of_disk_eq hdisk
  | writeAt hhandle hlive hpos hcount hwritten =>
    subst hcount
    exact hrecorded.write hinv hhandle hlive (transferred_le _ _ hpos) hwritten
  | read hdisk hhandle hlive hpos hover hcount hbytes => exact hrecorded.of_disk_eq hdisk
  | write hhandle hlive hpos hover hcount hwritten =>
    subst hcount
    exact hrecorded.write hinv hhandle hlive (transferred_le _ _ hpos) hwritten
  | seek => exact hrecorded
  | length hhandle => exact hrecorded
  | lengthNone hhandle => exact hrecorded

theorem Recorded.reachable (h : Reachable Start Step w) : Recorded w := by
  apply h.invariant
  . intro w hstart key i id _ hcurrent
    obtain ⟨s, fs, s', _, rfl⟩ := hstart
    cases hcurrent
  . intro w w' hreachable hrecorded ⟨c, r, hlegal, hrun⟩
    have hinv := Inv.reachable hreachable
    exact hrecorded.outcome hinv (hinv.outcome_of_run hlegal hrun)

/-! ### Transfers -/

def Covered (w : Session) (i : Nat) (numBytes : Int) (position : Handle → Int) : Prop :=
  ∀ h, w.handles[i]? = some h → ∀ j : Nat, j < h.file.hdr.transferred numBytes (position h) →
    w.written h.key ((position h).toNat + j) = true

def Careful (w : Session) : Call → Prop
  | .readAt i numBytes position => w.Covered i numBytes.toInt fun _ => position.toInt
  | .read i numBytes => w.Covered i numBytes.toInt fun h => h.file.seekPosition
  | _ => True

/--
The transfer leaves the other files, the free map and the directory alone, and every byte that it returns has been
written last for the file of `h`.
-/
structure Confined (w : Session) (h : Handle) (position : Int) (r : Result) (w' : Session) : Prop where
  other : ∀ key i, key ≠ h.key → Holds w.disk key i →
    Holds w'.disk key i ∧ headerOf w'.disk i = headerOf w.disk i ∧
      ∀ offset : Nat, offset < (headerOf w.disk i).numBytes →
        (headerOf w.disk i).byte w'.disk offset = (headerOf w.disk i).byte w.disk offset
  system : ∀ a, a ∈ owns w.disk .freeMap ∨ a ∈ owns w.disk .directory → w'.disk a.toNat = w.disk a.toNat
  own : ∀ count bytes, r = .data count bytes → ∀ j : Nat, j < count →
    bytes j = h.file.hdr.byte w.disk (position.toNat + j) ∧
      w.writer (h.file.hdr.sector ((position.toNat + j) / sectorSize)) ((position.toNat + j) % sectorSize) = h.id

theorem confined_of_read (hinv : Inv w) (hrecorded : Recorded w) {i : Nat} {numBytes position count : Int}
    {bytes : Buffer} {w' : Session} (hdisk : w'.disk = w.disk) (hhandle : w.handles[i]? = some h) (hlive : w.Live h)
    (hpos : 0 ≤ position) (hcount : count = h.file.hdr.transferred numBytes position)
    (hbytes : ∀ j : Nat, j < count → bytes j = h.file.hdr.byte w.disk (position.toNat + j))
    (hcovered : ∀ j : Nat, j < h.file.hdr.transferred numBytes position →
      w.written h.key (position.toNat + j) = true)
    : Confined w h position (.data count bytes) w' where
  other key i _ hholds := by
    rw [hdisk]
    exact ⟨hholds, rfl, fun _ _ => rfl⟩
  system a _ := by rw [hdisk]
  own count' bytes' heq j hj := by
    cases heq
    refine ⟨hbytes j hj, ?_⟩
    subst hcount
    obtain ⟨i', hholds, hhdr⟩ := hinv.holds_of_live hhandle hlive
    obtain ⟨id, hid⟩ := Option.isSome_iff_exists.1 hlive.1
    have hrange := transferred_le h.file.hdr numBytes hpos
    have hcurrent : w.current h.key = some id := by rw [hlive.2, hid]
    rw [hid, hhdr]
    apply hrecorded h.key i' id hholds hcurrent _ _ (hcovered j hj)
    rw [← hhdr]
    omega

theorem confined_of_write (hinv : Inv w) {i : Nat} {position count : Int} {source : Buffer} {w' : Session}
    (hhandle : w.handles[i]? = some h) (hlive : w.Live h)
    (hwritten : h.file.hdr.Written source p k w.disk w'.disk)
    : Confined w h position (.count count) w' := by
  obtain ⟨j, hj, hhdr⟩ := hinv.holds_of_live hhandle hlive
  rw [hhdr] at hwritten
  have hkept := kept_of_written hinv.sound hj hwritten
  constructor
  case other =>
    intro key i' hkey hholds
    refine ⟨(hkept.holds_iff hinv.sound).2 hholds, hkept.headerOf_eq hinv.sound hholds.lt hholds.inUse, ?_⟩
    intro offset hoffset
    apply hholds.byte_eq hinv.sound _ hoffset
    intro a ha
    apply disk_eq_of_written hinv.sound hj hwritten _ ha
    intro heq
    cases heq
    exact hkey (hholds.key_eq.symm.trans hj.key_eq)
  case system =>
    intro a ha
    cases ha with
    | inl hfreeMap => exact hkept.freeMap a hfreeMap
    | inr hdirectory => exact hkept.directory a hdirectory
  case own => nofun

/-! ### A file that is used after it was removed -/

theorem perform_writeAt {i : Nat} (source : Buffer) (numBytes position : Int32) (hhandle : w.handles[i]? = some h)
    (hvalid : h.file.hdr.Valid) (hpos : 0 ≤ position.toInt) (hover : position.toInt + numBytes.toInt < 2 ^ 31)
    : ∃ w', perform (.writeAt i source numBytes position) w =
          .ok (some (.count (h.file.hdr.transferred numBytes.toInt position.toInt)), w') ∧
        h.file.hdr.Written source position.toInt.toNat
          (h.file.hdr.transferred numBytes.toInt position.toInt).toNat w.disk w'.disk ∧
        w'.handles = w.handles := by
  have hreturns : Exit.Returns (perform (.writeAt i source numBytes position)) w (fun r w' =>
      r = .count (h.file.hdr.transferred numBytes.toInt position.toInt) ∧
      h.file.hdr.Written source position.toInt.toNat
        (h.file.hdr.transferred numBytes.toInt position.toInt).toNat w.disk w'.disk ∧
      w'.handles = w.handles) := by
    apply returns_handle hhandle
    apply (returns_call (f := fun _ => h.file.writeAt source numBytes.toInt position.toInt)
      (OpenFile.returns_writeAt hvalid source hpos hover)).bind
    intro count w' ⟨s, hw, hcount, hwritten⟩
    subst hw hcount
    exact ⟨_, _, rfl, rfl, hwritten, rfl⟩
  obtain ⟨r, w', hrun, hr, hwritten, hhandles⟩ := hreturns
  subst hr
  exact ⟨w', hrun, hwritten, hhandles⟩

theorem emptied {disk disk₁ disk₂ disk₃ : Nat → Buffer} (hformatted : Formatted disk) {name : Name} {size : Int}
    {slot n : Nat} (hsize : size ≤ maxFileSize) (hcreated : Created disk name size slot n disk₁)
    (hkept : Kept disk₁ disk₂) (hremoved : Removed disk₂ name slot disk₃)
    : (∀ a, Marked disk₃ a ↔ Marked disk a) ∧ ∀ i, i < numDirEntries → (entryOf disk₃ i).inUse = false := by
  have hsound₁ := hcreated.sound hformatted.sound hsize
  constructor
  . intro a
    rw [hremoved.marked_iff, hkept.marked_eq hsound₁, hkept.owns_eq hsound₁, hcreated.owns_eq hformatted.sound,
      Function.update_self, hcreated.marked_iff hsize]
    constructor
    . intro ⟨hmarked, hnotMem⟩
      cases hmarked with
      | inl hold => exact hold
      | inr hnew => exact absurd hnew hnotMem
    . intro hmarked
      refine ⟨.inl hmarked, ?_⟩
      intro hmem
      exact hcreated.not_marked hsize hmem hmarked
  . intro i hi
    by_cases hslot : i = slot
    . rw [hslot, hremoved.entry_slot]
    . rw [hremoved.entry_of_ne hi hslot, hkept.entryOf_eq hsound₁ hi, hcreated.entry_of_ne hi hslot]
      exact hformatted.empty i hi

theorem disk_eq_of_created {disk disk' : Nat → Buffer} (hsound : Sound disk) {name : Name} {size : Int} {slot n : Nat}
    (hsize : size ≤ maxFileSize) (h : Created disk name size slot n disk') {i : Nat} (hi : i < (headerAt disk' n).blocks)
    : disk' ((headerAt disk' n).sector i) = disk ((headerAt disk' n).sector i) := by
  have hproper := h.proper hsize
  have hmem := hproper.mem_sectorList.2 ⟨i, hi, rfl⟩
  have hnotMarked := h.not_marked hsize (List.mem_cons_of_mem _ hmem)
  have hnodup := h.nodup hsize
  rw [List.nodup_cons] at hnodup
  have hsector : ((headerAt disk' n).sector i : Int) = (headerAt disk' n).dataSectors i := by
    obtain ⟨m, hallocated, _⟩ := h.allocated
    exact Int.toNat_of_nonneg (hallocated.took.nonneg i hi)
  apply h.frame
  . intro heq
    rw [heq] at hsector
    rw [← hsector] at hmem
    exact hnodup.1 hmem
  . rw [hsector]
    intro hfreeMap
    exact hnotMarked (hsound.marked_of_mem hfreeMap)
  . rw [hsector]
    intro hdirectory
    exact hnotMarked (hsound.marked_of_mem hdirectory)

theorem reused {disk disk₁ disk₂ disk₃ disk₄ : Nat → Buffer} (hformatted : Formatted disk) {name name' : Name}
    {size : Int} {slot n slot' n' : Nat} (hsize : size ≤ maxFileSize) (hcreated : Created disk name size slot n disk₁)
    (hkept : Kept disk₁ disk₂) (hremoved : Removed disk₂ name slot disk₃)
    (hcreated' : Created disk₃ name' size slot' n' disk₄) {i : Nat} (hi : i < (headerAt disk₁ n).blocks)
    : (headerAt disk₄ n').sector i = (headerAt disk₁ n).sector i ∧
        disk₄ ((headerAt disk₁ n).sector i) = disk₂ ((headerAt disk₁ n).sector i) := by
  obtain ⟨hmarked, _⟩ := emptied hformatted hsize hcreated hkept hremoved
  have hsector := hcreated.sector_eq hcreated' (bit_eq_of_marked hmarked) hi
  refine ⟨hsector, ?_⟩
  have hsound₁ := hcreated.sound hformatted.sound hsize
  have hsound₂ := hkept.sound hsound₁
  have hholds₁ : Holds disk₁ name.key slot := (holds_iff_of_created hcreated).2 (.inr ⟨rfl, rfl⟩)
  have hholds₂ := (hkept.holds_iff hsound₁).2 hholds₁
  have hheader : headerAt disk₁ n = headerOf disk₂ slot := by
    rw [hkept.headerOf_eq hsound₁ hholds₁.lt hholds₁.inUse, headerOf, hcreated.entry_slot]
    rfl
  have hblocks' : i < (headerAt disk₄ n').blocks := by
    obtain ⟨m, hallocated, _⟩ := hcreated.allocated
    obtain ⟨m', hallocated', _⟩ := hcreated'.allocated
    unfold FileHeader.blocks at hi ⊢
    rwa [hallocated'.numBytes, ← hallocated.numBytes]
  have hcreate := disk_eq_of_created (hremoved.sound hsound₂) hsize hcreated' hblocks'
  rw [hsector] at hcreate
  rw [hcreate, hheader]
  have hproper := hsound₂.file slot hholds₂.lt hholds₂.inUse
  rw [hheader] at hi
  have hmem := mem_owns_of_mem_sectorList hholds₂.lt hholds₂.inUse (hproper.mem_sectorList.2 ⟨i, hi, rfl⟩)
  exact hremoved.disk_eq hsound₂ (o := .entry slot) (by simp) (by simp) hmem

theorem removed_file_reaches_new_file
    : ∃ (a b : Name) (w₀ w w' w'' : Session) (i : Nat) (bytes : Buffer), a.key ≠ b.key ∧ Start w₀ ∧
        Trace (fun w e w' => perform e.1 w = .ok (some e.2, w')) w₀
          [(.create a 128, .success true), (.openFile a, .handle (some 0)), (.writeAt 0 (fun _ => 1) 1 0, .count 1),
            (.remove a, .success true), (.create b 128, .success true), (.openFile b, .handle (some 1))] w ∧
        Holds w.disk b.key i ∧ (headerOf w.disk i).byte w.disk 0 = 1 ∧
        perform (.readAt 1 1 0) w = .ok (some (.data 1 bytes), w') ∧ bytes 0 = 1 ∧
        perform (.writeAt 0 (fun _ => 2) 1 0) w = .ok (some (.count 1), w'') ∧
        (headerOf w.disk i).byte w''.disk 0 = 2 := by
  -- The new file gets the sectors of the file that was removed. They still have the bytes of the old file,
  -- and who has the old file open writes to the new one.
  obtain ⟨fs, s₀, hformat, _⟩ := FileSystem.returns_format (s := { disk := fun _ _ => 0, memory := fun _ _ => 0 })
  obtain ⟨w₀, hstart, hnone⟩ : ∃ w₀, Start w₀ ∧ w₀.handles = [] := ⟨_, ⟨_, fs, s₀, hformat, rfl⟩, rfl⟩
  have hformatted := hstart.formatted
  have hinv₀ := Inv.start hstart
  have hsize : (128 : Int32).toInt ≤ maxFileSize := by decide
  have hround : max 0 (divRoundUp (128 : Int32).toInt sectorSize) < 1019 := by decide
  have hpos : 0 ≤ (0 : Int32).toInt := by decide
  have hover : (0 : Int32).toInt + (1 : Int32).toInt < 2 ^ 31 := by decide
  -- `Create`, `Open` and `WriteAt` for the old file
  have hcan := canCreate_of_empty hformatted (fun _ => Iff.rfl) hformatted.empty ⟨[97], by decide⟩ hround
  obtain ⟨w₁, slot, n, hrun₁, hinv₁, hcreated, hhandles₁⟩ := hinv₀.perform_create hsize hcan
  have hholds₁ := (holds_iff_of_created hcreated).2 (.inr ⟨rfl, rfl⟩)
  obtain ⟨w₂, h, hrun₂, hinv₂, hdisk₂, hhandles₂, hlive, hhdr⟩ := hinv₁.perform_openFile hholds₁
  rw [hhandles₁, hnone] at hrun₂ hhandles₂
  have hhandle₂ : w₂.handles[0]? = some h := by rw [hhandles₂]; rfl
  have hvalid := hinv₂.valid_of_live hhandle₂ hlive
  obtain ⟨w₃, hrun₃, hwritten₃, hhandles₃⟩ :=
    perform_writeAt (fun _ => 1) 1 0 hhandle₂ hvalid hpos hover
  have hinv₃ := hinv₂.step ⟨.writeAt 0 (fun _ => 1) 1 0, _, ⟨h, hhandle₂, hlive, hpos, hover⟩, hrun₃⟩
  have hwritten := hwritten₃
  rw [hdisk₂, hhdr] at hwritten
  have hkept := kept_of_written hinv₁.sound hholds₁ hwritten
  -- `Remove` of the old file
  have hholds₃ := (hkept.holds_iff hinv₁.sound).2 hholds₁
  obtain ⟨w₄, hrun₄, hinv₄, hremoved, hhandles₄⟩ := hinv₃.perform_remove hholds₃
  obtain ⟨hmarked, hempty⟩ := emptied hformatted hsize hcreated hkept hremoved
  -- `Create` and `Open` for the new file
  have hcan' := canCreate_of_empty hformatted hmarked hempty ⟨[98], by decide⟩ hround
  obtain ⟨w₅, slot', n', hrun₅, hinv₅, hcreated', hhandles₅⟩ := hinv₄.perform_create hsize hcan'
  have hholds₅ := (holds_iff_of_created hcreated').2 (.inr ⟨rfl, rfl⟩)
  obtain ⟨w₆, h', hrun₆, hinv₆, hdisk₆, hhandles₆, hlive', hhdr'⟩ := hinv₅.perform_openFile hholds₅
  rw [hhandles₅, hhandles₄, hhandles₃, hhandles₂] at hrun₆ hhandles₆
  have hhandle₆ : w₆.handles[0]? = some h := by rw [hhandles₆]; rfl
  have hhandle₆' : w₆.handles[1]? = some h' := by rw [hhandles₆]; rfl
  -- Both files have one sector, and it is the same one.
  have hheader : h.file.hdr = headerAt w₁.disk n := by
    rw [hhdr, headerOf, hcreated.entry_slot]
    rfl
  have hheader' : h'.file.hdr = headerAt w₅.disk n' := by
    rw [hhdr', headerOf, hcreated'.entry_slot]
    rfl
  have hlength : h.file.hdr.numBytes = 128 := by
    obtain ⟨m, hallocated, _⟩ := hcreated.allocated
    rw [hheader]
    exact hallocated.numBytes
  have hlength' : h'.file.hdr.numBytes = 128 := by
    obtain ⟨m, hallocated, _⟩ := hcreated'.allocated
    rw [hheader']
    exact hallocated.numBytes
  have hone : h.file.hdr.transferred (1 : Int32).toInt (0 : Int32).toInt = 1 := by
    rw [FileHeader.transferred, hlength]
    decide
  have hone' : h'.file.hdr.transferred (1 : Int32).toInt (0 : Int32).toInt = 1 := by
    rw [FileHeader.transferred, hlength']
    decide
  have hblocks : 0 < (headerAt w₁.disk n).blocks := by
    rw [← hheader, FileHeader.blocks_of_natCast hlength]
    decide
  obtain ⟨hsector, hremains⟩ := reused hformatted hsize hcreated hkept hremoved hcreated' hblocks
  rw [← hheader, ← hheader'] at hsector
  rw [← hheader, ← hdisk₆] at hremains
  have hbyte (disk : Nat → Buffer) : h'.file.hdr.byte disk 0 = h.file.hdr.byte disk 0 := by
    unfold FileHeader.byte
    rw [Nat.zero_div, hsector]
  have hfirst (source : Buffer) (disk disk' : Nat → Buffer)
      (hwritten : h.file.hdr.Written source (0 : Int32).toInt.toNat
        (h.file.hdr.transferred (1 : Int32).toInt (0 : Int32).toInt).toNat disk disk')
      : h.file.hdr.byte disk' 0 = source 0 := by
    rw [hone] at hwritten
    rw [hwritten.byte 0 (by omega)]
    rfl
  have hbefore : h'.file.hdr.byte w₆.disk 0 = 1 := by
    have hbefore₃ := hfirst _ _ _ hwritten₃
    rw [hbyte]
    unfold FileHeader.byte at hbefore₃ ⊢
    rw [Nat.zero_div] at hbefore₃ ⊢
    rw [hremains, hbefore₃]
  -- `ReadAt` of the new file, and `WriteAt` of the old one
  obtain ⟨w₇, bytes, hrun₇, hbytes⟩ := hinv₆.perform_readAt hhandle₆' hlive' hpos hover
  obtain ⟨w₈, hrun₈, hwritten₈, _⟩ := perform_writeAt (fun _ => 2) 1 0 hhandle₆ hvalid hpos hover
  rw [hone'] at hrun₇ hbytes
  have hafter := hfirst _ _ _ hwritten₈
  rw [hone] at hrun₃ hrun₈
  have hheader₆ : headerOf w₆.disk slot' = h'.file.hdr := by rw [hhdr', hdisk₆]
  rw [← hdisk₆] at hholds₅
  refine ⟨⟨[97], by decide⟩, ⟨[98], by decide⟩, w₀, w₆, w₇, w₈, slot', bytes, by decide, hstart,
    (((((Trace.nil.snoc hrun₁).snoc hrun₂).snoc hrun₃).snoc hrun₄).snoc hrun₅).snoc hrun₆, hholds₅, ?_, hrun₇, ?_,
    hrun₈, ?_⟩
  . rw [hheader₆, hbefore]
  . rw [hbytes 0 (by decide)]
    exact hbefore
  . rw [hheader₆, hbyte, hafter]

/-! ### Files that are there -/

theorem confined_of_reachable (hreachable : Reachable Start Step w) {c : Call} (hlegal : w.Legal c)
    (hcareful : w.Careful c) {i : Nat} {position : Handle → Int} (hthrough : c.through = some (i, position))
    : ∃ r w' h, perform c w = .ok (some r, w') ∧ w.handles[i]? = some h ∧ w.Confined h (position h) r w' := by
  have hinv := Inv.reachable hreachable
  have hrecorded := Recorded.reachable hreachable
  obtain ⟨r, w', hrun, houtcome⟩ := hinv.returns_perform hlegal
  refine ⟨r, w', ?_⟩
  cases houtcome with
  | readAt hdisk hhandle hlive hpos hcount hbytes =>
    cases hthrough
    exact ⟨_, hrun, hhandle,
      confined_of_read hinv hrecorded hdisk hhandle hlive hpos hcount hbytes (hcareful _ hhandle)⟩
  | writeAt hhandle hlive hpos hcount hwritten =>
    cases hthrough
    exact ⟨_, hrun, hhandle, confined_of_write hinv hhandle hlive hwritten⟩
  | read hdisk hhandle hlive hpos hover hcount hbytes =>
    cases hthrough
    exact ⟨_, hrun, hhandle,
      confined_of_read hinv hrecorded hdisk hhandle hlive hpos hcount hbytes (hcareful _ hhandle)⟩
  | write hhandle hlive hpos hover hcount hwritten =>
    cases hthrough
    exact ⟨_, hrun, hhandle, confined_of_write hinv hhandle hlive hwritten⟩
  | create => cases hthrough
  | createFail => cases hthrough
  | openFile => cases hthrough
  | openFail => cases hthrough
  | remove => cases hthrough
  | removeFail => cases hthrough
  | mount => cases hthrough
  | seek => cases hthrough
  | length => cases hthrough
  | lengthNone => cases hthrough

theorem confined_writeAt
    : ∃ w r w' h, Reachable Start Step w ∧ perform (.writeAt 0 (fun _ => 1) 1 0) w = .ok (some r, w') ∧
        w.handles[0]? = some h ∧ w.Confined h 0 r w' := by
  obtain ⟨fs, s₀, hformat, _⟩ := FileSystem.returns_format (s := { disk := fun _ _ => 0, memory := fun _ _ => 0 })
  obtain ⟨w₀, hstart, hnone⟩ : ∃ w₀, Start w₀ ∧ w₀.handles = [] := ⟨_, ⟨_, fs, s₀, hformat, rfl⟩, rfl⟩
  have hformatted := hstart.formatted
  have hsize : (128 : Int32).toInt ≤ maxFileSize := by decide
  have hpos : 0 ≤ (0 : Int32).toInt := by decide
  have hover : (0 : Int32).toInt + (1 : Int32).toInt < 2 ^ 31 := by decide
  have hround : max 0 (divRoundUp (128 : Int32).toInt sectorSize) < 1019 := by decide
  have hcan := canCreate_of_empty hformatted (fun _ => Iff.rfl) hformatted.empty ⟨[97], by decide⟩ hround
  obtain ⟨w₁, slot, n, hrun₁, hinv₁, hcreated, hhandles₁⟩ := (Inv.start hstart).perform_create hsize hcan
  have hreachable₁ := (Reachable.init hstart).tail (show Step w₀ w₁ from ⟨.create _ _, _, hsize, hrun₁⟩)
  obtain ⟨w₂, h, hrun₂, _, _, hhandles₂, hlive, _⟩ :=
    hinv₁.perform_openFile ((holds_iff_of_created hcreated).2 (.inr ⟨rfl, rfl⟩))
  have hreachable₂ := hreachable₁.tail (show Step w₁ w₂ from ⟨.openFile _, _, trivial, hrun₂⟩)
  have hhandle : w₂.handles[0]? = some h := by
    rw [hhandles₂, hhandles₁, hnone]
    rfl
  obtain ⟨r, w', h', hrun, hhandle', hconfined⟩ :=
    confined_of_reachable hreachable₂ (c := .writeAt 0 (fun _ => 1) 1 0) ⟨h, hhandle, hlive, hpos, hover⟩ trivial rfl
  exact ⟨w₂, r, w', h', hreachable₂, hrun, hhandle', hconfined⟩

end Session

end Filesys

end Nachos
