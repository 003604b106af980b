import Nachos.Lib.Transition
import Nachos.Filesys.Session
import Nachos.Filesys.Create
import Nachos.Filesys.Format

/-!
This module contains what a call of a program can do to the disk and to its open files, and the invariant
that holds between the calls.
-/

namespace Nachos

namespace Filesys

namespace Session

open Function (update)

def headerOf (disk : Nat → Buffer) (i : Nat) : FileHeader :=
  headerAt disk (entryOf disk i).sector.toNat

structure Holds (disk : Nat → Buffer) (key : List (BitVec 8)) (i : Nat) : Prop where
  lt : i < numDirEntries
  inUse : (entryOf disk i).inUse = true
  key_eq : (entryOf disk i).key = key

theorem Holds.byte_eq {disk disk' : Nat → Buffer} {key : List (BitVec 8)} {i : Nat} (hsound : Sound disk)
    (hholds : Holds disk key i) (hdisk : ∀ a, a ∈ owns disk (.entry i) → disk' a.toNat = disk a.toNat) {offset : Nat}
    (hoffset : offset < (headerOf disk i).numBytes)
    : (headerOf disk i).byte disk' offset = (headerOf disk i).byte disk offset := by
  apply FileHeader.byte_congr (hsound.file i hholds.lt hholds.inUse) _ hoffset
  intro a ha
  exact hdisk a (mem_owns_of_mem_sectorList hholds.lt hholds.inUse ha)

structure Inv (w : Session) : Prop where
  sound : Sound w.disk
  mounted : w.fs.Mounted w.disk
  current_iff : ∀ key, (w.current key).isSome = true ↔ ∃ i, Holds w.disk key i
  current_lt : ∀ key id, w.current key = some id → id < w.created
  handle : ∀ h, h ∈ w.handles → w.Live h → ∃ i, Holds w.disk h.key i ∧ h.file.hdr = headerOf w.disk i
  handle_lt : ∀ h, h ∈ w.handles → ∀ id, h.id = some id → id < w.created
  seek_range : ∀ h, h ∈ w.handles → -2 ^ 31 ≤ h.file.seekPosition ∧ h.file.seekPosition < 2 ^ 31

inductive Outcome (w : Session) : Call → Result → Session → Prop where
  | create {name : Name} {size : Int32} {slot n : Nat} {s : Store} (hsize : size.toInt ≤ maxFileSize)
    (h : Created w.disk name size.toInt slot n s.disk)
    : Outcome w (.create name size) (.success true)
        { w with
          store := s
          current := update w.current name.key (some w.created)
          created := w.created + 1
          written := update w.written name.key fun _ => false }
  | createFail {name : Name} {size : Int32} {s : Store} (hdisk : s.disk = w.disk)
    (h : ¬CanCreate w.disk name size.toInt)
    : Outcome w (.create name size) (.success false) { w with store := s }
  | openFile {name : Name} {i : Nat} {s : Store} (hdisk : s.disk = w.disk) (h : Holds w.disk name.key i)
    : Outcome w (.openFile name) (.handle (some w.handles.length))
        { w with
          store := s
          handles := w.handles ++ [
            { file := { hdr := headerOf w.disk i, seekPosition := 0 }, key := name.key, id := w.current name.key }] }
  | openFail {name : Name} {s : Store} (hdisk : s.disk = w.disk) (h : ∀ i, ¬Holds w.disk name.key i)
    : Outcome w (.openFile name) (.handle none) { w with store := s }
  | remove {name : Name} {slot : Nat} {s : Store} (h : Removed w.disk name slot s.disk)
    : Outcome w (.remove name) (.success true)
        { w with store := s, current := update w.current name.key none }
  | removeFail {name : Name} {s : Store} (hdisk : s.disk = w.disk) (h : ∀ i, ¬Holds w.disk name.key i)
    : Outcome w (.remove name) (.success false) { w with store := s }
  | mount {fs : FileSystem} {s : Store} (hdisk : s.disk = w.disk) (h : fs.Mounted w.disk)
    : Outcome w .mount .none { w with store := s, fs }
  | readAt {i : Nat} {numBytes position : Int32} {h : Handle} {count : Int} {bytes : Buffer} {s : Store}
    (hdisk : s.disk = w.disk) (hhandle : w.handles[i]? = some h) (hlive : w.Live h) (hpos : 0 ≤ position.toInt)
    (hcount : count = h.file.hdr.transferred numBytes.toInt position.toInt)
    (hbytes : ∀ j : Nat, j < count → bytes j = h.file.hdr.byte w.disk (position.toInt.toNat + j))
    : Outcome w (.readAt i numBytes position) (.data count bytes) { w with store := s }
  | writeAt {i : Nat} {source : Buffer} {numBytes position : Int32} {h : Handle} {count : Int} {s : Store}
    (hhandle : w.handles[i]? = some h) (hlive : w.Live h) (hpos : 0 ≤ position.toInt)
    (hcount : count = h.file.hdr.transferred numBytes.toInt position.toInt)
    (hwritten : h.file.hdr.Written source position.toInt.toNat count.toNat w.disk s.disk)
    : Outcome w (.writeAt i source numBytes position) (.count count)
        (({ w with store := s } : Session).stamp h position.toInt.toNat count.toNat)
  | read {i : Nat} {numBytes : Int32} {h : Handle} {count : Int} {bytes : Buffer} {s : Store}
    (hdisk : s.disk = w.disk) (hhandle : w.handles[i]? = some h) (hlive : w.Live h)
    (hpos : 0 ≤ h.file.seekPosition) (hover : h.file.seekPosition + numBytes.toInt < 2 ^ 31)
    (hcount : count = h.file.hdr.transferred numBytes.toInt h.file.seekPosition)
    (hbytes : ∀ j : Nat, j < count → bytes j = h.file.hdr.byte w.disk (h.file.seekPosition.toNat + j))
    : Outcome w (.read i numBytes) (.data count bytes)
        (({ w with store := s } : Session).seekTo i (h.file.seekPosition + count))
  | write {i : Nat} {source : Buffer} {numBytes : Int32} {h : Handle} {count : Int} {s : Store}
    (hhandle : w.handles[i]? = some h) (hlive : w.Live h)
    (hpos : 0 ≤ h.file.seekPosition) (hover : h.file.seekPosition + numBytes.toInt < 2 ^ 31)
    (hcount : count = h.file.hdr.transferred numBytes.toInt h.file.seekPosition)
    (hwritten : h.file.hdr.Written source h.file.seekPosition.toNat count.toNat w.disk s.disk)
    : Outcome w (.write i source numBytes) (.count count)
        ((({ w with store := s } : Session).stamp h h.file.seekPosition.toNat count.toNat).seekTo i
          (h.file.seekPosition + count))
  | seek {i : Nat} {position : Int32} : Outcome w (.seek i position) .none (w.seekTo i position.toInt)
  | length {i : Nat} {h : Handle} (hhandle : w.handles[i]? = some h)
    : Outcome w (.length i) (.count h.file.length) w
  | lengthNone {i : Nat} (hhandle : w.handles[i]? = none) : Outcome w (.length i) .none w

open Exit

variable {w : Session}

theorem returns_call {f : FileSystem → FS α} {value : α → Store → Prop} (h : Returns (f w.fs) w.store value)
    : Returns (call f) w (fun a w' => ∃ s, w' = { w with store := s } ∧ value a s) := by
  obtain ⟨a, s, hrun, hvalue⟩ := h
  refine ⟨a, { w with store := s }, ?_, s, rfl, hvalue⟩
  unfold call
  rw [hrun]

theorem Inv.holds_of_live (hinv : Inv w) {i : Nat} {h : Handle} (hhandle : w.handles[i]? = some h) (hlive : w.Live h)
    : ∃ j, Holds w.disk h.key j ∧ h.file.hdr = headerOf w.disk j :=
  hinv.handle h (List.mem_of_getElem? hhandle) hlive

theorem Inv.valid_of_live (hinv : Inv w) {i : Nat} {h : Handle} (hhandle : w.handles[i]? = some h) (hlive : w.Live h)
    : h.file.hdr.Valid := by
  obtain ⟨j, hholds, hhdr⟩ := hinv.holds_of_live hhandle hlive
  rw [hhdr]
  exact hinv.sound.valid_file hholds.lt hholds.inUse

theorem returns_handle {i : Nat} {h : Handle} (hhandle : w.handles[i]? = some h) {f : Option Handle → Run α}
    {value : α → Session → Prop} (hrest : Returns (f (some h)) w value)
    : Returns (Exit.read (fun w => w.handles[i]?) >>= f) w value := by
  rw [returns_bind, returns_read, hhandle]
  exact hrest

theorem matches_iff {disk : Nat → Buffer} {name : Name}
    : (∃ i, i < numDirEntries ∧ (entryOf disk i).Matches name) ↔ ∃ i, Holds disk name.key i := by
  constructor
  . intro ⟨i, hi, hmatches⟩
    exact ⟨i, hi, hmatches.1, hmatches.2⟩
  . intro ⟨i, hholds⟩
    exact ⟨i, hholds.lt, hholds.inUse, hholds.key_eq⟩

theorem Inv.returns_perform (hinv : Inv w) {c : Call} (hlegal : w.Legal c) : Returns (perform c) w (Outcome w c) := by
  cases c with
  | create name size =>
    have hlower := size.le_toInt
    apply (returns_call (f := fun fs => fs.create name size.toInt)
      (FileSystem.returns_create hinv.sound hinv.mounted name hlower hlegal)).bind
    intro success w' ⟨s, hw, hcan, hfalse, htrue⟩
    subst hw
    cases success with
    | false =>
      refine ⟨_, _, rfl, .createFail (hfalse rfl) ?_⟩
      intro hcan'
      have hfalse := hcan.2 hcan'
      cases hfalse
    | true =>
      obtain ⟨slot, n, hcreated⟩ := htrue rfl
      exact ⟨_, _, rfl, .create hlegal hcreated⟩
  | openFile name =>
    apply (returns_call (f := fun fs => fs.openFile name)
      (FileSystem.returns_openFile hinv.sound hinv.mounted name)).bind
    intro file w' ⟨s, hw, hdisk, hcases⟩
    subst hw
    cases hcases with
    | inl hnone =>
      rw [hnone.1]
      refine ⟨_, _, rfl, .openFail hdisk ?_⟩
      intro i hholds
      exact hnone.2 i hholds.lt ⟨hholds.inUse, hholds.key_eq⟩
    | inr hsome =>
      obtain ⟨i, hi, hmatches, hfile⟩ := hsome
      rw [hfile]
      exact ⟨_, _, rfl, .openFile hdisk ⟨hi, hmatches.1, hmatches.2⟩⟩
  | remove name =>
    apply (returns_call (f := fun fs => fs.remove name)
      (FileSystem.returns_remove hinv.sound hinv.mounted name)).bind
    intro success w' ⟨s, hw, hfound, hfalse, htrue⟩
    subst hw
    cases success with
    | false =>
      refine ⟨_, _, rfl, .removeFail (hfalse rfl) ?_⟩
      intro i hholds
      have hfalse := hfound.2 (matches_iff.2 ⟨i, hholds⟩)
      cases hfalse
    | true =>
      obtain ⟨slot, hremoved⟩ := htrue rfl
      exact ⟨_, _, rfl, .remove hremoved⟩
  | mount =>
    have hmount : Returns FileSystem.mount w.store (fun fs s => s.disk = w.disk ∧ fs.Mounted w.disk) := by
      rw [FileSystem.returns_mount]
      exact ⟨rfl, rfl, rfl⟩
    apply (returns_call (f := fun _ => FileSystem.mount) hmount).bind
    intro fs w' ⟨s, hw, hdisk, hmounted⟩
    subst hw
    exact ⟨_, _, rfl, .mount hdisk hmounted⟩
  | readAt i numBytes position =>
    obtain ⟨h, hhandle, hlive, hpos, hover⟩ := hlegal
    apply returns_handle hhandle
    apply (returns_call (f := fun _ => h.file.readAt numBytes.toInt position.toInt)
      (OpenFile.returns_readAt (hinv.valid_of_live hhandle hlive) hpos hover)).bind
    intro ⟨count, bytes⟩ w' ⟨s, hw, hdisk, hcount, hbytes⟩
    subst hw
    exact ⟨_, _, rfl, .readAt hdisk hhandle hlive hpos hcount hbytes⟩
  | writeAt i source numBytes position =>
    obtain ⟨h, hhandle, hlive, hpos, hover⟩ := hlegal
    apply returns_handle hhandle
    apply (returns_call (f := fun _ => h.file.writeAt source numBytes.toInt position.toInt)
      (OpenFile.returns_writeAt (hinv.valid_of_live hhandle hlive) source hpos hover)).bind
    intro count w' ⟨s, hw, hcount, hwritten⟩
    subst hw
    exact ⟨_, _, rfl, .writeAt hhandle hlive hpos hcount hwritten⟩
  | read i numBytes =>
    obtain ⟨h, hhandle, hlive, hpos, hover⟩ := hlegal
    have hvalid := hinv.valid_of_live hhandle hlive
    have hrange := hinv.seek_range h (List.mem_of_getElem? hhandle)
    apply returns_handle hhandle
    apply (returns_call (f := fun _ => h.file.read numBytes.toInt)
      (OpenFile.returns_read hvalid hpos hrange.2 hover)).bind
    intro ⟨⟨count, bytes⟩, file⟩ w' ⟨s, hw, hdisk, hcount, hbytes, hfile⟩
    dsimp only at hfile
    subst hw hfile
    exact ⟨_, _, rfl, .read hdisk hhandle hlive hpos hover hcount hbytes⟩
  | write i source numBytes =>
    obtain ⟨h, hhandle, hlive, hpos, hover⟩ := hlegal
    have hvalid := hinv.valid_of_live hhandle hlive
    have hrange := hinv.seek_range h (List.mem_of_getElem? hhandle)
    apply returns_handle hhandle
    apply (returns_call (f := fun _ => h.file.write source numBytes.toInt)
      (OpenFile.returns_write hvalid source hpos hrange.2 hover)).bind
    intro ⟨count, file⟩ w' ⟨s, hw, hcount, hwritten, hfile⟩
    dsimp only at hfile
    subst hw hfile
    exact ⟨_, _, rfl, .write hhandle hlive hpos hover hcount hwritten⟩
  | seek i position => exact ⟨_, _, rfl, .seek⟩
  | length i =>
    cases hhandle : w.handles[i]? with
    | none =>
      have hrun : perform (.length i) w = .ok (some .none, w) := by
        simp only [perform, Exit.read_bind_apply, hhandle]
        rfl
      exact ⟨_, _, hrun, .lengthNone hhandle⟩
    | some h =>
      apply returns_handle hhandle
      exact ⟨_, _, rfl, .length hhandle⟩

/-! ### Writing to a file -/

structure Kept (disk disk' : Nat → Buffer) : Prop where
  boot : ∀ a, a ∈ owns disk .boot → disk' a.toNat = disk a.toNat
  freeMap : ∀ a, a ∈ owns disk .freeMap → disk' a.toNat = disk a.toNat
  directory : ∀ a, a ∈ owns disk .directory → disk' a.toNat = disk a.toNat
  header : ∀ i, i < numDirEntries → (entryOf disk i).inUse = true →
    disk' (entryOf disk i).sector.toNat = disk (entryOf disk i).sector.toNat

namespace Kept

variable {disk disk' : Nat → Buffer} (h : Kept disk disk') (hsound : Sound disk)

include h

theorem freeMapSector_eq : disk' freeMapSector = disk freeMapSector :=
  h.boot _ (freeMapSector_mem_boot disk)

theorem directorySector_eq : disk' directorySector = disk directorySector :=
  h.boot _ (directorySector_mem_boot disk)

include hsound

theorem entryOf_eq {i : Nat} (hi : i < numDirEntries) : entryOf disk' i = entryOf disk i :=
  hsound.system.entryOf_congr h.directorySector_eq h.directory hi

theorem headerOf_eq {i : Nat} (hi : i < numDirEntries) (hinUse : (entryOf disk i).inUse = true)
    : headerOf disk' i = headerOf disk i := by
  unfold headerOf
  rw [h.entryOf_eq hsound hi]
  exact headerAt_congr (h.header i hi hinUse)

theorem owns_eq : owns disk' = owns disk := by
  funext o
  cases o with
  | boot => rfl
  | freeMap => exact owns_freeMap_congr h.freeMapSector_eq
  | directory => exact owns_directory_congr h.directorySector_eq
  | entry i =>
    apply owns_entry_congr
    . intro hi
      exact h.entryOf_eq hsound hi
    . intro hi hinUse
      exact headerAt_congr (h.header i hi hinUse)

theorem marked_eq : Marked disk' = Marked disk := by
  funext a
  apply propext
  have hbits : (freeMapOf disk').numBits = (freeMapOf disk).numBits := rfl
  apply BitMap.marks_congr hbits
  intro i hi
  exact hsound.system.freeMapOf_congr h.freeMapSector_eq h.freeMap hi

theorem sound : Sound disk' := by
  have hsystem := hsound.system.congr h.freeMapSector_eq h.directorySector_eq
  apply hsystem.sound
  case hfile =>
    intro i hi hinUse
    have hentry := h.entryOf_eq hsound hi
    rw [hentry] at hinUse ⊢
    rw [headerAt_congr (h.header i hi hinUse)]
    exact hsound.file i hi hinUse
  case hownership =>
    rw [h.owns_eq hsound, h.marked_eq hsound]
    exact hsound.ownership
  case hnames =>
    intro i j hi hj
    rw [h.entryOf_eq hsound hi, h.entryOf_eq hsound hj]
    exact hsound.names i j hi hj

theorem holds_iff {key : List (BitVec 8)} {i : Nat} : Holds disk' key i ↔ Holds disk key i := by
  constructor
  . intro hholds
    have hentry := h.entryOf_eq hsound hholds.lt
    exact ⟨hholds.lt, by rw [← hentry]; exact hholds.inUse, by rw [← hentry]; exact hholds.key_eq⟩
  . intro hholds
    have hentry := h.entryOf_eq hsound hholds.lt
    exact ⟨hholds.lt, by rw [hentry]; exact hholds.inUse, by rw [hentry]; exact hholds.key_eq⟩

end Kept

section

variable {disk disk' : Nat → Buffer} {key : List (BitVec 8)} {i : Nat} {source : Buffer} {p k : Nat}
  (hsound : Sound disk) (hholds : Holds disk key i) (h : (headerOf disk i).Written source p k disk disk')

include hsound hholds h

theorem disk_eq_of_written {o : Owner} (ho : o ≠ .entry i) {a : Int} (ha : a ∈ owns disk o)
    : disk' a.toNat = disk a.toNat := by
  have hproper := hsound.file i hholds.lt hholds.inUse
  have hvalid := hsound.valid_file hholds.lt hholds.inUse
  apply h.frame_of_notMem hproper hvalid
  rw [Int.toNat_of_nonneg (hsound.marked_of_mem ha).1]
  intro hmem
  exact hsound.ownership.notMem_of_ne ho ha (mem_owns_of_mem_sectorList hholds.lt hholds.inUse hmem)

theorem kept_of_written : Kept disk disk' where
  boot _ ha := disk_eq_of_written hsound hholds h (o := .boot) nofun ha
  freeMap _ ha := disk_eq_of_written hsound hholds h (o := .freeMap) nofun ha
  directory _ ha := disk_eq_of_written hsound hholds h (o := .directory) nofun ha
  header j hj hinUse := by
    by_cases hji : j = i
    . subst hji
      have hproper := hsound.file j hj hinUse
      have hvalid := hsound.valid_file hj hinUse
      have hnodup := hsound.ownership.nodup (.entry j)
      rw [owns_entry hj hinUse, List.nodup_cons] at hnodup
      apply h.frame_of_notMem hproper hvalid
      rw [Int.toNat_of_nonneg (hsound.marked_of_mem (sector_mem_owns hj hinUse)).1]
      exact hnodup.1
    . apply disk_eq_of_written hsound hholds h (o := .entry j) _ (sector_mem_owns hj hinUse)
      intro heq
      cases heq
      exact hji rfl

end

/-! ### The invariant -/

section

variable {disk disk' : Nat → Buffer} {name : Name} {key : List (BitVec 8)} {i slot n : Nat} {size : Int}

theorem holds_iff_of_created (h : Created disk name size slot n disk')
    : Holds disk' key i ↔ Holds disk key i ∨ i = slot ∧ key = name.key := by
  by_cases hi : i = slot
  . subst hi
    constructor
    . intro hholds
      have hkey := hholds.key_eq
      rw [h.entry_slot] at hkey
      exact .inr ⟨rfl, hkey.symm⟩
    . intro hcases
      cases hcases with
      | inl hholds =>
        have hinUse := hholds.inUse
        rw [h.unused] at hinUse
        cases hinUse
      | inr hnew => exact ⟨h.slot_lt, by rw [h.entry_slot], by rw [h.entry_slot, hnew.2]⟩
  . constructor
    . intro hholds
      have hentry := h.entry_of_ne hholds.lt hi
      exact .inl ⟨hholds.lt, by rw [← hentry]; exact hholds.inUse, by rw [← hentry]; exact hholds.key_eq⟩
    . intro hcases
      cases hcases with
      | inl hholds =>
        have hentry := h.entry_of_ne hholds.lt hi
        exact ⟨hholds.lt, by rw [hentry]; exact hholds.inUse, by rw [hentry]; exact hholds.key_eq⟩
      | inr hnew => exact absurd hnew.1 hi

theorem headerOf_eq_of_created (hsound : Sound disk) (h : Created disk name size slot n disk') (hholds : Holds disk key i)
    : headerOf disk' i = headerOf disk i := by
  have hne : i ≠ slot := by
    intro heq
    have hinUse := hholds.inUse
    rw [heq, h.unused] at hinUse
    cases hinUse
  unfold headerOf
  rw [h.entry_of_ne hholds.lt hne, h.header_eq hsound hholds.lt hholds.inUse]

theorem Holds.unique (hsound : Sound disk) (h : Holds disk key i) {j : Nat} (h' : Holds disk key j) : i = j :=
  hsound.names i j h.lt h'.lt h.inUse h'.inUse (h.key_eq.trans h'.key_eq.symm)

theorem holds_iff_of_removed (hsound : Sound disk) (h : Removed disk name slot disk')
    : Holds disk' key i ↔ Holds disk key i ∧ key ≠ name.key := by
  have hslot : Holds disk name.key slot := ⟨h.slot_lt, h.found.1, h.found.2⟩
  constructor
  . intro hholds
    have hne : i ≠ slot := by
      intro heq
      have hinUse := hholds.inUse
      rw [heq, h.entry_slot] at hinUse
      cases hinUse
    have hentry := h.entry_of_ne hholds.lt hne
    have hold : Holds disk key i :=
      ⟨hholds.lt, by rw [← hentry]; exact hholds.inUse, by rw [← hentry]; exact hholds.key_eq⟩
    refine ⟨hold, ?_⟩
    intro hkey
    rw [hkey] at hold
    exact hne (hold.unique hsound hslot)
  . intro ⟨hholds, hkey⟩
    have hne : i ≠ slot := by
      intro heq
      rw [← heq] at hslot
      exact hkey (hholds.key_eq.symm.trans hslot.key_eq)
    have hentry := h.entry_of_ne hholds.lt hne
    exact ⟨hholds.lt, by rw [hentry]; exact hholds.inUse, by rw [hentry]; exact hholds.key_eq⟩

theorem headerOf_eq_of_removed (hsound : Sound disk) (h : Removed disk name slot disk') (hholds : Holds disk key i)
    (hkey : key ≠ name.key)
    : headerOf disk' i = headerOf disk i := by
  have hne : i ≠ slot := by
    intro heq
    rw [heq] at hholds
    exact hkey (hholds.key_eq.symm.trans h.found.2)
  unfold headerOf
  rw [h.entry_of_ne hholds.lt hne, h.header_eq hsound hholds.lt hholds.inUse]

end

theorem Inv.of_disk_eq (hinv : Inv w) {s : Store} (hdisk : s.disk = w.disk) : Inv { w with store := s } := by
  obtain ⟨h1, h2, h3, h4, h5, h6, h7⟩ := hinv
  rw [← hdisk] at h1 h2 h3 h5
  exact ⟨h1, h2, h3, h4, h5, h6, h7⟩

theorem Inv.of_kept (hinv : Inv w) {s : Store} (hkept : Kept w.disk s.disk) (h : Handle) (p k : Nat)
    : Inv (({ w with store := s } : Session).stamp h p k) where
  sound := hkept.sound hinv.sound
  mounted := hinv.mounted.congr hkept.freeMapSector_eq hkept.directorySector_eq
  current_iff key := by
    have hiff := hinv.current_iff key
    simp only [← hkept.holds_iff hinv.sound] at hiff
    exact hiff
  current_lt := hinv.current_lt
  handle h' hmem hlive := by
    obtain ⟨i, hholds, hhdr⟩ := hinv.handle h' hmem hlive
    refine ⟨i, (hkept.holds_iff hinv.sound).2 hholds, ?_⟩
    rw [hhdr]
    exact (hkept.headerOf_eq hinv.sound hholds.lt hholds.inUse).symm
  handle_lt := hinv.handle_lt
  seek_range := hinv.seek_range

theorem mem_seekTo {i : Nat} {position : Int} {h : Handle} (hmem : h ∈ (w.seekTo i position).handles)
    : ∃ h', h' ∈ w.handles ∧ h.key = h'.key ∧ h.id = h'.id ∧ h.file.hdr = h'.file.hdr ∧
        (h.file.seekPosition = h'.file.seekPosition ∨ h.file.seekPosition = position) := by
  obtain ⟨j, hj⟩ := List.getElem?_of_mem hmem
  dsimp only [seekTo] at hj
  rw [List.getElem?_modify] at hj
  cases hold : w.handles[j]? with
  | none =>
    rw [hold] at hj
    cases hj
  | some h' =>
    rw [hold] at hj
    refine ⟨h', List.mem_of_getElem? hold, ?_⟩
    by_cases heq : i = j
    . simp only [if_pos heq] at hj
      cases hj
      exact ⟨rfl, rfl, rfl, .inr rfl⟩
    . simp only [if_neg heq] at hj
      cases hj
      exact ⟨rfl, rfl, rfl, .inl rfl⟩

theorem Inv.seekTo (hinv : Inv w) (i : Nat) {position : Int} (hlower : -2 ^ 31 ≤ position) (hupper : position < 2 ^ 31)
    : Inv (w.seekTo i position) where
  sound := hinv.sound
  mounted := hinv.mounted
  current_iff := hinv.current_iff
  current_lt := hinv.current_lt
  handle h hmem hlive := by
    obtain ⟨h', hmem', hkey, hid, hhdr, _⟩ := mem_seekTo hmem
    unfold Live at hlive
    rw [hkey, hid] at hlive
    rw [hkey, hhdr]
    exact hinv.handle h' hmem' hlive
  handle_lt h hmem id hid := by
    obtain ⟨h', hmem', _, hid', _⟩ := mem_seekTo hmem
    rw [hid'] at hid
    exact hinv.handle_lt h' hmem' id hid
  seek_range h hmem := by
    obtain ⟨h', hmem', _, _, _, hseek⟩ := mem_seekTo hmem
    cases hseek with
    | inl hold =>
      rw [hold]
      exact hinv.seek_range h' hmem'
    | inr hnew =>
      rw [hnew]
      exact ⟨hlower, hupper⟩

theorem Inv.seek_transferred (hinv : Inv w) {i : Nat} {h : Handle} {numBytes : Int} (hhandle : w.handles[i]? = some h)
    (hpos : 0 ≤ h.file.seekPosition) (hover : h.file.seekPosition + numBytes < 2 ^ 31)
    : -2 ^ 31 ≤ h.file.seekPosition + h.file.hdr.transferred numBytes h.file.seekPosition ∧
        h.file.seekPosition + h.file.hdr.transferred numBytes h.file.seekPosition < 2 ^ 31 := by
  have hrange := hinv.seek_range h (List.mem_of_getElem? hhandle)
  unfold FileHeader.transferred
  split
  . omega
  . omega

theorem Inv.create (hinv : Inv w) {name : Name} {size : Int32} {slot n : Nat} {s : Store} {written}
    (hsize : size.toInt ≤ maxFileSize) (h : Created w.disk name size.toInt slot n s.disk)
    : Inv
        { w with
          store := s
          current := update w.current name.key (some w.created)
          created := w.created + 1
          written } where
  sound := h.sound hinv.sound hsize
  mounted := hinv.mounted.congr (h.freeMapSector_eq hinv.sound) (h.directorySector_eq hinv.sound)
  current_iff key := by
    show (update w.current name.key (some w.created) key).isSome = true ↔ ∃ i, Holds s.disk key i
    simp only [holds_iff_of_created h, exists_or]
    by_cases hkey : key = name.key
    . subst hkey
      simp
    . rw [Function.update_of_ne hkey, hinv.current_iff key]
      simp [hkey]
  current_lt key id hid := by
    dsimp only at hid ⊢
    by_cases hkey : key = name.key
    . rw [hkey, Function.update_self] at hid
      cases hid
      exact Nat.lt_succ_self _
    . rw [Function.update_of_ne hkey] at hid
      exact Nat.lt_succ_of_lt (hinv.current_lt key id hid)
  handle h' hmem hlive := by
    obtain ⟨hsome, hcurrent⟩ := hlive
    dsimp only at hcurrent
    -- A file that was opened before is not the new one.
    have hkey : h'.key ≠ name.key := by
      intro hkey
      rw [hkey, Function.update_self] at hcurrent
      exact Nat.lt_irrefl _ (hinv.handle_lt h' hmem _ hcurrent.symm)
    rw [Function.update_of_ne hkey] at hcurrent
    obtain ⟨i, hholds, hhdr⟩ := hinv.handle h' hmem ⟨hsome, hcurrent⟩
    refine ⟨i, (holds_iff_of_created h).2 (.inl hholds), ?_⟩
    rw [hhdr]
    exact (headerOf_eq_of_created hinv.sound h hholds).symm
  handle_lt h' hmem id hid := Nat.lt_succ_of_lt (hinv.handle_lt h' hmem id hid)
  seek_range := hinv.seek_range

theorem Inv.remove (hinv : Inv w) {name : Name} {slot : Nat} {s : Store} (h : Removed w.disk name slot s.disk)
    : Inv { w with store := s, current := update w.current name.key none } where
  sound := h.sound hinv.sound
  mounted := hinv.mounted.congr (h.freeMapSector_eq hinv.sound) (h.directorySector_eq hinv.sound)
  current_iff key := by
    show (update w.current name.key none key).isSome = true ↔ ∃ i, Holds s.disk key i
    simp only [holds_iff_of_removed hinv.sound h]
    by_cases hkey : key = name.key
    . subst hkey
      simp
    . rw [Function.update_of_ne hkey, hinv.current_iff key]
      simp [hkey]
  current_lt key id hid := by
    dsimp only at hid
    by_cases hkey : key = name.key
    . rw [hkey, Function.update_self] at hid
      cases hid
    . rw [Function.update_of_ne hkey] at hid
      exact hinv.current_lt key id hid
  handle h' hmem hlive := by
    obtain ⟨hsome, hcurrent⟩ := hlive
    dsimp only at hcurrent
    have hkey : h'.key ≠ name.key := by
      intro hkey
      rw [hkey, Function.update_self] at hcurrent
      rw [← hcurrent] at hsome
      cases hsome
    rw [Function.update_of_ne hkey] at hcurrent
    obtain ⟨i, hholds, hhdr⟩ := hinv.handle h' hmem ⟨hsome, hcurrent⟩
    refine ⟨i, (holds_iff_of_removed hinv.sound h).2 ⟨hholds, hkey⟩, ?_⟩
    rw [hhdr]
    exact (headerOf_eq_of_removed hinv.sound h hholds hkey).symm
  handle_lt := hinv.handle_lt
  seek_range := hinv.seek_range

theorem Inv.openFile (hinv : Inv w) {key : List (BitVec 8)} {i : Nat} (h : Holds w.disk key i)
    : Inv { w with
        handles := w.handles ++ [{ file := { hdr := headerOf w.disk i, seekPosition := 0 }, key, id := w.current key }] } where
  sound := hinv.sound
  mounted := hinv.mounted
  current_iff := hinv.current_iff
  current_lt := hinv.current_lt
  handle h' hmem hlive := by
    rw [List.mem_append, List.mem_singleton] at hmem
    cases hmem with
    | inl hold => exact hinv.handle h' hold hlive
    | inr hnew =>
      subst hnew
      exact ⟨i, h, rfl⟩
  handle_lt h' hmem id hid := by
    rw [List.mem_append, List.mem_singleton] at hmem
    cases hmem with
    | inl hold => exact hinv.handle_lt h' hold id hid
    | inr hnew =>
      subst hnew
      exact hinv.current_lt key id hid
  seek_range h' hmem := by
    rw [List.mem_append, List.mem_singleton] at hmem
    cases hmem with
    | inl hold => exact hinv.seek_range h' hold
    | inr hnew =>
      subst hnew
      dsimp only
      omega

theorem Inv.outcome (hinv : Inv w) {c : Call} {r : Result} {w' : Session} (h : Outcome w c r w') : Inv w' := by
  cases h with
  | create hsize h => exact hinv.create hsize h
  | createFail hdisk h => exact hinv.of_disk_eq hdisk
  | openFile hdisk h => exact (hinv.openFile h).of_disk_eq hdisk
  | openFail hdisk h => exact hinv.of_disk_eq hdisk
  | remove h => exact hinv.remove h
  | removeFail hdisk h => exact hinv.of_disk_eq hdisk
  | mount hdisk h =>
    obtain ⟨hsound, _, hcurrent, hlt, hhandle, hid, hseek⟩ := hinv.of_disk_eq hdisk
    rw [← hdisk] at h
    exact ⟨hsound, h, hcurrent, hlt, hhandle, hid, hseek⟩
  | readAt hdisk hhandle hlive hpos hcount hbytes => exact hinv.of_disk_eq hdisk
  | writeAt hhandle hlive hpos hcount hwritten =>
    obtain ⟨j, hholds, hhdr⟩ := hinv.holds_of_live hhandle hlive
    rw [hhdr] at hwritten
    exact hinv.of_kept (kept_of_written hinv.sound hholds hwritten) _ _ _
  | read hdisk hhandle hlive hpos hover hcount hbytes =>
    have hseek := hinv.seek_transferred hhandle hpos hover
    rw [← hcount] at hseek
    exact (hinv.of_disk_eq hdisk).seekTo _ hseek.1 hseek.2
  | write hhandle hlive hpos hover hcount hwritten =>
    have hseek := hinv.seek_transferred hhandle hpos hover
    rw [← hcount] at hseek
    obtain ⟨j, hholds, hhdr⟩ := hinv.holds_of_live hhandle hlive
    rw [hhdr] at hwritten
    exact (hinv.of_kept (kept_of_written hinv.sound hholds hwritten) _ _ _).seekTo _ hseek.1 hseek.2
  | @seek i position => exact hinv.seekTo _ position.le_toInt position.toInt_lt
  | length hhandle => exact hinv
  | lengthNone hhandle => exact hinv

theorem Outcome.spared (hinv : Inv w) {c : Call} {r : Result} {w' : Session} (houtcome : Outcome w c r w')
    {key : List (BitVec 8)} (hspares : c.Spares key) {i : Nat} (hholds : Holds w.disk key i)
    : Holds w'.disk key i ∧ entryOf w'.disk i = entryOf w.disk i ∧ headerOf w'.disk i = headerOf w.disk i := by
  have hsame {s : Store} (hdisk : s.disk = w.disk)
      : Holds s.disk key i ∧ entryOf s.disk i = entryOf w.disk i ∧ headerOf s.disk i = headerOf w.disk i := by
    rw [hdisk]
    exact ⟨hholds, rfl, rfl⟩
  have hwrite {s : Store} (hkept : Kept w.disk s.disk)
      : Holds s.disk key i ∧ entryOf s.disk i = entryOf w.disk i ∧ headerOf s.disk i = headerOf w.disk i :=
    ⟨(hkept.holds_iff hinv.sound).2 hholds, hkept.entryOf_eq hinv.sound hholds.lt,
      hkept.headerOf_eq hinv.sound hholds.lt hholds.inUse⟩
  cases houtcome with
  | create hsize h =>
    refine ⟨(holds_iff_of_created h).2 (.inl hholds), h.entry_of_ne hholds.lt ?_,
      headerOf_eq_of_created hinv.sound h hholds⟩
    intro heq
    have hinUse := hholds.inUse
    rw [heq, h.unused] at hinUse
    cases hinUse
  | createFail hdisk h => exact hsame hdisk
  | openFile hdisk h => exact hsame hdisk
  | openFail hdisk h => exact hsame hdisk
  | remove h =>
    have hkey := Ne.symm hspares
    refine ⟨(holds_iff_of_removed hinv.sound h).2 ⟨hholds, hkey⟩, h.entry_of_ne hholds.lt ?_,
      headerOf_eq_of_removed hinv.sound h hholds hkey⟩
    intro heq
    rw [heq] at hholds
    exact hkey (hholds.key_eq.symm.trans h.found.2)
  | removeFail hdisk h => exact hsame hdisk
  | mount hdisk h => exact hsame hdisk
  | readAt hdisk hhandle hlive hpos hcount hbytes => exact hsame hdisk
  | writeAt hhandle hlive hpos hcount hwritten =>
    obtain ⟨j, hj, hhdr⟩ := hinv.holds_of_live hhandle hlive
    rw [hhdr] at hwritten
    exact hwrite (kept_of_written hinv.sound hj hwritten)
  | read hdisk hhandle hlive hpos hover hcount hbytes => exact hsame hdisk
  | write hhandle hlive hpos hover hcount hwritten =>
    obtain ⟨j, hj, hhdr⟩ := hinv.holds_of_live hhandle hlive
    rw [hhdr] at hwritten
    exact hwrite (kept_of_written hinv.sound hj hwritten)
  | seek => exact ⟨hholds, rfl, rfl⟩
  | length hhandle => exact ⟨hholds, rfl, rfl⟩
  | lengthNone hhandle => exact ⟨hholds, rfl, rfl⟩

theorem Inv.start (h : Start w) : Inv w := by
  obtain ⟨s, fs, s', hrun, rfl⟩ := h
  obtain ⟨fs', s'', hrun', hformatted, hmounted⟩ := FileSystem.returns_format (s := s)
  rw [hrun] at hrun'
  cases hrun'
  constructor
  case sound => exact hformatted.sound
  case mounted => exact hmounted
  case current_iff =>
    intro key
    constructor
    . intro hsome
      cases hsome
    . intro ⟨i, hholds⟩
      have hinUse : (entryOf s'.disk i).inUse = true := hholds.inUse
      rw [hformatted.empty i hholds.lt] at hinUse
      cases hinUse
  all_goals nofun

theorem Inv.outcome_of_run (hinv : Inv w) {c : Call} {r : Result} {w' : Session} (hlegal : w.Legal c)
    (hrun : perform c w = .ok (some r, w'))
    : Outcome w c r w' := by
  obtain ⟨r', w'', hrun', houtcome⟩ := hinv.returns_perform hlegal
  rw [hrun] at hrun'
  cases hrun'
  exact houtcome

theorem Inv.step (hinv : Inv w) {w' : Session} (h : Step w w') : Inv w' := by
  obtain ⟨c, r, hlegal, hrun⟩ := h
  exact hinv.outcome (hinv.outcome_of_run hlegal hrun)

theorem Inv.reachable (h : Transition.Reachable Start Step w) : Inv w := by
  apply h.invariant (P := Inv)
  . intro w h
    exact Inv.start h
  . intro w w' _ hinv h
    exact hinv.step h

/-! ### Calls that succeed -/

section

variable (hinv : Inv w) {name : Name} {i : Nat} {h : Handle}

include hinv

theorem Inv.perform_create {size : Int32} (hsize : size.toInt ≤ maxFileSize) (hcan : CanCreate w.disk name size.toInt)
    : ∃ w' slot n, perform (.create name size) w = .ok (some (.success true), w') ∧ Inv w' ∧
        Created w.disk name size.toInt slot n w'.disk ∧ w'.handles = w.handles := by
  obtain ⟨r, w', hrun, houtcome⟩ := hinv.returns_perform (c := .create name size) hsize
  have hinv' := hinv.outcome houtcome
  cases houtcome with
  | create _ hcreated => exact ⟨_, _, _, hrun, hinv', hcreated, rfl⟩
  | createFail _ hcannot => exact absurd hcan hcannot

theorem Inv.perform_openFile (hholds : Holds w.disk name.key i)
    : ∃ w' h, perform (.openFile name) w = .ok (some (.handle (some w.handles.length)), w') ∧ Inv w' ∧
        w'.disk = w.disk ∧ w'.handles = w.handles ++ [h] ∧ w'.Live h ∧ h.file.hdr = headerOf w.disk i := by
  obtain ⟨r, w', hrun, houtcome⟩ := hinv.returns_perform (c := .openFile name) trivial
  have hinv' := hinv.outcome houtcome
  cases houtcome with
  | openFile hdisk hholds' =>
    have hcurrent := (hinv.current_iff name.key).2 ⟨_, hholds⟩
    rw [hholds'.unique hinv.sound hholds] at hrun hinv'
    exact ⟨_, _, hrun, hinv', hdisk, rfl, ⟨hcurrent, rfl⟩, rfl⟩
  | openFail _ hnone => exact absurd hholds (hnone i)

theorem Inv.perform_remove (hholds : Holds w.disk name.key i)
    : ∃ w', perform (.remove name) w = .ok (some (.success true), w') ∧ Inv w' ∧ Removed w.disk name i w'.disk ∧
        w'.handles = w.handles := by
  obtain ⟨r, w', hrun, houtcome⟩ := hinv.returns_perform (c := .remove name) trivial
  have hinv' := hinv.outcome houtcome
  cases houtcome with
  | remove hremoved =>
    have hholds' : Holds w.disk name.key _ := ⟨hremoved.slot_lt, hremoved.found.1, hremoved.found.2⟩
    rw [hholds'.unique hinv.sound hholds] at hremoved
    exact ⟨_, hrun, hinv', hremoved, rfl⟩
  | removeFail _ hnone => exact absurd hholds (hnone i)

theorem Inv.perform_readAt {numBytes position : Int32} (hhandle : w.handles[i]? = some h) (hlive : w.Live h)
    (hpos : 0 ≤ position.toInt) (hover : position.toInt + numBytes.toInt < 2 ^ 31)
    : ∃ w' bytes, perform (.readAt i numBytes position) w =
          .ok (some (.data (h.file.hdr.transferred numBytes.toInt position.toInt) bytes), w') ∧
        ∀ j : Nat, j < h.file.hdr.transferred numBytes.toInt position.toInt →
          bytes j = h.file.hdr.byte w.disk (position.toInt.toNat + j) := by
  obtain ⟨r, w', hrun, houtcome⟩ :=
    hinv.returns_perform (c := .readAt i numBytes position) ⟨h, hhandle, hlive, hpos, hover⟩
  cases houtcome with
  | readAt hdisk hhandle' hlive' hpos' hcount hbytes =>
    rw [hhandle] at hhandle'
    cases hhandle'
    subst hcount
    exact ⟨_, _, hrun, hbytes⟩

theorem Inv.perform_writeAt (source : Buffer) {numBytes position : Int32} (hhandle : w.handles[i]? = some h)
    (hlive : w.Live h) (hpos : 0 ≤ position.toInt) (hover : position.toInt + numBytes.toInt < 2 ^ 31)
    : ∃ w', perform (.writeAt i source numBytes position) w =
          .ok (some (.count (h.file.hdr.transferred numBytes.toInt position.toInt)), w') ∧ Inv w' ∧
        h.file.hdr.Written source position.toInt.toNat
          (h.file.hdr.transferred numBytes.toInt position.toInt).toNat w.disk w'.disk ∧
        w'.handles = w.handles ∧ w'.Live h := by
  obtain ⟨r, w', hrun, houtcome⟩ :=
    hinv.returns_perform (c := .writeAt i source numBytes position) ⟨h, hhandle, hlive, hpos, hover⟩
  have hinv' := hinv.outcome houtcome
  cases houtcome with
  | writeAt hhandle' hlive' hpos' hcount hwritten =>
    rw [hhandle] at hhandle'
    cases hhandle'
    subst hcount
    exact ⟨_, hrun, hinv', hwritten, rfl, hlive⟩

end

end Session

end Filesys

end Nachos
