import Mathlib.Data.Rat.Floor
import Nachos.Filesys.Outcome

/-!
This module contains what holds after every run of a program that uses the file system: the disk is
consistent, and `Create` does all of its work or nothing.
-/

namespace Nachos

namespace Filesys

open SynchDisk (numSectors)
open Transition (Reachable)
open Session (Holds headerOf)
open Relation (ReflTransGen)

def owners : List Owner :=
  .boot :: .freeMap :: .directory :: (List.range numDirEntries).map .entry

structure Consistent (disk : Nat → Buffer) : Prop where
  marked_iff : ∀ a : Int, 0 ≤ a ∧ a < numSectors → (Marked disk a ↔ a ∈ owners.flatMap (owns disk))
  distinct : (owners.flatMap (owns disk)).Nodup
  range : ∀ a, a ∈ owners.flatMap (owns disk) → 0 ≤ a ∧ a < numSectors
  names : ∀ i j, i < numDirEntries → j < numDirEntries → (entryOf disk i).inUse = true →
    (entryOf disk j).inUse = true → (entryOf disk i).key = (entryOf disk j).key → i = j

section

variable {disk : Nat → Buffer}

theorem mem_owners {o : Owner} {a : Int} (ha : a ∈ owns disk o) : o ∈ owners := by
  cases o with
  | boot => simp [owners]
  | freeMap => simp [owners]
  | directory => simp [owners]
  | entry i =>
    have hi : i < numDirEntries := by
      apply Classical.byContradiction
      intro hi
      rw [owns_entry_eq_nil (fun h => hi h.1)] at ha
      cases ha
    simp [owners, hi]

theorem Sound.consistent (h : Sound disk) : Consistent disk where
  marked_iff a _ := by
    rw [h.ownership.used_iff, List.mem_flatMap]
    constructor
    . intro ⟨o, ho⟩
      exact ⟨o, mem_owners ho, ho⟩
    . intro ⟨o, _, ho⟩
      exact ⟨o, ho⟩
  distinct := by
    apply h.ownership.nodup_flatMap
    decide
  range a ha := by
    rw [List.mem_flatMap] at ha
    obtain ⟨o, _, ho⟩ := ha
    have hmarked := h.marked_of_mem ho
    exact ⟨hmarked.1, hmarked.2.1⟩
  names := h.names

theorem Formatted.numClear_eq (h : Formatted disk) : (freeMapOf disk).numClear = 1019 := by
  have hconsistent := h.sound.consistent
  have hmarks (a : Int) : (freeMapOf disk).Marks a ↔ a ∈ owners.flatMap (owns disk) := by
    constructor
    . intro hmarked
      exact (hconsistent.marked_iff a ⟨hmarked.1, hmarked.2.1⟩).1 hmarked
    . intro ha
      exact (hconsistent.marked_iff a (hconsistent.range a ha)).2 ha
  have hentries : ((List.range numDirEntries).map Owner.entry).flatMap (owns disk) = [] := by
    rw [List.flatMap_eq_nil_iff]
    intro o ho
    obtain ⟨i, hi, rfl⟩ := List.mem_map.1 ho
    apply owns_entry_eq_nil
    intro ⟨hlt, hinUse⟩
    rw [h.empty i hlt] at hinUse
    cases hinUse
  have hfreeMap : (owns disk .freeMap).length = 1 := by
    simp only [owns]
    rw [FileHeader.length_sectorList, h.system.freeMap.numSectors, h.system.freeMapSize]
    rfl
  have hdirectory : (owns disk .directory).length = 2 := by
    simp only [owns]
    rw [FileHeader.length_sectorList, h.system.directory.numSectors, h.system.directorySize]
    rfl
  have hcount := BitMap.numClear_of_marks hmarks hconsistent.distinct
  have hboot : (owns disk .boot).length = 2 := rfl
  have hbits : (freeMapOf disk).numBits = 1024 := rfl
  unfold owners at hcount
  rw [List.flatMap_cons, List.flatMap_cons, List.flatMap_cons, hentries] at hcount
  simp only [List.length_append, List.length_nil, hboot, hfreeMap, hdirectory, hbits] at hcount
  omega

theorem bit_eq_of_marked {disk disk' : Nat → Buffer} (h : ∀ a, Marked disk' a ↔ Marked disk a) (j : Nat)
    (hj : j < numSectors)
    : (freeMapOf disk').bit j = (freeMapOf disk).bit j := by
  have hmarked (disk : Nat → Buffer) : Marked disk j ↔ (freeMapOf disk).bit j = true := by
    unfold Marked BitMap.Marks
    rw [Int.toNat_natCast]
    constructor
    . intro hmarks
      exact hmarks.2.2
    . intro hbit
      exact ⟨by omega, Int.ofNat_lt.2 hj, hbit⟩
  rw [Bool.eq_iff_iff, ← hmarked disk', ← hmarked disk]
  exact h j

theorem canCreate_of_empty {disk disk' : Nat → Buffer} (hformatted : Formatted disk)
    (hmarked : ∀ a, Marked disk' a ↔ Marked disk a) (hempty : ∀ i, i < numDirEntries → (entryOf disk' i).inUse = false)
    (name : Name) {size : Int} (hsize : max 0 (divRoundUp size sectorSize) < 1019)
    : CanCreate disk' name size := by
  have hbits : (freeMapOf disk').numBits = (freeMapOf disk).numBits := rfl
  refine ⟨?_, ⟨0, by decide, hempty 0 (by decide)⟩, ?_⟩
  . intro i hi hmatches
    have hinUse := hmatches.1
    rw [hempty i hi] at hinUse
    cases hinUse
  . rw [BitMap.numClear_congr hbits (bit_eq_of_marked hmarked), hformatted.numClear_eq]
    omega

end

theorem Session.Start.formatted {w : Session} (hstart : w.Start) : Formatted w.disk := by
  obtain ⟨s, fs, s', hrun, rfl⟩ := hstart
  obtain ⟨fs', s'', hrun', hformatted, _⟩ := FileSystem.returns_format (s := s)
  rw [hrun] at hrun'
  cases hrun'
  exact hformatted

/-! ### The life of a file -/

open Session (Event)
open Transition (Trace)

theorem holds_of_spared {w w' : Session} (hinv : w.Inv) {key : List (BitVec 8)} {i : Nat} (hholds : Holds w.disk key i)
    (hrun : ReflTransGen (fun w w' => ∃ c r, w.Legal c ∧ c.Spares key ∧ Session.perform c w = .ok (some r, w')) w w')
    : w'.Inv ∧ Holds w'.disk key i ∧ owns w'.disk (.entry i) = owns w.disk (.entry i) := by
  induction hrun with
  | refl => exact ⟨hinv, hholds, rfl⟩
  | tail _ hlast ih =>
    obtain ⟨c, r, hlegal, hspares, hperform⟩ := hlast
    obtain ⟨hinv', hholds', howns⟩ := ih
    have houtcome := hinv'.outcome_of_run hlegal hperform
    obtain ⟨hholds'', hentry, hheader⟩ := houtcome.spared hinv' hspares hholds'
    refine ⟨hinv'.outcome houtcome, hholds'', ?_⟩
    rw [← howns, owns_entry hholds''.lt hholds''.inUse, owns_entry hholds'.lt hholds'.inUse]
    unfold headerOf at hheader
    rw [hheader, hentry]

theorem exists_lifecycle (name : Name) (source : Buffer)
    : ∃ (w₀ w₁ w₂ : Session) (bytes : Buffer), w₀.Start ∧
        Trace Event w₀ [(.create name 300, .success true), (.openFile name, .handle (some 0)),
          (.writeAt 0 source 3 127, .count 3)] w₁ ∧
        Trace Event w₁ [(.readAt 0 3 127, .data 3 bytes), (.remove name, .success true)] w₂ ∧
        ∀ i < 3, bytes i = source i := by
  obtain ⟨fs, s₀, hformat, _⟩ := FileSystem.returns_format (s := { disk := fun _ _ => 0, memory := fun _ _ => 0 })
  obtain ⟨w₀, hstart, hnone⟩ : ∃ w₀, Session.Start w₀ ∧ w₀.handles = [] := ⟨_, ⟨_, fs, s₀, hformat, rfl⟩, rfl⟩
  have hformatted := hstart.formatted
  have hinv₀ := Session.Inv.start hstart
  have hsize : (300 : Int32).toInt ≤ maxFileSize := by decide
  have hround : max 0 (divRoundUp (300 : Int32).toInt sectorSize) < 1019 := by decide
  have hsized : 0 ≤ (300 : Int32).toInt := by decide
  have hpos : 0 ≤ (127 : Int32).toInt := by decide
  have hover : (127 : Int32).toInt + (3 : Int32).toInt < 2 ^ 31 := by decide
  have hcan := canCreate_of_empty hformatted (fun _ => Iff.rfl) hformatted.empty name hround
  obtain ⟨w₁, slot, n, hrun₁, hinv₁, hcreated, hhandles₁⟩ := hinv₀.perform_create hsize hcan
  have hholds₁ := (Session.holds_iff_of_created hcreated).2 (.inr ⟨rfl, rfl⟩)
  obtain ⟨w₂, h, hrun₂, hinv₂, hdisk₂, hhandles₂, hlive₂, hhdr⟩ := hinv₁.perform_openFile hholds₁
  rw [hhandles₁, hnone] at hrun₂ hhandles₂
  have hhandle₂ : w₂.handles[0]? = some h := by
    rw [hhandles₂]
    rfl
  have hlength : h.file.hdr.numBytes = 300 := by
    obtain ⟨m, hallocated, _⟩ := hcreated.allocated
    rw [hhdr, headerOf, hcreated.entry_slot]
    exact hallocated.numBytes
  have hthree : h.file.hdr.transferred (3 : Int32).toInt (127 : Int32).toInt = 3 := by
    rw [FileHeader.transferred, hlength]
    decide
  obtain ⟨w₃, hrun₃, hinv₃, hwritten, hhandles₃, hlive₃⟩ := hinv₂.perform_writeAt source hhandle₂ hlive₂ hpos hover
  have hhandle₃ : w₃.handles[0]? = some h := by
    rw [hhandles₃]
    exact hhandle₂
  obtain ⟨w₄, bytes, hrun₄, hbytes⟩ := hinv₃.perform_readAt hhandle₃ hlive₃ hpos hover
  have hlegal₃ : w₂.Legal (.writeAt 0 source 3 127) := ⟨h, hhandle₂, hlive₂, hpos, hover⟩
  have hlegal₄ : w₃.Legal (.readAt 0 3 127) := ⟨h, hhandle₃, hlive₃, hpos, hover⟩
  rw [hthree] at hrun₃ hrun₄ hbytes hwritten
  have hholds₂ : Holds w₂.disk name.key slot := by
    rw [hdisk₂]
    exact hholds₁
  obtain ⟨hinv₄, hholds₄, _⟩ := holds_of_spared hinv₂ hholds₂
    ((ReflTransGen.single ⟨_, _, hlegal₃, trivial, hrun₃⟩).tail ⟨_, _, hlegal₄, trivial, hrun₄⟩)
  obtain ⟨w₅, hrun₅, _⟩ := hinv₄.perform_remove hholds₄
  refine ⟨w₀, w₃, w₅, bytes, hstart, ?_, ?_, ?_⟩
  . exact ((Trace.nil.snoc ⟨hsize, hsized, hrun₁⟩).snoc ⟨trivial, trivial, hrun₂⟩).snoc ⟨hlegal₃, trivial, hrun₃⟩
  . exact (Trace.nil.snoc ⟨hlegal₄, trivial, hrun₄⟩).snoc ⟨trivial, trivial, hrun₅⟩
  . intro i hi
    have hoffset : (127 : Int32).toInt.toNat = 127 := rfl
    rw [hbytes i (by omega), hwritten.byte _ (by rw [hlength, hoffset]; omega), hoffset, if_pos]
    . rw [Nat.add_sub_cancel_left]
    . change 127 ≤ 127 + i ∧ 127 + i < 127 + 3
      omega

theorem reachable_of_trace {w w' : Session} {events : List (Call × Result)} (h : Trace Event w events w')
    (hreachable : Reachable Session.Start Session.Step w)
    : Reachable Session.Start Session.Step w' := by
  apply h.invariant (P := Reachable Session.Start Session.Step) _ hreachable
  rintro w ⟨c, r⟩ w' hreachable ⟨hlegal, _, hrun⟩
  exact hreachable.tail ⟨c, r, hlegal, hrun⟩

/-! ### Consistency -/

theorem consistent_of_reachable
    : (∀ s, ∃ fs s', FileSystem.format s = .ok (some fs, s')) ∧
        ∀ w, Reachable Session.Start Session.Step w →
          Consistent w.disk ∧ ∀ c, w.Legal c → ∃ r w', Session.perform c w = .ok (some r, w') := by
  constructor
  . intro s
    obtain ⟨fs, s', hrun, _⟩ := FileSystem.returns_format (s := s)
    exact ⟨fs, s', hrun⟩
  . intro w hreachable
    have hinv := Session.Inv.reachable hreachable
    refine ⟨hinv.sound.consistent, ?_⟩
    intro c hlegal
    obtain ⟨r, w', hrun, _⟩ := hinv.returns_perform hlegal
    exact ⟨r, w', hrun⟩

theorem consistent_of_blank
    : ∃ (w₀ w₁ w₂ : Session) (bytes : Buffer), w₀.Start ∧
        Trace Event w₀ [(.create ⟨[97], by decide⟩ 300, .success true), (.openFile ⟨[97], by decide⟩, .handle (some 0)),
          (.writeAt 0 (fun _ => 5) 3 127, .count 3)] w₁ ∧
        Trace Event w₁ [(.readAt 0 3 127, .data 3 bytes), (.remove ⟨[97], by decide⟩, .success true)] w₂ ∧
        Consistent w₀.disk ∧ Consistent w₁.disk ∧ Consistent w₂.disk := by
  obtain ⟨_, hruns⟩ := consistent_of_reachable
  obtain ⟨w₀, w₁, w₂, bytes, hstart, htrace₁, htrace₂, _⟩ := exists_lifecycle ⟨[97], by decide⟩ fun _ => 5
  have hreachable₁ := reachable_of_trace htrace₁ (.init hstart)
  have hreachable₂ := reachable_of_trace htrace₂ hreachable₁
  exact ⟨w₀, w₁, w₂, bytes, hstart, htrace₁, htrace₂, (hruns _ (.init hstart)).1, (hruns _ hreachable₁).1,
    (hruns _ hreachable₂).1⟩

/-! ### `Create` -/

theorem divRoundUp_eq_ceil (n : Int) : divRoundUp n sectorSize = ⌈(n / sectorSize : ℚ)⌉ := by
  rw [Rat.ceil_intCast_div_natCast]
  by_cases hneg : n ≤ 0
  . obtain ⟨m, rfl⟩ := Int.exists_eq_neg_ofNat hneg
    have hmod := Int.tmod_nonneg sectorSize (Int.natCast_nonneg m)
    unfold divRoundUp
    rw [Int.neg_tdiv, Int.neg_tmod, if_neg (by omega), Int.neg_neg,
      Int.tdiv_eq_ediv_of_nonneg (Int.natCast_nonneg m), Int.add_zero]
  . obtain ⟨m, rfl⟩ := Int.eq_ofNat_of_zero_le (show 0 ≤ n from by omega)
    rw [FileHeader.divRoundUp_natCast, sectorSize_eq]
    omega

theorem canCreate_iff (disk : Nat → Buffer) (name : Name) (size : Int)
    : CanCreate disk name size ↔
        (¬∃ i, i < numDirEntries ∧ (entryOf disk i).inUse = true ∧ (entryOf disk i).key = name.key) ∧
        (∃ i, i < numDirEntries ∧ (entryOf disk i).inUse = false) ∧
        1 + max 0 ⌈(size / sectorSize : ℚ)⌉ ≤ (freeMapOf disk).numClear := by
  rw [CanCreate, divRoundUp_eq_ceil]
  simp only [Directory.Entry.Matches, not_exists, not_and]

theorem create_all_or_nothing {w : Session} (hreachable : Reachable Session.Start Session.Step w) (name : Name)
    (size : Int32) (hsize : size.toInt ≤ maxFileSize)
    : ∃ success s, w.fs.create name size.toInt w.store = .ok (some success, s) ∧
        (success = true ↔
          (¬∃ i, i < numDirEntries ∧ (entryOf w.disk i).inUse = true ∧ (entryOf w.disk i).key = name.key) ∧
          (∃ i, i < numDirEntries ∧ (entryOf w.disk i).inUse = false) ∧
          1 + max 0 ⌈(size.toInt / sectorSize : ℚ)⌉ ≤ (freeMapOf w.disk).numClear) ∧
        (success = false → s.disk = w.disk) ∧
        (success = true → ∃ (slot n : Nat) (new : List Int),
          slot < numDirEntries ∧ (entryOf w.disk slot).inUse = false ∧
          entryOf s.disk slot = { inUse := true, sector := n, key := name.key } ∧
          (∀ i, i < numDirEntries → i ≠ slot → entryOf s.disk i = entryOf w.disk i) ∧
          new = (n : Int) :: (headerAt s.disk n).sectorList ∧
          (new.length : Int) = 1 + max 0 ⌈(size.toInt / sectorSize : ℚ)⌉ ∧
          (∀ k : Nat, k ≠ n → (k : Int) ∉ owns w.disk .freeMap → (k : Int) ∉ owns w.disk .directory →
            s.disk k = w.disk k) ∧
          (∀ a, a ∈ new → ¬Marked w.disk a) ∧
          ∀ a, Marked s.disk a ↔ Marked w.disk a ∨ a ∈ new) := by
  have hinv := Session.Inv.reachable hreachable
  obtain ⟨success, s, hrun, hcan, hfalse, htrue⟩ :=
    FileSystem.returns_create hinv.sound hinv.mounted name size.le_toInt hsize
  refine ⟨success, s, hrun, ?_, hfalse, ?_⟩
  . rw [hcan]
    exact canCreate_iff _ name size.toInt
  . intro hsuccess
    obtain ⟨slot, n, h⟩ := htrue hsuccess
    obtain ⟨m, hallocated, _⟩ := h.allocated
    refine ⟨slot, n, _, h.slot_lt, h.unused, h.entry_slot, fun i hi hne => h.entry_of_ne hi hne, rfl, ?_, h.frame, ?_,
      h.marked_iff hsize⟩
    . rw [List.length_cons, FileHeader.length_sectorList, hallocated.numSectors, ← divRoundUp_eq_ceil]
      omega
    . intro a ha
      exact h.not_marked hsize ha

theorem create_all_or_nothing_of_blank
    : ∃ fs s' s'', FileSystem.format { disk := fun _ _ => 0, memory := fun _ _ => 0 } = .ok (some fs, s') ∧
        fs.create ⟨[97], by decide⟩ 300 s' = .ok (some true, s'') ∧
        ∃ (slot n : Nat) (new : List Int), slot < numDirEntries ∧
          entryOf s''.disk slot = { inUse := true, sector := n, key := [97] } ∧
          new = (n : Int) :: (headerAt s''.disk n).sectorList ∧ new.length = 4 ∧
          (∀ a, a ∈ new → ¬Marked s'.disk a) ∧ ∀ a, Marked s''.disk a ↔ Marked s'.disk a ∨ a ∈ new := by
  obtain ⟨fs, s', hrun, hformatted, _⟩ :=
    FileSystem.returns_format (s := { disk := fun _ _ => 0, memory := fun _ _ => 0 })
  have hstart : Session.Start _ := ⟨_, fs, s', hrun, rfl⟩
  obtain ⟨success, s'', hcreate, hiff, _, htrue⟩ :=
    create_all_or_nothing (.init hstart) ⟨[97], by decide⟩ 300 (by decide)
  have hcan : CanCreate s'.disk ⟨[97], by decide⟩ (300 : Int32).toInt :=
    canCreate_of_empty hformatted (fun _ => Iff.rfl) hformatted.empty _ (by decide)
  obtain rfl : success = true := hiff.2 ((canCreate_iff _ _ _).1 hcan)
  obtain ⟨slot, n, new, hslot, _, hentry, _, hnew, hlength, _, hfree, hmarked⟩ := htrue rfl
  refine ⟨fs, s', s'', hrun, hcreate, slot, n, new, hslot, hentry, hnew, ?_, hfree, hmarked⟩
  rw [← divRoundUp_eq_ceil] at hlength
  have hfour : 1 + max 0 (divRoundUp (300 : Int32).toInt sectorSize) = 4 := by decide
  omega

/-! ### `Remove` -/

structure RemovedOnly (disk : Nat → Buffer) (slot : Nat) (sectors : List Int) (disk' : Nat → Buffer) : Prop where
  marked : ∀ a, a ∈ sectors → Marked disk a
  marked_iff : ∀ a, Marked disk' a ↔ Marked disk a ∧ a ∉ sectors
  unused : (entryOf disk' slot).inUse = false
  entry : ∀ i, i < numDirEntries → i ≠ slot → entryOf disk' i = entryOf disk i
  file : ∀ i, i < numDirEntries → i ≠ slot → (entryOf disk i).inUse = true →
    headerOf disk' i = headerOf disk i ∧
      ∀ offset : Nat, offset < (headerOf disk i).numBytes →
        (headerOf disk i).byte disk' offset = (headerOf disk i).byte disk offset

theorem Removed.removedOnly {disk disk' : Nat → Buffer} {name : Name} {slot : Nat} (hsound : Sound disk)
    (h : Removed disk name slot disk')
    : RemovedOnly disk slot (owns disk (.entry slot)) disk' where
  marked a ha := hsound.marked_of_mem ha
  marked_iff := h.marked_iff
  unused := by rw [h.entry_slot]
  entry i hi hne := h.entry_of_ne hi hne
  file i hi hne hinUse := by
    have hholds : Holds disk _ i := ⟨hi, hinUse, rfl⟩
    have hkey : (entryOf disk i).key ≠ name.key := by
      intro hkey
      have hslot : Holds disk name.key slot := ⟨h.slot_lt, h.found.1, h.found.2⟩
      rw [hkey] at hholds
      exact hne (hholds.unique hsound hslot)
    refine ⟨Session.headerOf_eq_of_removed hsound h hholds hkey, ?_⟩
    intro offset hoffset
    apply hholds.byte_eq hsound _ hoffset
    intro a ha
    exact h.disk_eq hsound (o := .entry i) nofun nofun ha

theorem remove_undoes_create {w w₁ w₂ : Session} (hinv : w.Inv) {name : Name} {size : Int32}
    (hsize : size.toInt ≤ maxFileSize)
    (hcreate : Session.perform (.create name size) w = .ok (some (.success true), w₁))
    (hrun : ReflTransGen (fun w w' => ∃ c r, w.Legal c ∧ c.Spares name.key ∧ Session.perform c w = .ok (some r, w'))
      w₁ w₂)
    : ∃ slot new w₃, slot < numDirEntries ∧ (entryOf w.disk slot).inUse = false ∧ new = owns w₁.disk (.entry slot) ∧
        (∀ a, a ∈ new → ¬Marked w.disk a) ∧ (∀ a, Marked w₁.disk a ↔ Marked w.disk a ∨ a ∈ new) ∧
        Session.perform (.remove name) w₂ = .ok (some (.success true), w₃) ∧ Holds w₂.disk name.key slot ∧
        RemovedOnly w₂.disk slot new w₃.disk ∧
        (w₂ = w₁ →
          (∀ a, Marked w₃.disk a ↔ Marked w.disk a) ∧
          ∀ key sector, (∃ i, i < numDirEntries ∧ entryOf w₃.disk i = { inUse := true, sector, key }) ↔
            ∃ i, i < numDirEntries ∧ entryOf w.disk i = { inUse := true, sector, key }) := by
  have houtcome := hinv.outcome_of_run (c := .create name size) hsize hcreate
  have hinv₁ := hinv.outcome houtcome
  cases houtcome with
  | @create _ _ slot n s _ hcreated =>
    have hholds₁ : Holds s.disk name.key slot := (Session.holds_iff_of_created hcreated).2 (.inr ⟨rfl, rfl⟩)
    obtain ⟨hinv₂, hholds₂, howns⟩ := holds_of_spared hinv₁ hholds₁ hrun
    obtain ⟨w₃, hremove, _, hremoved, _⟩ := hinv₂.perform_remove hholds₂
    have honly := hremoved.removedOnly hinv₂.sound
    rw [howns] at honly
    have hnew : owns s.disk (.entry slot) = (n : Int) :: (headerAt s.disk n).sectorList := by
      rw [hcreated.owns_eq hinv.sound, Function.update_self]
    have hnotMarked : ∀ a, a ∈ owns s.disk (.entry slot) → ¬Marked w.disk a := by
      intro a ha
      rw [hnew] at ha
      exact hcreated.not_marked hsize ha
    have hmarked : ∀ a, Marked s.disk a ↔ Marked w.disk a ∨ a ∈ owns s.disk (.entry slot) := by
      rw [hnew]
      exact hcreated.marked_iff hsize
    refine ⟨slot, _, w₃, hcreated.slot_lt, hcreated.unused, rfl, hnotMarked, hmarked, hremove, hholds₂, honly, ?_⟩
    intro heq
    subst heq
    constructor
    . intro a
      rw [honly.marked_iff]
      constructor
      . intro ⟨hold, hnotMem⟩
        cases (hmarked a).1 hold with
        | inl hbefore => exact hbefore
        | inr hmem => exact absurd hmem hnotMem
      . intro hbefore
        exact ⟨(hmarked a).2 (.inl hbefore), fun hmem => hnotMarked a hmem hbefore⟩
    . intro key sector
      apply exists_congr
      intro i
      apply and_congr_right
      intro hi
      by_cases hslot : i = slot
      . subst hslot
        have hafter := honly.unused
        have hbefore := hcreated.unused
        constructor
        . intro hentry
          rw [hentry] at hafter
          cases hafter
        . intro hentry
          rw [hentry] at hbefore
          cases hbefore
      . have hentry : entryOf w₃.disk i = entryOf w.disk i :=
          (honly.entry i hi hslot).trans (hcreated.entry_of_ne hi hslot)
        rw [hentry]

theorem remove_undoes_create_of_blank
    : ∃ w w₁ w₃, w.Start ∧
        Session.perform (.create ⟨[97], by decide⟩ 300) w = .ok (some (.success true), w₁) ∧
        Session.perform (.remove ⟨[97], by decide⟩) w₁ = .ok (some (.success true), w₃) ∧
        ∀ a, Marked w₃.disk a ↔ Marked w.disk a := by
  obtain ⟨fs, s₀, hformat, hformatted, _⟩ :=
    FileSystem.returns_format (s := { disk := fun _ _ => 0, memory := fun _ _ => 0 })
  have hstart : Session.Start _ := ⟨_, fs, s₀, hformat, rfl⟩
  have hinv := Session.Inv.start hstart
  have hsize : (300 : Int32).toInt ≤ maxFileSize := by decide
  have hround : max 0 (divRoundUp (300 : Int32).toInt sectorSize) < 1019 := by decide
  have hcan := canCreate_of_empty hformatted (fun _ => Iff.rfl) hformatted.empty ⟨[97], by decide⟩ hround
  obtain ⟨w₁, _, _, hcreate, _⟩ := hinv.perform_create hsize hcan
  obtain ⟨slot, new, w₃, _, _, _, _, _, hremove, _, _, hsame⟩ := remove_undoes_create hinv hsize hcreate .refl
  exact ⟨_, w₁, w₃, hstart, hcreate, hremove, (hsame rfl).1⟩

end Filesys

end Nachos
