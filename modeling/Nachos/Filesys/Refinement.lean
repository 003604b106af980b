import Nachos.Filesys.NamedFiles
import Nachos.Filesys.Runs

/-!
This module contains the proof that the file system is a finite map from names to arrays of bytes.
-/

namespace Nachos

namespace Filesys

open Function (update)
open NamedFiles (File)
open Session (Holds headerOf)

structure Contains (disk : Nat → Buffer) (i : Nat) (f : File) : Prop where
  length : (headerOf disk i).numBytes = f.length
  byte : ∀ offset : Nat, offset < f.length → (headerOf disk i).byte disk offset = f.byte offset

def Handle.view (w : Session) (h : Handle) : NamedFiles.Handle where
  key := h.key
  position := h.file.seekPosition
  live := decide (w.Live h)

structure Represents (w : Session) (a : NamedFiles) : Prop where
  file : ∀ key i, Holds w.disk key i → ∃ f, a.files.lookup key = some f ∧ Contains w.disk i f
  holds : ∀ key, key ∈ a.files → ∃ i, Holds w.disk key i
  handles : a.handles = w.handles.map (Handle.view w)

/-! ### Files that are not touched -/

section

variable {disk disk' : Nat → Buffer} {name : Name} {key : List (BitVec 8)} {i j slot n : Nat} {size : Int} {f : File}

theorem Contains.congr (hsound : Sound disk) (hholds : Holds disk key i) (h : Contains disk i f)
    (hheader : headerOf disk' i = headerOf disk i)
    (hdisk : ∀ a, a ∈ owns disk (.entry i) → disk' a.toNat = disk a.toNat)
    : Contains disk' i f where
  length := by rw [hheader, h.length]
  byte offset hoffset := by
    have hlength := h.length
    rw [hheader, ← h.byte offset hoffset]
    exact hholds.byte_eq hsound hdisk (by omega)

theorem Contains.created (hsound : Sound disk) (h : Created disk name size slot n disk') (hholds : Holds disk key i)
    (hcontains : Contains disk i f)
    : Contains disk' i f := by
  apply hcontains.congr hsound hholds (Session.headerOf_eq_of_created hsound h hholds)
  intro a ha
  exact h.disk_eq hsound (o := .entry i) nofun nofun ha

theorem Contains.removed (hsound : Sound disk) (h : Removed disk name slot disk') (hholds : Holds disk key i)
    (hkey : key ≠ name.key) (hcontains : Contains disk i f)
    : Contains disk' i f := by
  apply hcontains.congr hsound hholds (Session.headerOf_eq_of_removed hsound h hholds hkey)
  intro a ha
  exact h.disk_eq hsound (o := .entry i) nofun nofun ha

theorem Contains.written {source : Buffer} {p k : Nat} (hsound : Sound disk)
    (h : (headerOf disk j).Written source p k disk disk') {key' : List (BitVec 8)} (hj : Holds disk key' j)
    (hholds : Holds disk key i) (hcontains : Contains disk i f)
    : Contains disk' i (if i = j then f.write source p k else f) := by
  have hkept := Session.kept_of_written hsound hj h
  have hheader := hkept.headerOf_eq hsound hholds.lt hholds.inUse
  by_cases hij : i = j
  . subst hij
    rw [if_pos rfl]
    constructor
    case length => rw [hheader, hcontains.length, File.write]
    case byte =>
      intro offset hoffset
      have hlength := hcontains.length
      dsimp only [File.write] at hoffset ⊢
      rw [hheader, h.byte offset (by omega), hcontains.byte offset hoffset]
  . rw [if_neg hij]
    apply hcontains.congr hsound hholds hheader
    intro a ha
    apply Session.disk_eq_of_written hsound hj h (o := .entry i) _ ha
    intro heq
    cases heq
    exact hij rfl

theorem Created.contains (h : Created disk name size slot n disk') (hsize : 0 ≤ size)
    : Contains disk' slot { length := size.toNat, byte := (headerOf disk' slot).byte disk' } where
  length := by
    obtain ⟨m, hallocated, _⟩ := h.allocated
    unfold headerOf
    rw [h.entry_slot]
    dsimp only
    rw [Int.toNat_natCast, hallocated.numBytes, Int.toNat_of_nonneg hsize]
  byte _ _ := rfl

theorem Contains.byte_of_transferred {numBytes position : Int} (h : Contains disk i f) (hpos : 0 ≤ position) {k : Nat}
    (hk : k < f.transferred numBytes position)
    : (headerOf disk i).byte disk (position.toNat + k) = f.byte (position.toNat + k) := by
  apply h.byte
  unfold File.transferred at hk
  split at hk
  . omega
  . omega

theorem Contains.transferred_eq (h : Contains disk i f) (numBytes position : Int)
    : (headerOf disk i).transferred numBytes position = f.transferred numBytes position := by
  unfold FileHeader.transferred File.transferred
  rw [h.length]

end

/-! ### Every call -/

section

variable {w : Session} {a : NamedFiles} (hinv : w.Inv) (h : Represents w a)

include hinv in
theorem live_create_iff {name : Name} {h : Handle} (hmem : h ∈ w.handles) {store written}
    (hnone : w.current name.key = none)
    : Session.Live
        { w with
          store
          current := update w.current name.key (some w.created)
          created := w.created + 1
          written } h ↔ w.Live h := by
  unfold Session.Live
  dsimp only
  by_cases hkey : h.key = name.key
  . rw [hkey, Function.update_self, hnone]
    constructor
    . intro ⟨_, hid⟩
      exact absurd (hinv.handle_lt h hmem _ hid.symm) (Nat.lt_irrefl _)
    . intro ⟨hsome, hid⟩
      rw [← hid] at hsome
      cases hsome
  . rw [Function.update_of_ne hkey]

theorem live_remove_iff {name : Name} {h : Handle} {store}
    : Session.Live { w with store, current := update w.current name.key none } h ↔ w.Live h ∧ h.key ≠ name.key := by
  unfold Session.Live
  dsimp only
  by_cases hkey : h.key = name.key
  . rw [hkey, Function.update_self]
    constructor
    . intro ⟨hsome, hid⟩
      rw [← hid] at hsome
      cases hsome
    . intro ⟨_, hne⟩
      exact absurd rfl hne
  . rw [Function.update_of_ne hkey]
    simp [hkey]

theorem map_view_seekTo (i : Nat) (position : Int)
    : (w.seekTo i position).handles.map (Handle.view (w.seekTo i position)) =
        (w.handles.map (Handle.view w)).modify i fun h => { h with position } := by
  apply List.ext_getElem?
  intro j
  dsimp only [Session.seekTo]
  rw [List.getElem?_map, List.getElem?_modify, List.getElem?_modify, List.getElem?_map]
  cases w.handles[j]? with
  | none => rfl
  | some h =>
    by_cases hij : i = j
    . simp only [if_pos hij]
      rfl
    . simp only [if_neg hij]
      rfl

include h

theorem Represents.mem_iff (key : List (BitVec 8)) : key ∈ a.files ↔ ∃ i, Holds w.disk key i := by
  constructor
  . intro hmem
    exact h.holds key hmem
  . intro ⟨i, hholds⟩
    obtain ⟨f, hf, _⟩ := h.file key i hholds
    exact Finmap.mem_of_lookup_eq_some hf

theorem Represents.notMem_of_not_holds {key : List (BitVec 8)} (hnone : ∀ i, ¬Holds w.disk key i) : key ∉ a.files := by
  intro hmem
  obtain ⟨i, hholds⟩ := h.holds key hmem
  exact hnone i hholds

theorem Represents.of_disk_eq {s : Store} (hdisk : s.disk = w.disk) : Represents { w with store := s } a := by
  obtain ⟨hfile, hholds, hhandles⟩ := h
  rw [← hdisk] at hfile hholds
  exact ⟨hfile, hholds, hhandles⟩

theorem Represents.seekTo (i : Nat) (position : Int) : Represents (w.seekTo i position) (a.seekTo i position) where
  file := h.file
  holds := h.holds
  handles := by
    rw [map_view_seekTo, ← h.handles]
    rfl

include hinv

theorem Represents.create {name : Name} {size : Int32} {slot n : Nat} {s : Store} {written} (hsize : 0 ≤ size.toInt)
    (hcreated : Created w.disk name size.toInt slot n s.disk)
    : name.key ∉ a.files ∧ Represents
        { w with
          store := s
          current := update w.current name.key (some w.created)
          created := w.created + 1
          written }
        { a with
          files := a.files.insert name.key
            { length := size.toInt.toNat, byte := (headerOf s.disk slot).byte s.disk } } := by
  have hnotMem : name.key ∉ a.files := by
    intro hmem
    obtain ⟨i, hholds⟩ := h.holds _ hmem
    exact hcreated.absent i hholds.lt ⟨hholds.inUse, hholds.key_eq⟩
  refine ⟨hnotMem, ?_, ?_, ?_⟩
  . intro key i hholds
    dsimp only
    cases (Session.holds_iff_of_created hcreated).1 hholds with
    | inl hold =>
      obtain ⟨f, hf, hcontains⟩ := h.file key i hold
      have hkey : key ≠ name.key := by
        intro hkey
        rw [hkey] at hf
        exact hnotMem (Finmap.mem_of_lookup_eq_some hf)
      rw [Finmap.lookup_insert_of_ne _ hkey]
      exact ⟨f, hf, hcontains.created hinv.sound hcreated hold⟩
    | inr hnew =>
      rw [hnew.1, hnew.2, Finmap.lookup_insert]
      exact ⟨_, rfl, hcreated.contains hsize⟩
  . intro key hmem
    rw [Finmap.mem_insert] at hmem
    cases hmem with
    | inl hkey => exact ⟨slot, (Session.holds_iff_of_created hcreated).2 (.inr ⟨rfl, hkey⟩)⟩
    | inr hold =>
      obtain ⟨i, hholds⟩ := h.holds key hold
      exact ⟨i, (Session.holds_iff_of_created hcreated).2 (.inl hholds)⟩
  . dsimp only
    rw [h.handles]
    apply List.map_congr_left
    intro h' hmem
    have hnone : w.current name.key = none := by
      rw [← Option.not_isSome_iff_eq_none, hinv.current_iff, ← h.mem_iff]
      exact hnotMem
    unfold Handle.view
    simp only [live_create_iff hinv hmem hnone]

theorem Represents.remove {name : Name} {slot : Nat} {s : Store} (hremoved : Removed w.disk name slot s.disk)
    : name.key ∈ a.files ∧ Represents { w with store := s, current := update w.current name.key none }
        { files := a.files.erase name.key, handles := a.handles.map (NamedFiles.Handle.close name.key) } := by
  refine ⟨(h.mem_iff _).2 ⟨slot, hremoved.slot_lt, hremoved.found.1, hremoved.found.2⟩, ?_, ?_, ?_⟩
  . intro key i hholds
    dsimp only
    obtain ⟨hold, hkey⟩ := (Session.holds_iff_of_removed hinv.sound hremoved).1 hholds
    obtain ⟨f, hf, hcontains⟩ := h.file key i hold
    rw [Finmap.lookup_erase_ne hkey]
    exact ⟨f, hf, hcontains.removed hinv.sound hremoved hold hkey⟩
  . intro key hmem
    rw [Finmap.mem_erase] at hmem
    obtain ⟨i, hholds⟩ := h.holds key hmem.2
    exact ⟨i, (Session.holds_iff_of_removed hinv.sound hremoved).2 ⟨hholds, hmem.1⟩⟩
  . dsimp only
    rw [h.handles, List.map_map]
    apply List.map_congr_left
    intro h' _
    unfold Handle.view
    simp only [live_remove_iff, Bool.decide_and]
    simp [NamedFiles.Handle.close]

theorem Represents.openFile {key : List (BitVec 8)} {i : Nat} (hholds : Holds w.disk key i)
    : Represents
        { w with
          handles := w.handles ++ [{ file := { hdr := headerOf w.disk i, seekPosition := 0 }, key, id := w.current key }] }
        { a with handles := a.handles ++ [{ key, position := 0, live := true }] } where
  file := h.file
  holds := h.holds
  handles := by
    have hlive : Session.Live w
        { file := { hdr := headerOf w.disk i, seekPosition := 0 }, key, id := w.current key } :=
      ⟨(hinv.current_iff key).2 ⟨i, hholds⟩, rfl⟩
    have hview : Handle.view w { file := { hdr := headerOf w.disk i, seekPosition := 0 }, key, id := w.current key } =
        { key, position := 0, live := true } := by
      unfold Handle.view
      rw [decide_eq_true hlive]
    dsimp only
    rw [h.handles, List.map_append, ← hview]
    rfl

theorem Represents.opened {i : Nat} {h' : Handle} (hhandle : w.handles[i]? = some h') (hlive : w.Live h')
    : ∃ j f, Holds w.disk h'.key j ∧ h'.file.hdr = headerOf w.disk j ∧ Contains w.disk j f ∧
        a.Opened i (Handle.view w h') f := by
  obtain ⟨j, hholds, hhdr⟩ := hinv.holds_of_live hhandle hlive
  obtain ⟨f, hf, hcontains⟩ := h.file _ j hholds
  refine ⟨j, f, hholds, hhdr, hcontains, ?_, ?_, hf⟩
  . rw [h.handles, List.getElem?_map, hhandle]
    rfl
  . exact decide_eq_true hlive

theorem Represents.write {i p k : Nat} {h' : Handle} {f : File} {source : Buffer} {s : Store}
    (hhandle : w.handles[i]? = some h') (hopened : a.Opened i (Handle.view w h') f) (hlive : w.Live h')
    (hwritten : h'.file.hdr.Written source p k w.disk s.disk)
    : Represents (({ w with store := s } : Session).stamp h' p k)
        { a with files := a.files.insert h'.key (f.write source p k) } := by
  obtain ⟨j, hj, hhdr⟩ := hinv.holds_of_live hhandle hlive
  rw [hhdr] at hwritten
  have hkept := Session.kept_of_written hinv.sound hj hwritten
  constructor
  case file =>
    intro key i' hholds
    have hold := (hkept.holds_iff hinv.sound).1 hholds
    obtain ⟨f', hf', hcontains⟩ := h.file key i' hold
    have hcontains' := hcontains.written hinv.sound hwritten hj hold
    dsimp only
    by_cases hkey : key = h'.key
    . subst hkey
      have hfile : f' = f := by
        have hf := hopened.file
        dsimp only [Handle.view] at hf
        rw [hf'] at hf
        exact Option.some.inj hf
      rw [if_pos (hold.unique hinv.sound hj), hfile] at hcontains'
      rw [Finmap.lookup_insert]
      exact ⟨_, rfl, hcontains'⟩
    . have hne : i' ≠ j := by
        intro heq
        rw [heq] at hold
        exact hkey (hold.key_eq.symm.trans hj.key_eq)
      rw [if_neg hne] at hcontains'
      rw [Finmap.lookup_insert_of_ne _ hkey]
      exact ⟨f', hf', hcontains'⟩
  case holds =>
    intro key hmem
    rw [Finmap.mem_insert] at hmem
    have hold : ∃ i, Holds w.disk key i := by
      cases hmem with
      | inl hkey =>
        rw [hkey]
        exact ⟨j, hj⟩
      | inr hold => exact h.holds key hold
    obtain ⟨i', hholds⟩ := hold
    exact ⟨i', (hkept.holds_iff hinv.sound).2 hholds⟩
  case handles => exact h.handles

theorem Represents.outcome {c : Call} {r : Result} {w' : Session} (hsized : c.Sized) (houtcome : w.Outcome c r w')
    : ∃ a', NamedFiles.Step a (c, r) a' ∧ Represents w' a' := by
  cases houtcome with
  | create hsize hcreated =>
    obtain ⟨habsent, hrepresents⟩ := h.create hinv hsized hcreated
    exact ⟨_, .create _ habsent (Int.toNat_of_nonneg hsized), hrepresents⟩
  | createFail hdisk hcannot => exact ⟨a, .createFail, h.of_disk_eq hdisk⟩
  | @openFile name i s hdisk hholds =>
    have hmem := (h.mem_iff _).2 ⟨i, hholds⟩
    have hlength : w.handles.length = a.handles.length := by rw [h.handles, List.length_map]
    rw [hlength]
    refine ⟨_, .openFile hmem, ?_⟩
    have hopen : Represents _ _ := h.openFile hinv hholds
    exact hopen.of_disk_eq hdisk
  | openFail hdisk hnone => exact ⟨a, .openFail (h.notMem_of_not_holds hnone), h.of_disk_eq hdisk⟩
  | remove hremoved =>
    obtain ⟨hmem, hrepresents⟩ := h.remove hinv hremoved
    exact ⟨_, .remove hmem, hrepresents⟩
  | removeFail hdisk hnone => exact ⟨a, .removeFail (h.notMem_of_not_holds hnone), h.of_disk_eq hdisk⟩
  | mount hdisk hmounted =>
    obtain ⟨hfile, hholds, hhandles⟩ := h.of_disk_eq hdisk
    exact ⟨a, .mount, hfile, hholds, hhandles⟩
  | readAt hdisk hhandle hlive hpos hcount hbytes =>
    obtain ⟨j, f, hholds, hhdr, hcontains, hopened⟩ := h.opened hinv hhandle hlive
    rw [hhdr, hcontains.transferred_eq] at hcount
    subst hcount
    refine ⟨a, .readAt hopened ?_, h.of_disk_eq hdisk⟩
    intro k hk
    rw [hbytes k hk, hhdr]
    exact hcontains.byte_of_transferred hpos hk
  | writeAt hhandle hlive hpos hcount hwritten =>
    obtain ⟨j, f, hholds, hhdr, hcontains, hopened⟩ := h.opened hinv hhandle hlive
    rw [hhdr, hcontains.transferred_eq] at hcount
    subst hcount
    exact ⟨_, .writeAt hopened, h.write hinv hhandle hopened hlive hwritten⟩
  | read hdisk hhandle hlive hpos hover hcount hbytes =>
    obtain ⟨j, f, hholds, hhdr, hcontains, hopened⟩ := h.opened hinv hhandle hlive
    rw [hhdr, hcontains.transferred_eq] at hcount
    subst hcount
    refine ⟨_, .read hopened ?_, (h.of_disk_eq hdisk).seekTo _ _⟩
    intro k hk
    rw [hbytes k hk, hhdr]
    exact hcontains.byte_of_transferred hpos hk
  | write hhandle hlive hpos hover hcount hwritten =>
    obtain ⟨j, f, hholds, hhdr, hcontains, hopened⟩ := h.opened hinv hhandle hlive
    rw [hhdr, hcontains.transferred_eq] at hcount
    subst hcount
    exact ⟨_, .write hopened, (h.write hinv hhandle hopened hlive hwritten).seekTo _ _⟩
  | seek => exact ⟨_, .seek, h.seekTo _ _⟩
  | @length i h' hhandle =>
    by_cases hlive : w.Live h'
    . obtain ⟨j, f, hholds, hhdr, hcontains, hopened⟩ := h.opened hinv hhandle hlive
      have hlength : h'.file.length = f.length := by
        unfold OpenFile.length FileHeader.fileLength
        rw [hhdr, hcontains.length]
      rw [hlength]
      exact ⟨a, .length hopened, h⟩
    . refine ⟨a, .lengthOther ?_, h⟩
      intro h'' f hopened
      have hview := hopened.handle
      rw [h.handles, List.getElem?_map, hhandle] at hview
      cases hview
      exact hlive (of_decide_eq_true hopened.live)
  | lengthNone hhandle =>
    refine ⟨a, .lengthOther ?_, h⟩
    intro h'' f hopened
    have hview := hopened.handle
    rw [h.handles, List.getElem?_map, hhandle] at hview
    cases hview

end

theorem Represents.start {w : Session} (h : w.Start) : Represents w .empty := by
  have hinv := Session.Inv.start h
  have hnone : ∀ key i, ¬Holds w.disk key i := by
    intro key i hholds
    have hsome := (hinv.current_iff key).2 ⟨i, hholds⟩
    obtain ⟨s, fs, s', _, rfl⟩ := h
    cases hsome
  refine ⟨?_, ?_, ?_⟩
  . intro key i hholds
    exact absurd hholds (hnone key i)
  . intro key hmem
    exact absurd hmem Finmap.notMem_empty
  . obtain ⟨s, fs, s', _, rfl⟩ := h
    rfl

open Session (Event)
open Transition (Trace)

theorem refines_namedFiles
    : (∀ s, ∃ fs s', FileSystem.format s = .ok (some fs, s')) ∧
        ∀ w₀ events w, Session.Start w₀ → Trace Event w₀ events w →
          (∃ a, Trace NamedFiles.Step .empty events a ∧ Represents w a) ∧
          ∀ c, w.Legal c → c.Sized → ∃ r w', Event w (c, r) w' := by
  constructor
  . intro s
    obtain ⟨fs, s', hrun, _⟩ := FileSystem.returns_format (s := s)
    exact ⟨fs, s', hrun⟩
  . intro w₀ events w hstart htrace
    have hstep : ∀ w e w' a, w.Inv ∧ Represents w a → Event w e w' →
        ∃ a', NamedFiles.Step a e a' ∧ w'.Inv ∧ Represents w' a' := by
      intro w e w' a ⟨hinv, h⟩ ⟨hlegal, hsized, hrun⟩
      have houtcome := hinv.outcome_of_run hlegal hrun
      obtain ⟨a', hstep, h'⟩ := h.outcome hinv hsized houtcome
      exact ⟨a', hstep, hinv.outcome houtcome, h'⟩
    obtain ⟨a, hrun, hinv, hrepresents⟩ := htrace.simulation hstep ⟨Session.Inv.start hstart, .start hstart⟩
    refine ⟨⟨a, hrun, hrepresents⟩, ?_⟩
    intro c hlegal hsized
    obtain ⟨r, w', hperform, _⟩ := hinv.returns_perform hlegal
    exact ⟨r, w', hlegal, hsized, hperform⟩

theorem refines_namedFiles_lifecycle
    : ∃ (w₀ w : Session) (bytes : Buffer) (a : NamedFiles),
        let events : List (Call × Result) :=
          [(.create ⟨[97], by decide⟩ 300, .success true), (.openFile ⟨[97], by decide⟩, .handle (some 0)),
            (.writeAt 0 (fun _ => 5) 3 127, .count 3), (.readAt 0 3 127, .data 3 bytes),
            (.remove ⟨[97], by decide⟩, .success true)]
        w₀.Start ∧ Trace Event w₀ events w ∧ Trace NamedFiles.Step .empty events a ∧ Represents w a ∧
          bytes.take 3 = [5, 5, 5] := by
  obtain ⟨w₀, w₁, w, bytes, hstart, htrace₁, htrace₂, hbytes⟩ := exists_lifecycle ⟨[97], by decide⟩ fun _ => 5
  have htrace := htrace₁.append htrace₂
  obtain ⟨⟨a, hfiles, hrepresents⟩, _⟩ := refines_namedFiles.2 _ _ _ hstart htrace
  exact ⟨w₀, w, bytes, a, hstart, htrace, hfiles, hrepresents, Buffer.take_congr hbytes⟩

end Filesys

end Nachos
