import Nachos.Filesys.Limits
import Nachos.Lib.Calls

/-!
This module contains `List`, which prints the names in the directory. `Add` copies at most `FileNameMaxLen`
characters, and it is the byte behind them that has to end a name of this length. No code ever writes to
this byte: it is what was in the memory of the table when the disk was formatted.
-/

namespace Nachos

namespace Filesys

open Transition
open Session (Holds holds_iff_of_created holds_iff_of_removed)

/-! ### `List` -/

namespace Directory

/--
What `printf("%s\n", table[i].name)` prints: all up to a NUL, which may be behind the name or even in a later entry.
It is `none` if the table ends before.
-/
def printed (d : Directory) (i : Nat) : Option (List (BitVec 8)) :=
  (d.name i).cstr (d.tableSize * entrySize - (i * entrySize + 8))

def printName (d : Directory) (i : Nat) : FS (List (BitVec 8)) :=
  match d.printed i with
  | some line => pure line
  | none => Exit.abort .index

def list (d : Directory) : FS (List (List (BitVec 8))) :=
  Exit.loop
    (fun i lines =>
      if d.inUse i then do
        let line ← d.printName i
        return lines ++ [line]
      else
        pure lines)
    [] d.tableSize

def lines (d : Directory) (n : Nat) : List (List (BitVec 8)) :=
  ((List.range n).filter d.inUse).map fun i => (d.printed i).getD []

section

open Exit

variable {d : Directory} {s : Store} {i : Nat}

theorem returns_printName_iff {value : List (BitVec 8) → Store → Prop}
    : Returns (d.printName i) s value ↔ ∃ line, d.printed i = some line ∧ value line s := by
  unfold printName
  cases d.printed i with
  | none =>
    refine iff_of_false ?_ nofun
    intro ⟨line, s', h, _⟩
    cases h
  | some line =>
    rw [returns_pure]
    simp

theorem lines_succ (d : Directory) (n : Nat)
    : d.lines (n + 1) = d.lines n ++ if d.inUse n then [(d.printed n).getD []] else [] := by
  unfold lines
  rw [List.range_succ, List.filter_append, List.map_append]
  cases h : d.inUse n with
  | false => simp [h]
  | true => simp [h]

theorem returns_list_iff {value : List (List (BitVec 8)) → Store → Prop}
    : Returns d.list s value ↔
        (∀ i, i < d.tableSize → d.inUse i = true → (d.printed i).isSome = true) ∧ value (d.lines d.tableSize) s := by
  unfold list
  generalize d.tableSize = n
  induction n generalizing value with
  | zero =>
    unfold loop
    rw [returns_pure]
    simp [lines]
  | succ n ih =>
    unfold loop
    rw [returns_bind, ih, lines_succ]
    cases hinUse : d.inUse n with
    | false =>
      simp only [Bool.false_eq_true, if_false, returns_pure, List.append_nil]
      refine and_congr_left fun _ => ⟨?_, fun h i hi => h i (by omega)⟩
      intro h i hi hi'
      by_cases hin : i = n
      . rw [hin, hinUse] at hi'
        cases hi'
      . exact h i (by omega) hi'
    | true =>
      simp only [if_true, returns_bind, returns_printName_iff, returns_pure]
      constructor
      . rintro ⟨hsome, line, hline, hvalue⟩
        rw [hline]
        refine ⟨?_, hvalue⟩
        intro i hi hi'
        by_cases hin : i = n
        . rw [hin, hline]
          rfl
        . exact hsome i (by omega) hi'
      . rintro ⟨hsome, hvalue⟩
        obtain ⟨line, hline⟩ := Option.isSome_iff_exists.1 (hsome n (Nat.lt_succ_self n) hinUse)
        rw [hline] at hvalue
        exact ⟨fun i hi => hsome i (by omega), line, hline, hvalue⟩

/-! ### Names and their NULs -/

def Terminated (d : Directory) (i : Nat) : Prop :=
  (d.name i).cstr (fileNameMaxLen + 1) = some (d.key i)

theorem length_str_le_iff (d : Directory) (i : Nat)
    : ((d.name i).str (fileNameMaxLen + 1)).length ≤ fileNameMaxLen ↔
        (d.key i).length < fileNameMaxLen ∨ d.spare i = 0 :=
  Buffer.length_str_succ_le_iff _ _

theorem terminated_iff (d : Directory) (i : Nat)
    : d.Terminated i ↔ (d.key i).length < fileNameMaxLen ∨ d.spare i = 0 := by
  rw [← length_str_le_iff]
  constructor
  . intro h
    obtain ⟨hstr, hlt⟩ := Buffer.cstr_eq_some_iff.1 h
    rw [hstr]
    exact Nat.le_of_lt_succ hlt
  . intro h
    exact Buffer.cstr_of_terminated h (Nat.le_refl _)

theorem field_le (hi : i < d.tableSize) : fileNameMaxLen + 1 ≤ d.tableSize * entrySize - (i * entrySize + 8) := by
  rw [entrySize_eq, fileNameMaxLen_eq]
  omega

theorem printed_of_terminated (hi : i < d.tableSize) (h : d.Terminated i) : d.printed i = some (d.key i) := by
  rw [terminated_iff, ← length_str_le_iff] at h
  exact Buffer.cstr_of_terminated h (field_le hi)

theorem length_of_not_terminated (hi : i < d.tableSize) (h : ¬d.Terminated i) {line : List (BitVec 8)}
    (hline : d.printed i = some line)
    : fileNameMaxLen < line.length := by
  rw [terminated_iff, ← length_str_le_iff] at h
  exact Buffer.lt_length_of_cstr h (field_le hi) hline

theorem lines_of_terminated (h : ∀ i, i < d.tableSize → d.inUse i = true → d.Terminated i)
    : d.lines d.tableSize = ((List.range d.tableSize).filter d.inUse).map d.key := by
  apply List.map_congr_left
  intro i hi
  rw [List.mem_filter, List.mem_range] at hi
  rw [printed_of_terminated hi.1 (h i hi.1 hi.2)]
  rfl

end

end Directory

namespace FileSystem

def list (fs : FileSystem) : FS (List (List (BitVec 8))) := do
  let directory ← fs.fetchDirectory
  directory.list

/-! ### Files that come and go -/

inductive Request where
  | create (name : Name) (initialSize : Int32)
  | remove (name : Name)

def Request.name : Request → Name
  | .create name _ => name
  | .remove name => name

def perform (fs : FileSystem) : Request → FS Bool
  | .create name initialSize => fs.create name initialSize.toInt
  | .remove name => fs.remove name

abbrev Event : Type := Request × Bool

def Step (fs : FileSystem) (s : Store) (e : Event) (s' : Store) : Prop :=
  e.1.name.chars.length ≤ fileNameMaxLen ∧ fs.perform e.1 s = .ok (some e.2, s')

def Event.Creates (chars : List (BitVec 8)) (e : Event) : Prop :=
  ∃ name initialSize, e = (.create name initialSize, true) ∧ name.chars = chars

def Event.Removes (chars : List (BitVec 8)) (e : Event) : Prop :=
  ∃ name, e = (.remove name, true) ∧ name.chars = chars

def Present (history : List Event) (chars : List (BitVec 8)) : Prop :=
  Since (fun e => Event.Creates chars e) (fun e => Event.Removes chars e) history

def ListsNames (fs : FileSystem) (history : List Event) (s : Store) : Prop :=
  Exit.Returns fs.list s (fun lines _ => lines.Nodup ∧ ∀ chars, chars ∈ lines ↔ Present history chars)

structure Steady (fs : FileSystem) (spare : Nat → BitVec 8) (disk : Nat → Buffer) : Prop where
  sound : Sound disk
  mounted : fs.Mounted disk
  spare : ∀ i, i < numDirEntries → spareOf disk i = spare i

section

open Exit

variable {fs : FileSystem} {spare : Nat → BitVec 8} {s s' : Store} {e : Event} {history : List Event}
  {chars : List (BitVec 8)}

theorem Step.cases (h : fs.Step s e s') (hsteady : fs.Steady spare s.disk)
    : (e.2 = false ∧ s'.disk = s.disk) ∨
      (∃ name initialSize slot n, e = (.create name initialSize, true) ∧ initialSize.toInt ≤ maxFileSize ∧
        Created s.disk name initialSize.toInt slot n s'.disk) ∨
      ∃ name slot, e = (.remove name, true) ∧ Removed s.disk name slot s'.disk := by
  obtain ⟨request, success⟩ := e
  obtain ⟨_, hrun⟩ := h
  cases request with
  | create name size =>
    have hrun : fs.create name size.toInt s = .ok (some success, s') := hrun
    by_cases hsize : size.toInt ≤ maxFileSize
    . obtain ⟨_, hfalse, htrue⟩ :=
        (returns_iff_of_apply hrun).1 (returns_create hsteady.sound hsteady.mounted name size.le_toInt hsize)
      cases success with
      | false => exact .inl ⟨rfl, hfalse rfl⟩
      | true =>
        obtain ⟨slot, n, hcreated⟩ := htrue rfl
        exact .inr (.inl ⟨name, size, slot, n, rfl, hsize, hcreated⟩)
    . cases create_of_large hsteady.sound hsteady.mounted name (Int.not_le.1 hsize) with
      | inl hoverrun =>
        rw [hoverrun.2] at hrun
        cases hrun
      | inr hfails =>
        obtain ⟨_, s'', hs'', hrun'⟩ := hfails
        rw [hrun'] at hrun
        cases hrun
        exact .inl ⟨rfl, hs''⟩
  | remove name =>
    have hrun : fs.remove name s = .ok (some success, s') := hrun
    obtain ⟨_, hfalse, htrue⟩ := (returns_iff_of_apply hrun).1 (returns_remove hsteady.sound hsteady.mounted name)
    cases success with
    | false => exact .inl ⟨rfl, hfalse rfl⟩
    | true =>
      obtain ⟨slot, hremoved⟩ := htrue rfl
      exact .inr (.inr ⟨name, slot, rfl, hremoved⟩)

theorem Step.steady (h : fs.Step s e s') (hsteady : fs.Steady spare s.disk) : fs.Steady spare s'.disk := by
  rcases h.cases hsteady with ⟨_, hdisk⟩ | ⟨name, size, slot, n, _, hsize, hcreated⟩ | ⟨name, slot, _, hremoved⟩
  . rw [hdisk]
    exact hsteady
  . constructor
    case sound => exact hcreated.sound hsteady.sound hsize
    case mounted =>
      exact hsteady.mounted.congr (hcreated.freeMapSector_eq hsteady.sound) (hcreated.directorySector_eq hsteady.sound)
    case spare =>
      intro i hi
      rw [hcreated.spare i hi, hsteady.spare i hi]
  . constructor
    case sound => exact hremoved.sound hsteady.sound
    case mounted =>
      exact hsteady.mounted.congr (hremoved.freeMapSector_eq hsteady.sound) (hremoved.directorySector_eq hsteady.sound)
    case spare =>
      intro i hi
      rw [hremoved.spare i hi, hsteady.spare i hi]

theorem key_eq_chars {name : Name} (h : name.chars.length ≤ fileNameMaxLen) : name.key = name.chars :=
  List.take_of_length_le h

theorem Step.holds_iff (h : fs.Step s e s') (hsteady : fs.Steady spare s.disk)
    : (∃ i, Holds s'.disk chars i) ↔ e.Creates chars ∨ (∃ i, Holds s.disk chars i) ∧ ¬e.Removes chars := by
  have hlength := h.1
  rcases h.cases hsteady with ⟨hfalse, hdisk⟩ | ⟨name, size, slot, n, heq, _, hcreated⟩ | ⟨name, slot, heq, hremoved⟩
  . have hcreates : ¬e.Creates chars := by
      intro ⟨_, _, heq, _⟩
      rw [heq] at hfalse
      cases hfalse
    have hremoves : ¬e.Removes chars := by
      intro ⟨_, heq, _⟩
      rw [heq] at hfalse
      cases hfalse
    simp only [hdisk, hcreates, hremoves, false_or, not_false_eq_true, and_true]
  . subst heq
    have hkey := key_eq_chars hlength
    simp only [holds_iff_of_created hcreated]
    constructor
    . intro ⟨i, hholds⟩
      cases hholds with
      | inl hholds => exact .inr ⟨⟨i, hholds⟩, nofun⟩
      | inr hslot => exact .inl ⟨name, size, rfl, hkey.symm.trans hslot.2.symm⟩
    . intro hor
      cases hor with
      | inl hcreates =>
        obtain ⟨_, _, heq, hchars⟩ := hcreates
        cases heq
        exact ⟨slot, .inr ⟨rfl, hchars.symm.trans hkey.symm⟩⟩
      | inr hold =>
        obtain ⟨⟨i, hholds⟩, _⟩ := hold
        exact ⟨i, .inl hholds⟩
  . subst heq
    have hkey := key_eq_chars hlength
    simp only [holds_iff_of_removed hsteady.sound hremoved]
    constructor
    . intro ⟨i, hholds, hne⟩
      refine .inr ⟨⟨i, hholds⟩, ?_⟩
      intro ⟨_, heq, hchars⟩
      cases heq
      exact hne (hchars.symm.trans hkey.symm)
    . intro hor
      cases hor with
      | inl hcreates =>
        obtain ⟨_, _, heq, _⟩ := hcreates
        cases heq
      | inr hold =>
        obtain ⟨⟨i, hholds⟩, hremoves⟩ := hold
        refine ⟨i, hholds, ?_⟩
        intro heq
        exact hremoves ⟨name, rfl, hkey.symm.trans heq.symm⟩

theorem steady_of_trace (h : Trace fs.Step s history s') (hsteady : fs.Steady spare s.disk)
    : fs.Steady spare s'.disk :=
  h.invariant (P := fun s => fs.Steady spare s.disk) (fun _ _ _ hsteady hstep => hstep.steady hsteady) hsteady

theorem present_iff (h : Trace fs.Step s history s') (hsteady : fs.Steady spare s.disk)
    (hempty : ∀ i, i < numDirEntries → (entryOf s.disk i).inUse = false)
    : (∃ i, Holds s'.disk chars i) ↔ Present history chars := by
  have hnone : ¬∃ i, Holds s.disk chars i := by
    intro ⟨i, hholds⟩
    have hinUse := hholds.inUse
    rw [hempty i hholds.lt] at hinUse
    cases hinUse
  have hrun := h.with_invariant (P := fun s => fs.Steady spare s.disk)
    (fun _ _ _ hsteady hstep => hstep.steady hsteady) hsteady
  apply hrun.iff_since (P := fun s => ∃ i, Holds s.disk chars i) ?_ hnone
  intro s e s' ⟨hsteady, hstep⟩
  exact hstep.holds_iff hsteady

theorem length_of_present (h : Trace fs.Step s history s') (hpresent : Present history chars)
    : chars.length ≤ fileNameMaxLen := by
  obtain ⟨before, e, after, heq, ⟨name, size, rfl, hchars⟩, _⟩ := hpresent
  rw [heq] at h
  obtain ⟨s₁, s₂, _, hstep⟩ := h.of_mid
  rw [← hchars]
  exact hstep.1

end

end FileSystem

/-! ### When the names are printed -/

def directoryOf (disk : Nat → Buffer) : Directory :=
  .ofBytes numDirEntries ((headerAt disk directorySector).byte disk)

def Directory.SpareClear (d : Directory) (spare : Nat → BitVec 8) : Prop :=
  ∀ i, i < d.tableSize → (d.entry i).inUse = true → (d.entry i).key.length = fileNameMaxLen → spare i = 0

theorem Directory.terminated_all_iff (d : Directory) {spare : Nat → BitVec 8}
    (hspare : ∀ i, i < d.tableSize → d.spare i = spare i)
    : (∀ i, i < d.tableSize → (d.entry i).inUse = true → d.Terminated i) ↔ d.SpareClear spare := by
  have hlength (i : Nat) : (d.key i).length ≤ fileNameMaxLen := Buffer.length_str_le _ _
  constructor
  . intro h i hi hinUse hfull
    have hor := (d.terminated_iff i).1 (h i hi hinUse)
    rw [← hspare i hi]
    cases hor with
    | inl hlt =>
      have hfull : (d.key i).length = fileNameMaxLen := hfull
      omega
    | inr hclear => exact hclear
  . intro h i hi hinUse
    rw [terminated_iff, hspare i hi]
    by_cases hfull : (d.key i).length = fileNameMaxLen
    . exact .inr (h i hi hinUse hfull)
    . have hle := hlength i
      exact .inl (by omega)

section

open Exit

variable {fs : FileSystem} {spare : Nat → BitVec 8} {s s' : Store} {history : List FileSystem.Event}

theorem Directory.holds_iff {d : Directory} {disk : Nat → Buffer} {chars : List (BitVec 8)} {i : Nat}
    (hsize : d.tableSize = numDirEntries) (hentry : ∀ i, i < numDirEntries → d.entry i = entryOf disk i)
    : Holds disk chars i ↔ i ∈ (List.range d.tableSize).filter d.inUse ∧ d.key i = chars := by
  rw [List.mem_filter, List.mem_range, hsize]
  constructor
  . intro ⟨hi, hinUse, hkey⟩
    rw [← hentry i hi] at hinUse hkey
    exact ⟨⟨hi, hinUse⟩, hkey⟩
  . intro ⟨⟨hi, hinUse⟩, hkey⟩
    refine ⟨hi, ?_, ?_⟩
    . rw [← hentry i hi]
      exact hinUse
    . rw [← hentry i hi]
      exact hkey

theorem Directory.spareClear_congr {d d' : Directory} (hsize : d.tableSize = d'.tableSize)
    (hentry : ∀ i, i < d.tableSize → d.entry i = d'.entry i) (spare : Nat → BitVec 8)
    : d.SpareClear spare ↔ d'.SpareClear spare := by
  unfold SpareClear
  rw [← hsize]
  apply forall_congr'
  intro i
  apply imp_congr_right
  intro hi
  rw [hentry i hi]

theorem FileSystem.listsNames_iff (h : Trace fs.Step s history s') (hsteady : fs.Steady spare s.disk)
    (hempty : ∀ i, i < numDirEntries → (entryOf s.disk i).inUse = false)
    : fs.ListsNames history s' ↔ (directoryOf s'.disk).SpareClear spare := by
  have hsteady' := steady_of_trace h hsteady
  obtain ⟨d, s₁, hfetch, _, hsize, hentry, hspare⟩ := returns_fetchDirectory hsteady'.sound.system hsteady'.mounted
  have hclear : d.SpareClear spare ↔ (directoryOf s'.disk).SpareClear spare :=
    Directory.spareClear_congr hsize (fun i hi => hentry i (hsize ▸ hi)) spare
  rw [← hclear, ← d.terminated_all_iff (fun i hi => (hspare i (hsize ▸ hi)).trans (hsteady'.spare i (hsize ▸ hi)))]
  unfold ListsNames FileSystem.list
  rw [returns_bind, returns_iff_of_apply hfetch, Directory.returns_list_iff]
  constructor
  . intro ⟨hsome, _, hmem⟩ i hi hinUse
    by_contra hterminated
    obtain ⟨line, hline⟩ := Option.isSome_iff_exists.1 (hsome i hi hinUse)
    have hlong := Directory.length_of_not_terminated hi hterminated hline
    have hshort : line.length ≤ fileNameMaxLen := by
      apply length_of_present h
      rw [← hmem]
      unfold Directory.lines
      rw [List.mem_map]
      refine ⟨i, ?_, by rw [hline]; rfl⟩
      rw [List.mem_filter, List.mem_range]
      exact ⟨hi, hinUse⟩
    omega
  . intro hterminated
    rw [Directory.lines_of_terminated hterminated]
    refine ⟨?_, ?_, ?_⟩
    . intro i hi hinUse
      rw [Directory.printed_of_terminated hi (hterminated i hi hinUse)]
      rfl
    . apply List.Nodup.map_on ?_ (List.nodup_range.filter _)
      intro i hi j hj hkey
      have hi' : Holds s'.disk (d.key i) i := (Directory.holds_iff hsize hentry).2 ⟨hi, rfl⟩
      have hj' : Holds s'.disk (d.key i) j := (Directory.holds_iff hsize hentry).2 ⟨hj, hkey.symm⟩
      exact hi'.unique hsteady'.sound hj'
    . intro chars
      rw [← present_iff h hsteady hempty, List.mem_map]
      apply exists_congr
      intro i
      exact (Directory.holds_iff hsize hentry).symm

theorem FileSystem.steady_of_format {st : Store} (hformat : format st = .ok (some fs, s))
    : fs.Steady (Directory.ofBytes numDirEntries (st.memory 1)).spare s.disk ∧
        ∀ i, i < numDirEntries → (entryOf s.disk i).inUse = false := by
  obtain ⟨⟨hformatted, hmounted⟩, hspare⟩ := (returns_iff_of_apply hformat).1 returns_format_spare
  exact ⟨⟨hformatted.sound, hmounted, hspare⟩, hformatted.empty⟩

theorem list_exact_iff {st : Store} (hformat : FileSystem.format st = .ok (some fs, s))
    (hrun : Trace fs.Step s history s')
    : (fs.ListsNames history s' ↔
        ∀ i, i < numDirEntries → (entryOf s'.disk i).inUse = true →
          (entryOf s'.disk i).key.length = fileNameMaxLen →
          st.memory 1 (i * Directory.entrySize + 8 + fileNameMaxLen) = 0) ∧
      (fs.ListsNames history s' ↔
        ∀ i, i < numDirEntries → (entryOf s'.disk i).inUse = true → (directoryOf s'.disk).Terminated i) := by
  obtain ⟨hsteady, hempty⟩ := FileSystem.steady_of_format hformat
  have hlists := FileSystem.listsNames_iff hrun hsteady hempty
  have hsteady' := FileSystem.steady_of_trace hrun hsteady
  exact ⟨hlists, hlists.trans ((directoryOf s'.disk).terminated_all_iff hsteady'.spare).symm⟩

theorem FileSystem.create_of_format {st : Store} (hformat : FileSystem.format st = .ok (some fs, s)) (name : Name)
    : ∃ s', fs.create name 0 s = .ok (some true, s') := by
  obtain ⟨hformatted, hmounted⟩ := (returns_iff_of_apply hformat).1 returns_format
  have hround : max 0 (divRoundUp 0 sectorSize) < 1019 := by decide
  have hcan := canCreate_of_empty hformatted (fun _ => Iff.rfl) hformatted.empty name hround
  have hsize : (0 : Int) ≤ maxFileSize := by decide
  obtain ⟨success, s', hrun, hiff, _⟩ := returns_create hformatted.sound hmounted name (by decide) hsize
  rw [hiff.2 hcan] at hrun
  exact ⟨s', hrun⟩

end

/-! ### A name of nine characters -/

def nineChars : Name where
  chars := [1, 2, 3, 4, 5, 6, 7, 8, 9]
  nul_notMem := by decide

theorem list_exact_iff_clear
    : ∃ fs s s', FileSystem.format ⟨fun _ _ => 0, fun _ _ => 0⟩ = .ok (some fs, s) ∧
        fs.create nineChars 0 s = .ok (some true, s') ∧
        fs.ListsNames [(.create nineChars 0, true)] s' := by
  obtain ⟨fs, s, hformat, _⟩ := FileSystem.returns_format (s := ⟨fun _ _ => 0, fun _ _ => 0⟩)
  obtain ⟨s', hcreate⟩ := FileSystem.create_of_format hformat nineChars
  have hstep : fs.Step s (.create nineChars 0, true) s' := ⟨by decide, hcreate⟩
  refine ⟨fs, s, s', hformat, hcreate, ?_⟩
  exact (list_exact_iff hformat (.snoc .nil hstep)).1.2 (fun _ _ _ _ => rfl)

theorem present_nineChars (chars : List (BitVec 8))
    : FileSystem.Present [(.create nineChars 0, true)] chars ↔ nineChars.chars = chars := by
  refine (since_snoc [] _).trans ?_
  constructor
  . intro h
    cases h with
    | inl hcreates =>
      obtain ⟨name, size, heq, hchars⟩ := hcreates
      cases heq
      exact hchars
    | inr hbefore => exact absurd hbefore.1 not_since_nil
  . intro h
    exact .inl ⟨nineChars, 0, rfl, h⟩

theorem nine_chars_not_listed
    : ∃ fs s s', FileSystem.format ⟨fun _ _ => 0, fun _ _ => 0x78⟩ = .ok (some fs, s) ∧
        fs.create nineChars 0 s = .ok (some true, s') ∧
        ¬fs.ListsNames [(.create nineChars 0, true)] s' ∧
        ¬Exit.Returns fs.list s' (fun lines _ => lines = [nineChars.chars]) := by
  obtain ⟨fs, s, hformat, _⟩ := FileSystem.returns_format (s := ⟨fun _ _ => 0, fun _ _ => 0x78⟩)
  obtain ⟨s', hcreate⟩ := FileSystem.create_of_format hformat nineChars
  have hstep : fs.Step s (.create nineChars 0, true) s' := ⟨by decide, hcreate⟩
  have hrun : Trace fs.Step s [(.create nineChars 0, true)] s' := .snoc .nil hstep
  obtain ⟨hsteady, hempty⟩ := FileSystem.steady_of_format hformat
  have hlists : ¬fs.ListsNames [(.create nineChars 0, true)] s' := by
    rw [FileSystem.listsNames_iff hrun hsteady hempty]
    intro hclear
    obtain ⟨i, hholds⟩ := (hstep.holds_iff hsteady).2 (.inl ⟨nineChars, 0, rfl, rfl⟩)
    have hspare := hclear i hholds.lt hholds.inUse (congrArg List.length hholds.key_eq)
    cases hspare
  refine ⟨fs, s, s', hformat, hcreate, hlists, ?_⟩
  intro hlines
  apply hlists
  apply hlines.mono
  intro lines _ heq
  subst heq
  refine ⟨List.nodup_singleton _, ?_⟩
  intro chars
  rw [present_nineChars, List.mem_singleton, eq_comm]

end Filesys

end Nachos
