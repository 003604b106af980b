import Mathlib.Logic.Function.Basic
import Nachos.Filesys.OpenFile

/-!
This module contains `directory.cc`: a directory is a table of entries whose keys are the first
characters of the names.
-/

namespace Nachos

namespace Filesys

open Function (update)

def fileNameMaxLen : Nat := 9

/--
A `char *`: all that the code can read are the characters up to the NUL.
-/
structure Name where
  chars : List (BitVec 8)
  nul_notMem : 0 ∉ chars

namespace Name

def bytes (name : Name) : Buffer :=
  Buffer.ofChars name.chars

def key (name : Name) : List (BitVec 8) :=
  name.chars.take fileNameMaxLen

end Name

structure Directory where
  tableSize : Nat
  table : Buffer

namespace Directory

/--
`sizeof(DirectoryEntry)`: `inUse` is at 0, `sector` at 4 and `name` at 8.
-/
def entrySize : Nat := 20

def inUse (d : Directory) (i : Nat) : Bool :=
  d.table (i * entrySize) != 0

def sector (d : Directory) (i : Nat) : Int :=
  d.table.int (i * entrySize + 4)

def name (d : Directory) (i : Nat) : Buffer :=
  d.table.drop (i * entrySize + 8)

def setInUse (d : Directory) (i : Nat) (inUse : Bool) : Directory :=
  { d with table := update d.table (i * entrySize) (if inUse then 1 else 0) }

def setSector (d : Directory) (i : Nat) (sector : Int) : Directory :=
  { d with table := d.table.blit (i * entrySize + 4) (Buffer.ofWords fun _ => .ofInt 32 sector) 4 }

def setName (d : Directory) (i : Nat) (name : Name) : Directory :=
  { d with table := d.table.blit (i * entrySize + 8) name.bytes fileNameMaxLen }

def ofSize (size : Nat) : FS Directory := do
  let memory ← new
  return (List.range size).foldl (fun d i => d.setInUse i false) { tableSize := size, table := memory }

def numBytes (d : Directory) : Int :=
  (BitVec.ofInt 32 (d.tableSize * entrySize : Nat)).toInt

def fetchFrom (d : Directory) (file : OpenFile) : FS Directory := do
  let (n, data) ← file.readAt d.numBytes 0
  return { d with table := d.table.blit 0 data n.toNat }

def writeBack (d : Directory) (file : OpenFile) : FS Unit := do
  let _ ← file.writeAt d.table d.numBytes 0

def findIndex (d : Directory) (name : Name) : Option Nat :=
  (List.range d.tableSize).find? fun i => d.inUse i && (d.name i).strncmp name.bytes fileNameMaxLen == 0

def find (d : Directory) (name : Name) : Int :=
  match d.findIndex name with
  | some i => d.sector i
  | none => -1

def add (d : Directory) (name : Name) (newSector : Int) : Bool × Directory :=
  if (d.findIndex name).isSome then
    (false, d)
  else
    match (List.range d.tableSize).find? fun i => !d.inUse i with
    | some i => (true, ((d.setInUse i true).setName i name).setSector i newSector)
    | none => (false, d)

def remove (d : Directory) (name : Name) : Bool × Directory :=
  match d.findIndex name with
  | some i => (true, d.setInUse i false)
  | none => (false, d)

/-! ### The entries -/

@[ext]
structure Entry where
  inUse : Bool
  sector : Int
  key : List (BitVec 8)

def key (d : Directory) (i : Nat) : List (BitVec 8) :=
  (d.name i).str fileNameMaxLen

/--
`name[FileNameMaxLen]`, which lookups do not see.
-/
def spare (d : Directory) (i : Nat) : BitVec 8 :=
  d.name i fileNameMaxLen

def entry (d : Directory) (i : Nat) : Entry where
  inUse := d.inUse i
  sector := d.sector i
  key := d.key i

def Entry.Matches (e : Entry) (name : Name) : Prop :=
  e.inUse = true ∧ e.key = name.key

variable {d d' : Directory} {i j : Nat}

theorem entrySize_eq : entrySize = 20 := rfl

theorem fileNameMaxLen_eq : fileNameMaxLen = 9 := rfl

theorem inUse_congr (h : d.table (i * entrySize) = d'.table (i * entrySize)) : d.inUse i = d'.inUse i := by
  unfold inUse
  rw [h]

theorem sector_congr (h : ∀ k, i * entrySize + 4 ≤ k → k < i * entrySize + 4 + 4 → d.table k = d'.table k)
    : d.sector i = d'.sector i := by
  apply Buffer.int_congr
  exact h

theorem key_congr (h : ∀ k, i * entrySize + 8 ≤ k → k < i * entrySize + 8 + fileNameMaxLen → d.table k = d'.table k)
    : d.key i = d'.key i := by
  apply Buffer.str_congr
  intro k hk
  apply h
  . omega
  . omega

theorem entry_congr (h : ∀ k, i * entrySize ≤ k → k < (i + 1) * entrySize → d.table k = d'.table k)
    : d.entry i = d'.entry i := by
  rw [entrySize_eq] at h
  have hinUse : d.inUse i = d'.inUse i := by
    apply inUse_congr
    exact h _ (by rw [entrySize_eq]) (by rw [entrySize_eq]; omega)
  have hsector : d.sector i = d'.sector i := by
    apply sector_congr
    intro k hk hk'
    rw [entrySize_eq] at hk hk'
    exact h k (by omega) (by omega)
  have hkey : d.key i = d'.key i := by
    apply key_congr
    intro k hk hk'
    rw [entrySize_eq] at hk hk'
    rw [fileNameMaxLen_eq] at hk'
    exact h k (by omega) (by omega)
  exact Entry.ext hinUse hsector hkey

theorem entry_eq_update {e : Entry} (hinUse : d'.inUse i = e.inUse) (hsector : d'.sector i = e.sector)
    (hkey : d'.key i = e.key)
    (hkept : ∀ k, k < i * entrySize ∨ (i + 1) * entrySize ≤ k → d'.table k = d.table k)
    : d'.entry = update d.entry i e := by
  funext j
  by_cases hji : j = i
  . subst hji
    rw [Function.update_self]
    exact Entry.ext hinUse hsector hkey
  . rw [Function.update_of_ne hji]
    apply entry_congr
    intro k hk hk'
    rw [entrySize_eq] at hk hk'
    exact hkept k (by rw [entrySize_eq]; omega)

theorem entry_setInUse (d : Directory) (i : Nat) (b : Bool)
    : (d.setInUse i b).entry = update d.entry i { d.entry i with inUse := b } := by
  have hkept (k : Nat) (hk : k ≠ i * entrySize) : (d.setInUse i b).table k = d.table k := by
    unfold setInUse
    exact Function.update_of_ne hk _ _
  apply entry_eq_update
  . unfold setInUse inUse
    dsimp only
    rw [Function.update_self]
    cases b
    . rfl
    . rfl
  . apply sector_congr
    intro k hk hk'
    exact hkept k (by omega)
  . apply key_congr
    intro k hk hk'
    exact hkept k (by omega)
  . intro k hk
    rw [entrySize_eq] at hk
    exact hkept k (by rw [entrySize_eq]; omega)

theorem entry_setSector (d : Directory) (i : Nat) {sector : Int} (hlower : -2 ^ 31 ≤ sector) (hupper : sector < 2 ^ 31)
    : (d.setSector i sector).entry = update d.entry i { d.entry i with sector } := by
  have hkept (k : Nat) (hk : k < i * entrySize + 4 ∨ i * entrySize + 4 + 4 ≤ k)
      : (d.setSector i sector).table k = d.table k := by
    unfold setSector
    cases hk with
    | inl hk => exact Buffer.blit_apply_of_lt_offset _ _ hk
    | inr hk => exact Buffer.blit_apply_of_le _ _ hk
  apply entry_eq_update
  . apply inUse_congr
    exact hkept _ (by omega)
  . unfold setSector Directory.sector
    dsimp only
    rw [Buffer.int_blit]
    exact (Buffer.int_ofWords _ 0).trans (Buffer.toInt_ofInt_of_int hlower hupper)
  . apply key_congr
    intro k hk hk'
    exact hkept k (by omega)
  . intro k hk
    rw [entrySize_eq] at hk
    exact hkept k (by rw [entrySize_eq]; omega)

theorem entry_setName (d : Directory) (i : Nat) (name : Name)
    : (d.setName i name).entry = update d.entry i { d.entry i with key := name.key } := by
  have hkept (k : Nat) (hk : k < i * entrySize + 8 ∨ i * entrySize + 8 + fileNameMaxLen ≤ k)
      : (d.setName i name).table k = d.table k := by
    unfold setName
    cases hk with
    | inl hk => exact Buffer.blit_apply_of_lt_offset _ _ hk
    | inr hk => exact Buffer.blit_apply_of_le _ _ hk
  apply entry_eq_update
  . apply inUse_congr
    exact hkept _ (by omega)
  . apply sector_congr
    intro k hk hk'
    exact hkept k (by omega)
  . unfold Name.key
    rw [← Buffer.str_ofChars name.nul_notMem]
    apply Buffer.str_congr
    intro k hk
    unfold setName Directory.name Buffer.drop Buffer.blit
    dsimp only
    rw [if_pos (by omega), Nat.add_sub_cancel_left]
    rfl
  . intro k hk
    rw [entrySize_eq] at hk
    exact hkept k (by rw [entrySize_eq, fileNameMaxLen_eq]; omega)

/-! ### The byte behind the names -/

section

variable (d : Directory) (i j : Nat)

theorem spare_setInUse (b : Bool) : (d.setInUse i b).spare j = d.spare j := by
  apply Function.update_of_ne
  rw [entrySize_eq, fileNameMaxLen_eq]
  omega

theorem spare_blit {offset n : Nat} (src : Buffer) (h : offset + n ≤ 8 + fileNameMaxLen)
    : spare { d with table := d.table.blit (i * entrySize + offset) src n } j = d.spare j := by
  unfold spare name Buffer.drop Buffer.blit
  rw [entrySize_eq, fileNameMaxLen_eq] at *
  dsimp only
  rw [if_neg (by omega)]

theorem spare_setName (name : Name) : (d.setName i name).spare j = d.spare j :=
  spare_blit d i j _ (Nat.le_refl _)

theorem spare_setSector (sector : Int) : (d.setSector i sector).spare j = d.spare j :=
  spare_blit d i j _ (by decide)

theorem spare_add (name : Name) (newSector : Int) : (d.add name newSector).2.spare j = d.spare j := by
  unfold add
  split
  next => rfl
  next =>
    split
    next => rw [spare_setSector, spare_setName, spare_setInUse]
    next => rfl

theorem spare_remove (name : Name) : (d.remove name).2.spare j = d.spare j := by
  unfold remove
  split
  next => rw [spare_setInUse]
  next => rfl

theorem spare_foldl_setInUse (l : List Nat)
    : (l.foldl (fun d i => d.setInUse i false) d).spare j = d.spare j := by
  induction l generalizing d with
  | nil => rfl
  | cons i l ih => rw [List.foldl_cons, ih, spare_setInUse]

end

/-! ### Looking up names -/

variable {name : Name}

theorem strncmp_eq_zero_iff (d : Directory) (i : Nat) (name : Name)
    : (d.name i).strncmp name.bytes fileNameMaxLen = 0 ↔ d.key i = name.key := by
  rw [Buffer.strncmp_eq_zero_iff]
  unfold Name.bytes
  rw [Buffer.str_ofChars name.nul_notMem]
  rfl

theorem findIndex_cases (d : Directory) (name : Name)
    : (∃ i, i < d.tableSize ∧ (d.entry i).Matches name ∧ d.findIndex name = some i) ∨
        (∀ i, i < d.tableSize → ¬(d.entry i).Matches name) ∧ d.findIndex name = none := by
  cases h : d.findIndex name with
  | some i =>
    apply Or.inl
    have hmem := List.mem_range.1 (List.mem_of_find?_eq_some h)
    have hfound := List.find?_some h
    simp only [Bool.and_eq_true, beq_iff_eq, strncmp_eq_zero_iff] at hfound
    exact ⟨i, hmem, hfound, rfl⟩
  | none =>
    apply Or.inr
    refine ⟨?_, rfl⟩
    intro i hi hmatches
    have hnone := List.find?_eq_none.1 h i (List.mem_range.2 hi)
    simp only [Bool.and_eq_true, beq_iff_eq, strncmp_eq_zero_iff] at hnone
    exact hnone hmatches

theorem add_cases (d : Directory) (name : Name) {sector : Int} (hlower : -2 ^ 31 ≤ sector) (hupper : sector < 2 ^ 31)
    : ((d.add name sector).1 = false ∧
          ((∃ i, i < d.tableSize ∧ (d.entry i).Matches name) ∨ ∀ i, i < d.tableSize → (d.entry i).inUse = true)) ∨
        (d.add name sector).1 = true ∧ (∀ i, i < d.tableSize → ¬(d.entry i).Matches name) ∧
          ∃ i, i < d.tableSize ∧ (d.entry i).inUse = false ∧ (d.add name sector).2.tableSize = d.tableSize ∧
            (d.add name sector).2.entry = update d.entry i { inUse := true, sector, key := name.key } := by
  unfold add
  cases d.findIndex_cases name with
  | inl hfound =>
    obtain ⟨i, hi, hmatches, hindex⟩ := hfound
    apply Or.inl
    rw [hindex]
    exact ⟨rfl, .inl ⟨i, hi, hmatches⟩⟩
  | inr hnone =>
    rw [hnone.2]
    simp only [Option.isSome_none, Bool.false_eq_true, if_false]
    cases hfree : (List.range d.tableSize).find? (fun i => !d.inUse i) with
    | none =>
      apply Or.inl
      refine ⟨rfl, .inr ?_⟩
      intro i hi
      have hused := List.find?_eq_none.1 hfree i (List.mem_range.2 hi)
      change d.inUse i = true
      simpa using hused
    | some i =>
      apply Or.inr
      have hi := List.mem_range.1 (List.mem_of_find?_eq_some hfree)
      have hunused : d.inUse i = false := by
        have := List.find?_some hfree
        simpa using this
      refine ⟨rfl, hnone.1, i, hi, hunused, rfl, ?_⟩
      simp only [entry_setSector _ _ hlower hupper, entry_setName, entry_setInUse, Function.update_self,
        Function.update_idem]

theorem entry_remove {i : Nat} (h : d.findIndex name = some i)
    : (d.remove name).1 = true ∧ (d.remove name).2.tableSize = d.tableSize ∧
        (d.remove name).2.entry = update d.entry i { d.entry i with inUse := false } := by
  unfold remove
  rw [h]
  exact ⟨rfl, rfl, entry_setInUse d i false⟩

/-! ### The directory in a file -/

def ofBytes (tableSize : Nat) (b : Buffer) : Directory where
  tableSize := tableSize
  table := b

theorem entry_ofBytes_congr {b b' : Buffer} {n : Nat} (h : ∀ k, k < n * entrySize → b k = b' k) (hi : i < n)
    : (ofBytes n b).entry i = (ofBytes n b').entry i := by
  apply entry_congr
  intro k _ hk
  apply h
  rw [entrySize_eq] at *
  omega

theorem spare_ofBytes_congr {b b' : Buffer} {n : Nat} (h : ∀ k, k < n * entrySize → b k = b' k) (hi : i < n)
    : (ofBytes n b).spare i = (ofBytes n b').spare i := by
  apply h
  rw [entrySize_eq, fileNameMaxLen_eq]
  omega

theorem foldl_setInUse (d : Directory) (l : List Nat)
    : (l.foldl (fun d i => d.setInUse i false) d).tableSize = d.tableSize ∧
        ∀ i, i ∈ l → ((l.foldl (fun d i => d.setInUse i false) d).entry i).inUse = false := by
  induction l using List.reverseRecOn with
  | nil => simp
  | append_singleton l k ih =>
    simp only [List.foldl_append, List.foldl_cons, List.foldl_nil, entry_setInUse]
    refine ⟨ih.1, ?_⟩
    intro i hi
    by_cases hik : i = k
    . simp [hik]
    . have hmem : i ∈ l := by
        simpa [hik] using hi
      rw [Function.update_of_ne hik]
      exact ih.2 i hmem

section

open Exit

variable {s : Store} {file : OpenFile}

theorem Returns.ofSize {n : Nat} {value : Directory → Store → Prop}
    (h : ∀ d s', d.tableSize = n → (∀ i, i < n → (d.entry i).inUse = false) →
      (∀ i, d.spare i = (ofBytes n (s.memory 0)).spare i) → s'.disk = s.disk → value d s')
    : Returns (ofSize n) s value := by
  unfold Directory.ofSize
  rw [returns_bind]
  refine ⟨_, _, rfl, ?_⟩
  dsimp only
  rw [returns_pure]
  have hunused := foldl_setInUse { tableSize := n, table := s.memory 0 } (List.range n)
  apply h
  . exact hunused.1
  . exact fun i hi => hunused.2 i (List.mem_range.2 hi)
  . exact fun i => spare_foldl_setInUse _ i _
  . rfl

theorem numBytes_lt (d : Directory) : d.numBytes < 2 ^ 31 := by
  unfold numBytes
  rw [BitVec.toInt_ofInt]
  exact wrap_lt _

theorem numBytes_eq (hvalid : file.hdr.Valid) (hlength : (d.tableSize * entrySize : Nat) ≤ file.hdr.numBytes)
    : d.numBytes = (d.tableSize * entrySize : Nat) := by
  unfold numBytes
  rw [BitVec.toInt_ofInt]
  exact wrap_eq (by omega) (Int.lt_of_le_of_lt hlength hvalid.size_lt)

theorem returns_fetchFrom (hvalid : file.hdr.Valid) (hlength : (d.tableSize * entrySize : Nat) ≤ file.hdr.numBytes)
    : Returns (d.fetchFrom file) s (fun d' s' =>
        s'.disk = s.disk ∧ d'.tableSize = d.tableSize ∧
        ∀ k, k < d.tableSize * entrySize → d'.table k = file.hdr.byte s.disk k) := by
  unfold fetchFrom
  rw [numBytes_eq hvalid hlength]
  apply (OpenFile.returns_readAt_zero hvalid hlength).bind
  intro r s' ⟨hs, hcount, hdata⟩
  rw [returns_pure, hcount, Int.toNat_natCast]
  refine ⟨hs, rfl, ?_⟩
  intro k hk
  exact (Buffer.blit_apply_of_lt _ _ hk).trans (hdata k hk)

theorem returns_writeBack (hvalid : file.hdr.Valid) (hlength : (d.tableSize * entrySize : Nat) ≤ file.hdr.numBytes)
    : Returns (d.writeBack file) s (fun _ s' =>
        file.hdr.Written d.table 0 (d.tableSize * entrySize) s.disk s'.disk) := by
  unfold writeBack
  rw [numBytes_eq hvalid hlength]
  apply (OpenFile.returns_writeAt_zero hvalid _ hlength).bind
  intro r s' hwritten
  rw [returns_pure]
  exact hwritten

theorem byte_of_written {hdr : FileHeader} {disk disk' : Nat → Buffer}
    (hlength : (d.tableSize * entrySize : Nat) ≤ hdr.numBytes)
    (hwritten : hdr.Written d.table 0 (d.tableSize * entrySize) disk disk') {k : Nat} (hk : k < d.tableSize * entrySize)
    : hdr.byte disk' k = d.table k := by
  rw [hwritten.byte k (by omega), if_pos ⟨Nat.zero_le _, by omega⟩, Nat.sub_zero]

end

end Directory

end Filesys

end Nachos
