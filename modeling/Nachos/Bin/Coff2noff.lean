import Mathlib.Data.Set.Lattice
import Mathlib.Data.UInt
import Nachos.Lib.Bytes

/-!
This module contains `coff2noff.c`, which converts a COFF file to a NOFF file. The host is little endian and
a `long` has 32 bits.
-/

namespace Nachos

open Bytes (word toWord)

/-! ### The file formats -/

structure Segment where
  virtualAddr : UInt32
  inFileAddr : UInt32
  size : UInt32
  deriving DecidableEq, Repr, Inhabited

structure NoffHeader where
  noffMagic : UInt32
  code : Segment
  initData : Segment
  uninitData : Segment
  deriving DecidableEq, Repr, Inhabited

def noffMagicNumber : UInt32 := 0xbadfad

def noffHeaderSize : Nat := 40

namespace Segment

def bytes (segment : Segment) : List UInt8 :=
  word segment.virtualAddr ++ word segment.inFileAddr ++ word segment.size

def ofBytes (buffer : List UInt8) : Segment where
  virtualAddr := toWord buffer
  inFileAddr := toWord (buffer.drop 4)
  size := toWord (buffer.drop 8)

end Segment

namespace NoffHeader

def bytes (noffH : NoffHeader) : List UInt8 :=
  word noffH.noffMagic ++ noffH.code.bytes ++ noffH.initData.bytes ++ noffH.uninitData.bytes

def ofBytes (buffer : List UInt8) : NoffHeader where
  noffMagic := toWord buffer
  code := .ofBytes (buffer.drop 4)
  initData := .ofBytes (buffer.drop 16)
  uninitData := .ofBytes (buffer.drop 28)

end NoffHeader

namespace Coff

def mipselMagic : Nat := 0x0162
def omagic : Nat := 0o407

def filehdrSize : Nat := 20
def aouthdrSize : Nat := 56
def scnhdrSize : Nat := 40

structure Section where
  sName : List UInt8
  sPaddr : UInt32
  sSize : UInt32
  sScnptr : UInt32
  deriving DecidableEq, Repr

def Section.ofBytes (buffer : List UInt8) : Section where
  sName := buffer.take 8
  sPaddr := toWord (buffer.drop 8)
  sSize := toWord (buffer.drop 16)
  sScnptr := toWord (buffer.drop 20)

inductive Kind where
  | text
  | data
  | bss
  | unknown
  deriving DecidableEq, Repr

def cString (name : String) : List UInt8 :=
  name.toList.map (fun c => UInt8.ofNat c.toNat) ++ [0]

def Section.named (s : Section) (name : String) : Bool :=
  (cString name).isPrefixOf s.sName

def Section.kind (s : Section) : Kind :=
  if s.named ".text" then
    .text
  else if s.named ".data" || s.named ".rdata" then
    .data
  else if s.named ".bss" || s.named ".sbss" then
    .bss
  else
    .unknown

inductive Failure where
  | tooShort
  | notMipsel
  | notOmagic
  | bothData
  | bothBss
  | unknownSegment
  deriving DecidableEq, Repr

def read (file : List UInt8) (pos : Nat) (nBytes : Int) : Int × List UInt8 :=
  if nBytes < 0 then
    (-1, [])
  else
    let buf := (file.drop pos).take nBytes.toNat
    (buf.length, buf)

def readAll (file : List UInt8) (pos : Nat) (nBytes : Int) : Except Failure (List UInt8) :=
  let (count, buf) := read file pos nBytes
  if count ≠ nBytes then
    .error .tooShort
  else
    .ok buf

/--
A negative offset is an error, which `main` ignores.
-/
def lseek (pos : Nat) (offset : UInt32) : Nat :=
  if offset.toInt32.toInt < 0 then
    pos
  else
    offset.toNat

/--
The variables of `main` in its loop. `data` is what has been written behind the header.
-/
structure Conversion where
  pos : Nat
  noffH : NoffHeader
  inNoffFile : UInt32
  data : List UInt8

def copySegment (file : List UInt8) (s : Section) (c : Conversion) : Except Failure (Segment × Conversion) := do
  let pos := lseek c.pos s.sScnptr
  let buffer ← readAll file pos s.sSize.toInt32.toInt
  return (⟨s.sPaddr, c.inNoffFile, s.sSize⟩,
    { c with
      pos := pos + buffer.length
      data := c.data ++ buffer
      inNoffFile := c.inNoffFile + s.sSize })

def copySection (file : List UInt8) (c : Conversion) (s : Section) : Except Failure Conversion :=
  if s.sSize = 0 then
    .ok c
  else
    match s.kind with
    | .text => do
      let (code, c) ← copySegment file s c
      return { c with noffH := { c.noffH with code } }
    | .data =>
      if c.noffH.initData.size ≠ 0 then
        .error .bothData
      else do
        let (initData, c) ← copySegment file s c
        return { c with noffH := { c.noffH with initData } }
    | .bss =>
      let uninitData := c.noffH.uninitData
      if uninitData.size ≠ 0 then
        if s.sPaddr = uninitData.virtualAddr + uninitData.size then
          .error .bothBss
        else
          let uninitData := { uninitData with size := uninitData.size + s.sSize }
          .ok { c with noffH := { c.noffH with uninitData } }
      else
        let uninitData := { uninitData with virtualAddr := s.sPaddr, size := s.sSize }
        .ok { c with noffH := { c.noffH with uninitData } }
    | .unknown => .error .unknownSegment

def copySections (file : List UInt8) (sections : List Section) (c : Conversion)
    : Except Failure Conversion :=
  sections.foldlM (copySection file) c

/--
Before the loop. `uninit` is what the memory of `noffH` held before.
-/
def start (uninit : NoffHeader) (pos : Nat) : Conversion where
  pos
  noffH :=
    { noffMagic := noffMagicNumber
      code := { uninit.code with size := 0 }
      initData := { uninit.initData with size := 0 }
      uninitData := { uninit.uninitData with size := 0 } }
  inNoffFile := .ofNat noffHeaderSize
  data := []

def sections (buffer : List UInt8) (numsections : Nat) : List Section :=
  (List.range numsections).map fun i => .ofBytes (buffer.drop (scnhdrSize * i))

def readSections (file : List UInt8) : Except Failure (List Section) := do
  let fileh ← readAll file 0 filehdrSize
  if Bytes.decode (fileh.take 2) ≠ mipselMagic then
    throw .notMipsel
  let systemh ← readAll file filehdrSize aouthdrSize
  if Bytes.decode (systemh.take 2) ≠ omagic then
    throw .notOmagic
  let numsections := Bytes.decode ((fileh.drop 2).take 2)
  let buffer ← readAll file (filehdrSize + aouthdrSize) (numsections * scnhdrSize : Nat)
  return sections buffer numsections

def coff2noff (uninit : NoffHeader) (file : List UInt8) : Except Failure (List UInt8) := do
  let sections ← readSections file
  let pos := filehdrSize + aouthdrSize + sections.length * scnhdrSize
  let c ← copySections file sections (start uninit pos)
  return c.noffH.bytes ++ c.data

/-! ### Uninitialized data -/

def addresses (a n : UInt32) : Set UInt32 :=
  {x | x - a < n}

def Section.isBss (s : Section) : Bool :=
  s.sSize ≠ 0 && s.kind = .bss

def bssSections (sections : List Section) : List Section :=
  sections.filter Section.isBss

/--
What `main` should do about the sections of uninitialized data: the segment has exactly their addresses, and it only
complains if one of them does not directly follow the ones before.
-/
def UninitDataExact (file : List UInt8) (uninit : NoffHeader) (pos : Nat) (sections : List Section) : Prop :=
  match copySections file sections (start uninit pos) with
  | .ok c =>
    addresses c.noffH.uninitData.virtualAddr c.noffH.uninitData.size =
      ⋃ s ∈ bssSections sections, addresses s.sPaddr s.sSize
  | .error .bothBss =>
    ∃ first earlier s later, bssSections sections = first :: earlier ++ s :: later ∧
      s.sPaddr ≠ first.sPaddr + ((first :: earlier).map Section.sSize).sum
  | .error _ => True

theorem addresses_add_ne {p₁ s₁ p₂ s₂ : UInt32} (h₁ : s₁ ≠ 0) (h₂ : s₂ ≠ 0) (hne : p₂ ≠ p₁ + s₁)
    : addresses p₁ (s₁ + s₂) ≠ addresses p₁ s₁ ∪ addresses p₂ s₂ := by
  intro heq
  have hs₁ : s₁.toNat ≠ 0 := fun h => h₁ (UInt32.toNat_inj.mp h)
  have hs₂ : s₂.toNat ≠ 0 := fun h => h₂ (UInt32.toNat_inj.mp h)
  have hlt₁ := s₁.toNat_lt
  have hlt₂ := s₂.toNat_lt
  have hlt := (p₁ - p₂).toNat_lt
  have hsum := UInt32.toNat_add s₁ s₂
  have hne : (s₁.toNat + (p₁ - p₂).toNat) % 2 ^ 32 ≠ 0 := by
    intro h
    apply hne
    apply UInt32.toNat_inj.mp
    have := p₁.toNat_lt
    have := p₂.toNat_lt
    rw [UInt32.toNat_sub] at h
    rw [UInt32.toNat_add]
    omega
  have hmem : ∀ k < 2 ^ 32, k < (s₁ + s₂).toNat ↔
      k < s₁.toNat ∨ (k + (p₁ - p₂).toNat) % 2 ^ 32 < s₂.toNat := by
    intro k hk
    have hx : (p₁ + UInt32.ofNat k - p₁).toNat < (s₁ + s₂).toNat ↔
        (p₁ + UInt32.ofNat k - p₁).toNat < s₁.toNat ∨ (p₁ + UInt32.ofNat k - p₂).toNat < s₂.toNat :=
      Set.ext_iff.mp heq _
    have hsub : (p₁ + UInt32.ofNat k - p₁).toNat = k := by
      have := p₁.toNat_lt
      rw [UInt32.toNat_sub, UInt32.toNat_add, UInt32.toNat_ofNat']
      omega
    have hsub' : (p₁ + UInt32.ofNat k - p₂).toNat = (k + (p₁ - p₂).toNat) % 2 ^ 32 := by
      have := p₁.toNat_lt
      have := p₂.toNat_lt
      rw [UInt32.toNat_sub, UInt32.toNat_add, UInt32.toNat_ofNat', UInt32.toNat_sub]
      omega
    rw [hsub, hsub'] at hx
    exact hx
  have hfirst := hmem s₁.toNat hlt₁
  have hlast := hmem (s₁.toNat + s₂.toNat - 1)
  have hover := hmem (s₁.toNat + s₂.toNat - 2 ^ 32)
  have htop := hmem (2 ^ 32 - 1) (by decide)
  rw [hsum] at hfirst hlast hover htop
  omega

section

variable {file : List UInt8} {uninit : NoffHeader} {pos : Nat} {c c' : Conversion} {s : Section}
  {sections : List Section}

theorem readAll_eq_error {nBytes : Int} {failure : Failure} (h : readAll file pos nBytes = .error failure)
    : failure = .tooShort := by
  unfold readAll at h
  dsimp only at h
  split at h
  next =>
    cases h
    rfl
  next => contradiction

def Conversion.copied (c : Conversion) (s : Section) (buffer : List UInt8) : Segment × Conversion :=
  (⟨s.sPaddr, c.inNoffFile, s.sSize⟩,
    { c with
      pos := lseek c.pos s.sScnptr + buffer.length
      data := c.data ++ buffer
      inNoffFile := c.inNoffFile + s.sSize })

theorem copySegment_eq (file : List UInt8) (s : Section) (c : Conversion)
    : copySegment file s c =
        (readAll file (lseek c.pos s.sScnptr) s.sSize.toInt32.toInt).map (c.copied s) := by
  unfold copySegment
  dsimp only
  cases readAll file (lseek c.pos s.sScnptr) s.sSize.toInt32.toInt <;> rfl

inductive Copies (file : List UInt8) (c : Conversion) (s : Section) : Except Failure Conversion → Prop where
  | empty (hsize : s.sSize = 0)
    : Copies file c s (.ok c)
  | text (buffer : List UInt8) (hsize : s.sSize ≠ 0) (hkind : s.kind = .text)
      (hread : readAll file (lseek c.pos s.sScnptr) s.sSize.toInt32.toInt = .ok buffer)
    : Copies file c s (.ok { (c.copied s buffer).2 with noffH.code := (c.copied s buffer).1 })
  | data (buffer : List UInt8) (hsize : s.sSize ≠ 0) (hkind : s.kind = .data)
      (hfirst : c.noffH.initData.size = 0)
      (hread : readAll file (lseek c.pos s.sScnptr) s.sSize.toInt32.toInt = .ok buffer)
    : Copies file c s (.ok { (c.copied s buffer).2 with noffH.initData := (c.copied s buffer).1 })
  | bss (hsize : s.sSize ≠ 0) (hkind : s.kind = .bss) (hfirst : c.noffH.uninitData.size = 0)
    : Copies file c s
        (.ok { c with
          noffH.uninitData.virtualAddr := s.sPaddr
          noffH.uninitData.size := s.sSize })
  | merge (hsize : s.sSize ≠ 0) (hkind : s.kind = .bss) (hfirst : c.noffH.uninitData.size ≠ 0)
      (hpaddr : s.sPaddr ≠ c.noffH.uninitData.virtualAddr + c.noffH.uninitData.size)
    : Copies file c s (.ok { c with noffH.uninitData.size := c.noffH.uninitData.size + s.sSize })
  | bothBss (hsize : s.sSize ≠ 0) (hkind : s.kind = .bss) (hfirst : c.noffH.uninitData.size ≠ 0)
      (hpaddr : s.sPaddr = c.noffH.uninitData.virtualAddr + c.noffH.uninitData.size)
    : Copies file c s (.error .bothBss)
  | fails (failure : Failure) (hkind : s.kind ≠ .bss) (hfailure : failure ≠ .bothBss)
    : Copies file c s (.error failure)

theorem copies (file : List UInt8) (c : Conversion) (s : Section)
    : Copies file c s (copySection file c s) := by
  unfold copySection
  split
  next hsize => exact .empty hsize
  next hsize =>
    split
    next hkind =>
      rw [copySegment_eq]
      cases hread : readAll file (lseek c.pos s.sScnptr) s.sSize.toInt32.toInt with
      | error failure =>
        cases readAll_eq_error hread
        exact .fails .tooShort (by simp [hkind]) (by decide)
      | ok buffer => exact .text buffer hsize hkind hread
    next hkind =>
      split
      next => exact .fails .bothData (by simp [hkind]) (by decide)
      next hfirst =>
        rw [copySegment_eq]
        cases hread : readAll file (lseek c.pos s.sScnptr) s.sSize.toInt32.toInt with
        | error failure =>
          cases readAll_eq_error hread
          exact .fails .tooShort (by simp [hkind]) (by decide)
        | ok buffer => exact .data buffer hsize hkind (Decidable.not_not.mp hfirst) hread
    next hkind =>
      dsimp only
      split
      next hfirst =>
        split
        next hpaddr => exact .bothBss hsize hkind hfirst hpaddr
        next hpaddr => exact .merge hsize hkind hfirst hpaddr
      next hfirst => exact .bss hsize hkind (Decidable.not_not.mp hfirst)
    next hkind => exact .fails .unknownSegment (by simp [hkind]) (by decide)

theorem isBss_iff : s.isBss = true ↔ s.sSize ≠ 0 ∧ s.kind = .bss := by
  simp [Section.isBss]

theorem copySections_cons (file : List UInt8) (s : Section) (sections : List Section) (c : Conversion)
    : copySections file (s :: sections) c = copySection file c s >>= copySections file sections :=
  List.foldlM_cons

theorem copySections_append (file : List UInt8) (sections sections' : List Section) (c : Conversion)
    : copySections file (sections ++ sections') c =
        copySections file sections c >>= copySections file sections' :=
  List.foldlM_append

theorem copySections_of_bssSections_eq_nil (h : bssSections sections = []) (file : List UInt8)
    (c : Conversion)
    : copySections file sections c ≠ .error .bothBss ∧
        ∀ c', copySections file sections c = .ok c' → c'.noffH.uninitData = c.noffH.uninitData := by
  induction sections generalizing c with
  | nil =>
    refine ⟨nofun, ?_⟩
    rintro c' ⟨⟩
    rfl
  | cons s sections ih =>
    unfold bssSections at h
    rw [List.filter_cons] at h
    have hnot : ¬s.isBss = true := by
      intro hs
      rw [if_pos hs] at h
      contradiction
    rw [if_neg hnot] at h
    rw [isBss_iff, not_and] at hnot
    rw [copySections_cons]
    have hcopies := copies file c s
    generalize copySection file c s = res at hcopies
    cases hcopies with
    | empty => exact ih h _
    | text => exact ih h _
    | data => exact ih h _
    | bss hsize hkind => exact absurd hkind (hnot hsize)
    | merge hsize hkind => exact absurd hkind (hnot hsize)
    | bothBss hsize hkind => exact absurd hkind (hnot hsize)
    | fails failure _ hfailure => exact ⟨fun heq => hfailure (Except.error.inj heq), nofun⟩

theorem copySections_of_bssSections_eq_singleton (h : bssSections sections = [s]) (file : List UInt8)
    (hsize : c.noffH.uninitData.size = 0)
    : copySections file sections c ≠ .error .bothBss ∧
        ∀ c', copySections file sections c = .ok c' →
          c'.noffH.uninitData.virtualAddr = s.sPaddr ∧ c'.noffH.uninitData.size = s.sSize := by
  obtain ⟨before, after, rfl, hbefore, hs, hafter⟩ := List.filter_eq_cons_iff.mp h
  rw [copySections_append]
  have hrun := copySections_of_bssSections_eq_nil (List.filter_eq_nil_iff.mpr hbefore) file c
  generalize copySections file before c = res at hrun
  cases res with
  | error failure => exact ⟨hrun.1, nofun⟩
  | ok c₁ =>
    have hsize₁ : c₁.noffH.uninitData.size = 0 := by
      rw [hrun.2 c₁ rfl]
      exact hsize
    have hbss := isBss_iff.mp hs
    have hstep : copySection file c₁ s =
        .ok { c₁ with
          noffH.uninitData.virtualAddr := s.sPaddr
          noffH.uninitData.size := s.sSize } := by
      simp [copySection, hbss.1, hbss.2, hsize₁]
    change copySections file (s :: after) c₁ ≠ _ ∧ ∀ c', copySections file (s :: after) c₁ = .ok c' → _
    rw [copySections_cons, hstep]
    obtain ⟨hne, hok⟩ := copySections_of_bssSections_eq_nil hafter file { c₁ with
      noffH.uninitData.virtualAddr := s.sPaddr
      noffH.uninitData.size := s.sSize }
    refine ⟨hne, ?_⟩
    intro c' hc'
    rw [hok c' hc']
    exact ⟨rfl, rfl⟩

theorem not_uninitDataExact {first : Section} (hfirst : first.isBss = true) (second : Section)
    (hsecond : second.isBss = true) (h : bssSections sections = [first])
    (hok : copySections file sections (start uninit pos) = .ok c)
    : ¬UninitDataExact file uninit pos (sections ++ [second]) := by
  intro hexact
  have hbss : bssSections (sections ++ [second]) = [first, second] := by
    unfold bssSections at h ⊢
    rw [List.filter_append, h, List.filter_cons, if_pos hsecond]
    rfl
  obtain ⟨hpaddr, hsize⟩ := (copySections_of_bssSections_eq_singleton h file rfl).2 c hok
  have hne := (isBss_iff.mp hfirst).1
  obtain ⟨hne', hkind'⟩ := isBss_iff.mp hsecond
  have hstep : copySections file (sections ++ [second]) (start uninit pos) = copySection file c second := by
    rw [copySections_append, hok]
    change copySections file [second] c = _
    rw [copySections_cons]
    cases copySection file c second <;> rfl
  have hcopies := copies file c second
  unfold UninitDataExact at hexact
  rw [hstep, hbss] at hexact
  generalize copySection file c second = res at hcopies hexact
  cases hcopies with
  | empty hzero => exact hne' hzero
  | text _ _ hkind | data _ _ hkind =>
    rw [hkind'] at hkind
    contradiction
  | bss _ _ hzero => exact hne (hsize.symm.trans hzero)
  | merge _ _ _ hfollows =>
    rw [hpaddr, hsize] at hfollows
    apply addresses_add_ne hne hne' hfollows
    simpa [hpaddr, hsize] using hexact
  | bothBss _ _ _ hfollows =>
    obtain ⟨first', earlier, s, later, heq, hdiff⟩ := hexact
    cases earlier with
    | nil =>
      obtain ⟨rfl, rfl, rfl⟩ : first = first' ∧ second = s ∧ [] = later := by simpa using heq
      rw [hpaddr, hsize] at hfollows
      apply hdiff
      simpa using hfollows
    | cons e earlier => simp at heq
  | fails _ hkind => exact hkind hkind'

theorem uninitDataExact_of_length_le_one (h : (bssSections sections).length ≤ 1)
    : UninitDataExact file uninit pos sections := by
  match hbss : bssSections sections with
  | [] =>
    obtain ⟨hne, hok⟩ := copySections_of_bssSections_eq_nil hbss file (start uninit pos)
    unfold UninitDataExact
    split
    next c hc =>
      rw [hok c hc, hbss]
      ext x
      simp [addresses, start]
    next herror => exact absurd herror hne
    next => trivial
  | [s] =>
    obtain ⟨hne, hok⟩ := copySections_of_bssSections_eq_singleton hbss file (c := start uninit pos) rfl
    unfold UninitDataExact
    split
    next c hc =>
      rw [(hok c hc).1, (hok c hc).2, hbss]
      simp
    next herror => exact absurd herror hne
    next => trivial
  | _ :: _ :: _ =>
    rw [hbss] at h
    simp at h

theorem bss_exact_iff
    (h : (∃ c, copySections file sections (start uninit pos) = .ok c) ∨
      copySections file sections (start uninit pos) = .error .bothBss)
    : (∀ n, UninitDataExact file uninit pos (sections.take n)) ↔ (bssSections sections).length ≤ 1 := by
  constructor
  . intro hexact
    apply Nat.le_of_not_lt
    intro hlt
    -- cut the list behind the second section
    match hbss : bssSections sections with
    | [] | [_] =>
      rw [hbss] at hlt
      contradiction
    | first :: second :: rest =>
      obtain ⟨before, after, rfl, hbefore, hfirst, hafter⟩ := List.filter_eq_cons_iff.mp hbss
      obtain ⟨between, after, rfl, hbetween, hsecond, -⟩ := List.filter_eq_cons_iff.mp hafter
      have hone : bssSections (before ++ first :: between) = [first] := by
        unfold bssSections
        rw [List.filter_append, List.filter_eq_nil_iff.mpr hbefore, List.filter_cons, if_pos hfirst,
          List.filter_eq_nil_iff.mpr hbetween]
        rfl
      have hsplit : before ++ first :: (between ++ second :: after) =
          (before ++ first :: between) ++ second :: after := by simp
      obtain ⟨hne, -⟩ := copySections_of_bssSections_eq_singleton hone file (c := start uninit pos) rfl
      rw [hsplit, copySections_append] at h
      cases hrun : copySections file (before ++ first :: between) (start uninit pos) with
      | ok c =>
        apply not_uninitDataExact hfirst second hsecond hone hrun
        have hcut := hexact ((before ++ first :: between).length + 1)
        rw [hsplit, List.take_length_add_append] at hcut
        exact hcut
      | error failure =>
        rw [hrun] at h hne
        obtain ⟨c, hc⟩ | hc := h
        . contradiction
        . exact hne hc
  . intro hlength n
    apply uninitDataExact_of_length_le_one
    refine Nat.le_trans ?_ hlength
    exact ((List.take_sublist n sections).filter _).length_le

end

def bssSection (name : String) (paddr size : UInt32) : Section :=
  ⟨cString name, paddr, size, 0⟩

def fourSections : List Section :=
  [⟨cString ".text" ++ [0, 0], 0, 4, 0⟩, ⟨cString ".data" ++ [0, 0], 4, 2, 4⟩, bssSection ".bss" 256 16,
    bssSection ".sbss" 272 0]

theorem bss_exact_iff_one
    : copySections [1, 2, 3, 4, 5, 6] fourSections (start default 0) =
        .ok
          { pos := 6
            noffH := ⟨noffMagicNumber, ⟨0, 40, 4⟩, ⟨4, 44, 2⟩, ⟨256, 0, 16⟩⟩
            inNoffFile := 46
            data := [1, 2, 3, 4, 5, 6] } ∧
      ∀ n, UninitDataExact [1, 2, 3, 4, 5, 6] default 0 (fourSections.take n) := by
  have hrun : ∃ c, copySections [1, 2, 3, 4, 5, 6] fourSections (start default 0) = .ok c := ⟨_, rfl⟩
  exact ⟨rfl, (bss_exact_iff (.inl hrun)).mpr (by decide)⟩

theorem bss_merge_wrong
    : copySections [] [bssSection ".bss" 256 16, bssSection ".sbss" 272 16] (start default 0) =
        .error .bothBss ∧
      ¬UninitDataExact [] default 0 [bssSection ".bss" 256 16, bssSection ".sbss" 272 16] ∧
      ¬UninitDataExact [] default 0 [bssSection ".bss" 256 16, bssSection ".sbss" 512 16] := by
  have hone : bssSections [bssSection ".bss" 256 16] = [bssSection ".bss" 256 16] := by decide
  refine ⟨rfl, ?_, ?_⟩
  . exact not_uninitDataExact (by decide) (bssSection ".sbss" 272 16) (by decide) hone rfl
  . exact not_uninitDataExact (by decide) (bssSection ".sbss" 512 16) (by decide) hone rfl

end Coff

end Nachos
