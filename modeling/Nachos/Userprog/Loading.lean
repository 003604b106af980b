import Mathlib.Data.List.Pairwise
import Nachos.Userprog.AddrSpace

/-!
This module contains why a program that `coff2noff` has converted arrives in the memory of the machine as it
was in the COFF file.
-/

namespace Nachos

open Bytes (word toWord)

/-! ### The header in the file -/

@[simp]
theorem Segment.length_bytes (segment : Segment) : segment.bytes.length = 12 := by
  simp [bytes]

theorem Segment.ofBytes_bytes_append (segment : Segment) (rest : List UInt8)
    : ofBytes (segment.bytes ++ rest) = segment := by
  unfold ofBytes bytes
  simp only [List.append_assoc, Bytes.toWord_word_append]
  rw [List.drop_left' (Bytes.length_word _), Bytes.toWord_word_append]
  have hdrop : ∀ rest : List UInt8,
      (word segment.virtualAddr ++ (word segment.inFileAddr ++ rest)).drop 8 = rest := by
    intro rest
    rw [← List.append_assoc]
    exact List.drop_left' (by simp)
  rw [hdrop, Bytes.toWord_word_append]

@[simp]
theorem NoffHeader.length_bytes (noffH : NoffHeader) : noffH.bytes.length = noffHeaderSize := by
  simp [bytes, noffHeaderSize]

theorem NoffHeader.ofBytes_bytes_append (noffH : NoffHeader) (rest : List UInt8)
    : ofBytes (noffH.bytes ++ rest) = noffH := by
  have h₁ : (noffH.bytes ++ rest).drop 4 =
      noffH.code.bytes ++ (noffH.initData.bytes ++ (noffH.uninitData.bytes ++ rest)) := by
    unfold bytes
    simp only [List.append_assoc]
    exact List.drop_left' (by simp)
  have h₂ : (noffH.bytes ++ rest).drop 16 = noffH.initData.bytes ++ (noffH.uninitData.bytes ++ rest) := by
    have := congrArg (List.drop 12) h₁
    rw [List.drop_drop, List.drop_left' (Segment.length_bytes _)] at this
    exact this
  have h₃ : (noffH.bytes ++ rest).drop 28 = noffH.uninitData.bytes ++ rest := by
    have := congrArg (List.drop 12) h₂
    rw [List.drop_drop, List.drop_left' (Segment.length_bytes _)] at this
    exact this
  unfold ofBytes
  rw [h₁, h₂, h₃]
  simp only [Segment.ofBytes_bytes_append]
  unfold bytes
  simp only [List.append_assoc, Bytes.toWord_word_append]

/-! ### The conversion -/

namespace Coff

def ofKind (kind : Kind) (sections : List Section) : List Section :=
  sections.filter fun s => s.sSize ≠ 0 && s.kind = kind

def totalSize (sections : List Section) : Nat :=
  (sections.map fun s => s.sSize.toNat).sum

/--
`segment` is the section `s`, and its bytes are in the NOFF file.
-/
structure Describes (file data : List UInt8) (segment : Segment) (s : Section) (offset : Nat) : Prop where
  virtualAddr : segment.virtualAddr = s.sPaddr
  size : segment.size = s.sSize
  inFileAddr : segment.inFileAddr.toNat = noffHeaderSize + offset
  le : offset + s.sSize.toNat ≤ data.length
  -- otherwise the file pointer is negative
  bytes : s.sScnptr.toNat < 2 ^ 31 → ∀ k < s.sSize.toNat, data[offset + k]? = file[s.sScnptr.toNat + k]?

structure Holds (file data : List UInt8) (kind : Kind) (sections : List Section) (segment : Segment) : Prop where
  none : ofKind kind sections = [] → segment.size = 0
  one : ∀ s, ofKind kind sections = [s] → ∃ offset, Describes file data segment s offset

structure Copied (file : List UInt8) (sections : List Section) (c : Conversion) : Prop where
  magic : c.noffH.noffMagic = noffMagicNumber
  inNoffFile : c.inNoffFile.toNat = noffHeaderSize + c.data.length
  length : c.data.length = c.noffH.code.size.toNat + c.noffH.initData.size.toNat
  sizes : totalSize sections =
    c.noffH.code.size.toNat + c.noffH.initData.size.toNat + c.noffH.uninitData.size.toNat
  text : Holds file c.data .text sections c.noffH.code
  data : Holds file c.data .data sections c.noffH.initData
  noBss : ofKind .bss sections = [] → c.noffH.uninitData.size = 0

section

variable {file : List UInt8} {sections : List Section} {s : Section} {c c' : Conversion}

theorem ofKind_append (kind : Kind) (sections : List Section) (s : Section)
    : ofKind kind (sections ++ [s]) =
        if s.sSize ≠ 0 ∧ s.kind = kind then ofKind kind sections ++ [s] else ofKind kind sections := by
  unfold ofKind
  rw [List.filter_append, List.filter_cons, List.filter_nil]
  by_cases h : s.sSize ≠ 0 ∧ s.kind = kind
  . simp [h]
  . rw [if_neg h, if_neg (by simpa using h), List.append_nil]

theorem ofKind_append_of_not {kind : Kind} (h : ¬(s.sSize ≠ 0 ∧ s.kind = kind))
    : ofKind kind (sections ++ [s]) = ofKind kind sections := by
  rw [ofKind_append, if_neg h]

theorem ofKind_eq_nil {kind : Kind} (hsize : s.sSize ≠ 0) (hkind : s.kind = kind)
    (hone : (ofKind kind (sections ++ [s])).length ≤ 1)
    : ofKind kind sections = [] ∧ ofKind kind (sections ++ [s]) = [s] := by
  rw [ofKind_append, if_pos ⟨hsize, hkind⟩] at hone ⊢
  have hnil : ofKind kind sections = [] := by
    apply List.eq_nil_of_length_eq_zero
    rw [List.length_append, List.length_singleton] at hone
    omega
  rw [hnil]
  exact ⟨rfl, rfl⟩

theorem totalSize_append (sections : List Section) (s : Section)
    : totalSize (sections ++ [s]) = totalSize sections + s.sSize.toNat := by
  simp [totalSize]

theorem Describes.append {data : List UInt8} {segment : Segment} {offset : Nat}
    (h : Describes file data segment s offset) (buffer : List UInt8)
    : Describes file (data ++ buffer) segment s offset := by
  refine ⟨h.virtualAddr, h.size, h.inFileAddr, ?_, ?_⟩
  . have := h.le
    rw [List.length_append]
    omega
  . intro hptr k hk
    have := h.le
    rw [List.getElem?_append_left (by omega)]
    exact h.bytes hptr k hk

theorem Holds.append {data : List UInt8} {kind : Kind} {segment : Segment}
    (h : Holds file data kind sections segment) (buffer : List UInt8)
    : Holds file (data ++ buffer) kind sections segment := by
  refine ⟨h.none, ?_⟩
  intro s hs
  obtain ⟨offset, hoffset⟩ := h.one s hs
  exact ⟨offset, hoffset.append buffer⟩

theorem Holds.skip {data : List UInt8} {kind : Kind} {segment : Segment}
    (h : Holds file data kind sections segment) (hs : ¬(s.sSize ≠ 0 ∧ s.kind = kind))
    : Holds file data kind (sections ++ [s]) segment := by
  constructor
  . rw [ofKind_append_of_not hs]
    exact h.none
  . rw [ofKind_append_of_not hs]
    exact h.one

theorem Describes.holds {data : List UInt8} {kind : Kind} {segment : Segment} {offset : Nat}
    (h : Describes file data segment s offset) (hs : ofKind kind sections = [s])
    : Holds file data kind sections segment := by
  constructor
  . rw [hs]
    nofun
  . rw [hs]
    rintro s' ⟨⟩
    exact ⟨offset, h⟩

theorem readAll_eq_ok {pos : Nat} {x : UInt32} {buffer : List UInt8} (hx : x.toNat < 2 ^ 31)
    (h : readAll file pos x.toInt32.toInt = .ok buffer)
    : buffer = (file.drop pos).take x.toNat ∧ buffer.length = x.toNat := by
  unfold readAll read at h
  rw [AddrSpace.toInt_of_lt hx, if_neg (by omega)] at h
  dsimp only at h
  split at h
  next => contradiction
  next hlength =>
    cases h
    rw [Int.toNat_natCast] at *
    exact ⟨rfl, by omega⟩

theorem lseek_of_lt {pos : Nat} {offset : UInt32} (h : offset.toNat < 2 ^ 31)
    : lseek pos offset = offset.toNat := by
  unfold lseek
  rw [AddrSpace.toInt_of_lt h, if_neg (by omega)]

theorem Copied.describes (h : Copied file sections c) {buffer : List UInt8} (hsize : s.sSize.toNat < 2 ^ 31)
    (hread : readAll file (lseek c.pos s.sScnptr) s.sSize.toInt32.toInt = .ok buffer)
    : Describes file (c.data ++ buffer) ⟨s.sPaddr, c.inNoffFile, s.sSize⟩ s c.data.length := by
  obtain ⟨hbuffer, hlength⟩ := readAll_eq_ok hsize hread
  refine ⟨rfl, rfl, h.inNoffFile, ?_, ?_⟩
  . rw [List.length_append]
    omega
  . intro hptr k hk
    rw [List.getElem?_append_right (by omega), Nat.add_sub_cancel_left, hbuffer, lseek_of_lt hptr,
      List.getElem?_take_of_lt hk, List.getElem?_drop]

theorem Copied.inNoffFile_copied (h : Copied file sections c) {buffer : List UInt8}
    (htotal : totalSize sections + s.sSize.toNat < 2 ^ 31) (hbuffer : buffer.length = s.sSize.toNat)
    : (c.inNoffFile + s.sSize).toNat = noffHeaderSize + (c.data ++ buffer).length := by
  have hsizes := h.sizes
  have hlength := h.length
  have hfile := h.inNoffFile
  rw [UInt32.toNat_add, List.length_append]
  unfold noffHeaderSize at *
  omega

theorem Copied.step (h : Copied file sections c) (hstep : copySection file c s = .ok c')
    (htotal : totalSize (sections ++ [s]) < 2 ^ 31)
    (hone : ∀ kind, kind ≠ .unknown → (ofKind kind (sections ++ [s])).length ≤ 1)
    : Copied file (sections ++ [s]) c' := by
  have hsizes := h.sizes
  have hlength := h.length
  rw [totalSize_append] at htotal
  have hcopies := copies file c s
  rw [hstep] at hcopies
  cases hcopies with
  | empty hsize =>
    have hnot : ∀ kind, ¬(s.sSize ≠ 0 ∧ s.kind = kind) := fun _ hs => hs.1 hsize
    constructor
    . exact h.magic
    . exact h.inNoffFile
    . exact h.length
    . rw [totalSize_append, hsize]
      exact h.sizes
    . exact h.text.skip (hnot .text)
    . exact h.data.skip (hnot .data)
    . rw [ofKind_append_of_not (hnot .bss)]
      exact h.noBss
  | text buffer hsize hkind hread =>
    have hnot : ∀ kind, kind ≠ .text → ¬(s.sSize ≠ 0 ∧ s.kind = kind) :=
      fun _ hne hs => hne (hs.2.symm.trans hkind)
    obtain ⟨hnil, hs⟩ := ofKind_eq_nil hsize hkind (hone .text (by decide))
    obtain ⟨-, hbuffer⟩ := readAll_eq_ok (by omega) hread
    have hcode := congrArg UInt32.toNat (h.text.none hnil)
    rw [UInt32.toNat_zero] at hcode
    constructor
    . exact h.magic
    . exact h.inNoffFile_copied (by omega) hbuffer
    . change (c.data ++ buffer).length = s.sSize.toNat + c.noffH.initData.size.toNat
      rw [List.length_append]
      omega
    . change totalSize _ = s.sSize.toNat + c.noffH.initData.size.toNat + c.noffH.uninitData.size.toNat
      rw [totalSize_append]
      omega
    . exact (h.describes (by omega) hread).holds hs
    . exact (h.data.skip (hnot .data (by decide))).append buffer
    . rw [ofKind_append_of_not (hnot .bss (by decide))]
      exact h.noBss
  | data buffer hsize hkind hfirst hread =>
    have hnot : ∀ kind, kind ≠ .data → ¬(s.sSize ≠ 0 ∧ s.kind = kind) :=
      fun _ hne hs => hne (hs.2.symm.trans hkind)
    obtain ⟨-, hs⟩ := ofKind_eq_nil hsize hkind (hone .data (by decide))
    obtain ⟨-, hbuffer⟩ := readAll_eq_ok (by omega) hread
    have hinit := congrArg UInt32.toNat hfirst
    rw [UInt32.toNat_zero] at hinit
    constructor
    . exact h.magic
    . exact h.inNoffFile_copied (by omega) hbuffer
    . change (c.data ++ buffer).length = c.noffH.code.size.toNat + s.sSize.toNat
      rw [List.length_append]
      omega
    . change totalSize _ = c.noffH.code.size.toNat + s.sSize.toNat + c.noffH.uninitData.size.toNat
      rw [totalSize_append]
      omega
    . exact (h.text.skip (hnot .text (by decide))).append buffer
    . exact (h.describes (by omega) hread).holds hs
    . rw [ofKind_append_of_not (hnot .bss (by decide))]
      exact h.noBss
  | bss hsize hkind hfirst =>
    have hnot : ∀ kind, kind ≠ .bss → ¬(s.sSize ≠ 0 ∧ s.kind = kind) :=
      fun _ hne hs => hne (hs.2.symm.trans hkind)
    obtain ⟨-, hs⟩ := ofKind_eq_nil hsize hkind (hone .bss (by decide))
    have huninit := congrArg UInt32.toNat hfirst
    rw [UInt32.toNat_zero] at huninit
    constructor
    . exact h.magic
    . exact h.inNoffFile
    . exact h.length
    . change totalSize _ = c.noffH.code.size.toNat + c.noffH.initData.size.toNat + s.sSize.toNat
      rw [totalSize_append]
      omega
    . exact h.text.skip (hnot .text (by decide))
    . exact h.data.skip (hnot .data (by decide))
    . rw [hs]
      nofun
  | merge hsize hkind hfirst =>
    obtain ⟨hnil, -⟩ := ofKind_eq_nil hsize hkind (hone .bss (by decide))
    exact absurd (h.noBss hnil) hfirst

structure Sparse (sections : List Section) : Prop where
  total : totalSize sections < 2 ^ 31
  one : ∀ kind, kind ≠ .unknown → (ofKind kind sections).length ≤ 1

theorem Sparse.of_append {sections' : List Section} (h : Sparse (sections ++ sections')) : Sparse sections := by
  constructor
  . have := h.total
    simp only [totalSize, List.map_append, List.sum_append] at this
    unfold totalSize
    omega
  . intro kind hkind
    have := h.one kind hkind
    simp only [ofKind, List.filter_append, List.length_append] at this
    unfold ofKind
    omega

theorem Copied.steps {sections' : List Section} (h : Copied file sections c)
    (hrun : copySections file sections' c = .ok c') (hsparse : Sparse (sections ++ sections'))
    : Copied file (sections ++ sections') c' := by
  induction sections' generalizing sections c with
  | nil =>
    cases hrun
    rw [List.append_nil]
    exact h
  | cons s sections' ih =>
    rw [copySections_cons] at hrun
    have hsplit : sections ++ s :: sections' = (sections ++ [s]) ++ sections' := by simp
    rw [hsplit] at hsparse ⊢
    have hsparse' := hsparse.of_append
    cases hstep : copySection file c s with
    | error failure =>
      rw [hstep] at hrun
      contradiction
    | ok c₁ =>
      rw [hstep] at hrun
      exact ih (h.step hstep hsparse'.total hsparse'.one) hrun hsparse

theorem copied_start (file : List UInt8) (uninit : NoffHeader) (pos : Nat) : Copied file [] (start uninit pos) := by
  refine ⟨rfl, rfl, rfl, rfl, ⟨fun _ => rfl, nofun⟩, ⟨fun _ => rfl, nofun⟩, fun _ => rfl⟩

theorem coff2noff_eq_ok {uninit : NoffHeader} {noff : List UInt8} (h : coff2noff uninit file = .ok noff)
    (hsections : readSections file = .ok sections)
    : ∃ pos c, copySections file sections (start uninit pos) = .ok c ∧ noff = c.noffH.bytes ++ c.data := by
  unfold coff2noff at h
  rw [hsections] at h
  change copySections file sections _ >>= _ = _ at h
  cases hrun : copySections file sections
    (start uninit (filehdrSize + aouthdrSize + sections.length * scnhdrSize)) with
  | error failure =>
    rw [hrun] at h
    contradiction
  | ok c =>
    rw [hrun] at h
    cases h
    exact ⟨_, c, hrun, rfl⟩

end

end Coff

/-! ### The memory -/

def Coff.Section.Covers (s : Coff.Section) (v : Nat) : Prop :=
  s.sPaddr.toNat ≤ v ∧ v < s.sPaddr.toNat + s.sSize.toNat

structure Coff.Layout (sections : List Coff.Section) : Prop where
  one : ∀ kind, kind ≠ .unknown → (ofKind kind sections).length ≤ 1
  disjoint : sections.Pairwise fun s t => ∀ v, ¬(s.Covers v ∧ t.Covers v)
  below : ∀ s ∈ sections, ∀ v, s.Covers v → v < totalSize sections
  fits : totalSize sections + userStackSize.toNat ≤ memorySize

namespace AddrSpace

open Coff

def byteAt (m : Machine) (v : Nat) : Option Byte :=
  match m.translate (.ofNat 32 v) 1 false with
  | .ok (.ok physAddr, m) => some (m.mainMemory physAddr)
  | _ => none

def hostCopies (segment : Segment) (file : List UInt8) : List Copy :=
  if segment.size.toInt32.toInt > 0 then
    [⟨segment.virtualAddr.toInt32.toInt, (file.drop segment.inFileAddr.toNat).take segment.size.toNat⟩]
  else
    []

def loadSegment (segment : Segment) (file : List UInt8) (mainMemory : Nat → Byte) : Nat → Byte :=
  (hostCopies segment file).foldl (fun memory copy => copy.apply memory) mainMemory

section

variable {file data : List UInt8} {sections : List Section} {s : Section} {segment : Segment}
  {offset : Nat}

theorem readHeader_append (uninit noffH : NoffHeader) (data : List UInt8)
    : readHeader (hostReadAt (noffH.bytes ++ data)) uninit = .ok noffH := by
  have hread : hostReadAt (noffH.bytes ++ data) (.ofNat noffHeaderSize) 0 = .ok noffH.bytes :=
    congrArg Except.ok (List.take_left' noffH.length_bytes)
  unfold readHeader
  rw [hread]
  exact congrArg Except.ok (noffH.ofBytes_bytes_append _)

theorem copies_eq_hostCopies (h : segment.size = 0 ∨ 0 ≤ segment.inFileAddr.toInt32.toInt) (file : List UInt8)
    : Segment.copies (hostReadAt file) segment = .ok (hostCopies segment file) := by
  unfold hostCopies
  split
  next hsize =>
    have hpos : 0 ≤ segment.inFileAddr.toInt32.toInt := by
      refine h.resolve_left ?_
      intro hzero
      rw [hzero] at hsize
      contradiction
    rw [copies_of_pos _ hsize, hostReadAt_of_nonneg hsize hpos]
    rfl
  next hsize =>
    rw [copies_of_nonpos _ (by omega)]
    rfl

theorem take_drop_of_describes (h : Describes file data segment s offset) (noffH : NoffHeader)
    : ((noffH.bytes ++ data).drop segment.inFileAddr.toNat).take segment.size.toNat =
        (data.drop offset).take s.sSize.toNat := by
  have hfile := h.inFileAddr
  have hdrop : (noffH.bytes ++ data).drop 40 = data := List.drop_left' noffH.length_bytes
  unfold noffHeaderSize at hfile
  rw [h.size, hfile, ← List.drop_drop, hdrop]

theorem inFileAddr_nonneg_of_describes (h : Describes file data segment s offset) (hdata : data.length < 2 ^ 31 - 40)
    : 0 ≤ segment.inFileAddr.toInt32.toInt := by
  have hle := h.le
  have hfile := h.inFileAddr
  unfold noffHeaderSize at hfile
  rw [toInt_of_lt (by omega)]
  omega

theorem readable_of_holds {kind : Kind} (h : Holds file data kind sections segment)
    (hone : (ofKind kind sections).length ≤ 1) (hdata : data.length < 2 ^ 31 - 40)
    : segment.size = 0 ∨ 0 ≤ segment.inFileAddr.toInt32.toInt := by
  match hkind : ofKind kind sections with
  | [] => exact .inl (h.none hkind)
  | [s] =>
    obtain ⟨offset, hoffset⟩ := h.one s hkind
    exact .inr (inFileAddr_nonneg_of_describes hoffset hdata)
  | _ :: _ :: _ =>
    rw [hkind] at hone
    simp at hone

theorem loadSegment_of_size (h : segment.size = 0) (mainMemory : Nat → Byte)
    : loadSegment segment file mainMemory = mainMemory := by
  unfold loadSegment hostCopies
  rw [h]
  rfl

theorem loadSegment_of_describes (h : Describes file data segment s offset)
    (hdata : data.length < 2 ^ 31 - 40) (hsize : s.sSize ≠ 0) (hpaddr : s.sPaddr.toNat < 2 ^ 31)
    (noffH : NoffHeader) (mainMemory : Nat → Byte) (v : Nat)
    : loadSegment segment (noffH.bytes ++ data) mainMemory v =
        if s.sPaddr.toNat ≤ v ∧ v < s.sPaddr.toNat + s.sSize.toNat then
          (data.getD (offset + (v - s.sPaddr.toNat)) 0).toBitVec
        else
          mainMemory v := by
  have hle := h.le
  have hpos : 0 < s.sSize.toNat := Nat.pos_of_ne_zero fun hzero => hsize (UInt32.toNat_inj.mp hzero)
  have hlength : ((data.drop offset).take s.sSize.toNat).length = s.sSize.toNat := by
    rw [List.length_take, List.length_drop]
    omega
  have hread := take_drop_of_describes h noffH
  rw [h.size] at hread
  unfold loadSegment hostCopies
  rw [h.size, toInt_of_lt (by omega), if_pos (by omega), hread, h.virtualAddr, toInt_of_lt hpaddr]
  simp only [List.foldl_cons, List.foldl_nil, Copy.apply, hlength]
  by_cases hv : s.sPaddr.toNat ≤ v ∧ v < s.sPaddr.toNat + s.sSize.toNat
  . have hsub : ((v : Int) - (s.sPaddr.toNat : Int)).toNat = v - s.sPaddr.toNat := by omega
    rw [if_pos (by omega), if_pos hv, hsub, List.getD_eq_getElem?_getD, List.getD_eq_getElem?_getD,
      List.getElem?_take_of_lt (by omega), List.getElem?_drop]
  . rw [if_neg (by omega), if_neg hv]

theorem mem_ofKind {kind : Kind} : s ∈ ofKind kind sections ↔ s ∈ sections ∧ s.sSize ≠ 0 ∧ s.kind = kind := by
  simp [ofKind]

theorem loadSegment_of_holds {kind : Kind} (h : Holds file data kind sections segment)
    (hone : (ofKind kind sections).length ≤ 1) (hdata : data.length < 2 ^ 31 - 40)
    (hpaddr : ∀ s ∈ ofKind kind sections, s.sPaddr.toNat < 2 ^ 31) (noffH : NoffHeader)
    (mainMemory : Nat → Byte) (v : Nat)
    : ((∀ s ∈ ofKind kind sections, ¬s.Covers v) →
        loadSegment segment (noffH.bytes ++ data) mainMemory v = mainMemory v) ∧
      ∀ s ∈ ofKind kind sections, s.Covers v → s.sScnptr.toNat < 2 ^ 31 →
        some (loadSegment segment (noffH.bytes ++ data) mainMemory v) =
          file[s.sScnptr.toNat + (v - s.sPaddr.toNat)]?.map UInt8.toBitVec := by
  match hkind : ofKind kind sections with
  | [] =>
    rw [loadSegment_of_size (h.none hkind)]
    exact ⟨fun _ => rfl, nofun⟩
  | [s] =>
    obtain ⟨offset, hoffset⟩ := h.one s hkind
    have hmem : s ∈ ofKind kind sections := by simp [hkind]
    rw [loadSegment_of_describes hoffset hdata (mem_ofKind.mp hmem).2.1 (hpaddr s hmem)]
    constructor
    . intro hnot
      exact if_neg (hnot s List.mem_cons_self)
    . intro s' hs' hcovers hptr
      rw [List.mem_singleton] at hs'
      subst hs'
      have hbound : v - s'.sPaddr.toNat < s'.sSize.toNat := by
        obtain ⟨hlow, hhigh⟩ := hcovers
        omega
      have hle := hoffset.le
      rw [← hoffset.bytes hptr _ hbound]
      unfold Section.Covers at hcovers
      rw [if_pos hcovers, List.getD_eq_getElem?_getD, List.getElem?_eq_getElem (by omega)]
      rfl
  | _ :: _ :: _ =>
    rw [hkind] at hone
    simp at hone

theorem getElem?_pageTable {numPages vpn : Nat} (h : vpn < numPages)
    : (pageTable numPages)[vpn]? = some ⟨.ofNat 32 vpn, .ofNat 32 vpn, true, false, false, false⟩ := by
  unfold pageTable
  rw [List.getElem?_map, List.getElem?_range h]
  rfl

theorem translate_pageTable {m : Machine} {numPages : Nat} (htlb : m.tlb = none)
    (htable : m.pageTable = some (pageTable numPages)) (hpages : numPages ≤ numPhysPages) {v : Word}
    (hv : v.toNat < numPages * pageSize) {size : Nat} (hsize : size = 1 ∨ size = 2 ∨ size = 4)
    (haligned : Machine.Aligned v size) (writing : Bool)
    : ∃ m', m.translate v size writing = .ok (.ok v.toNat, m') ∧ m'.mainMemory = m.mainMemory := by
  have hvpn : v.toNat / pageSize < numPages := Nat.div_lt_of_lt_mul (by rwa [Nat.mul_comm])
  have hoffset := haligned.offset_add_le hsize
  have hdiv := Nat.div_add_mod v.toNat pageSize
  have hfind : m.findEntry (v.toNat / pageSize) = .ok (.page (v.toNat / pageSize),
      ⟨.ofNat 32 (v.toNat / pageSize), .ofNat 32 (v.toNat / pageSize), true, false, false, false⟩) := by
    unfold Machine.findEntry
    rw [htlb, htable]
    dsimp only [Option.getD_some]
    rw [getElem?_pageTable hvpn]
    rfl
  have hframe : (BitVec.ofNat 32 (v.toNat / pageSize)).toNat = v.toNat / pageSize := by
    apply Nat.mod_eq_of_lt
    exact Nat.lt_of_lt_of_le hvpn (Nat.le_trans hpages (by decide))
  have hbound : (v.toNat / pageSize + 1) * pageSize ≤ numPhysPages * pageSize :=
    Nat.mul_le_mul_right _ (Nat.le_trans hvpn hpages)
  have hphys : v.toNat / pageSize * pageSize + v.toNat % pageSize = v.toNat := by
    rw [Nat.mul_comm]
    exact hdiv
  unfold Machine.translate
  rw [if_neg haligned, htlb, htable, if_neg (by simp), if_neg (by simp)]
  dsimp only
  rw [hfind]
  dsimp only
  rw [if_neg (by simp), hframe, if_neg (Nat.not_le.mpr (Nat.lt_of_lt_of_le hvpn hpages)), hphys,
    if_pos ?_]
  . exact ⟨_, rfl, rfl⟩
  . rw [Nat.succ_mul] at hbound
    unfold memorySize
    omega

theorem build_of_copied {c : Conversion} (h : Copied file sections c)
    (hfits : totalSize sections + userStackSize.toNat ≤ memorySize)
    (hcode : c.noffH.code.size = 0 ∨ 0 ≤ c.noffH.code.inFileAddr.toInt32.toInt)
    (hinit : c.noffH.initData.size = 0 ∨ 0 ≤ c.noffH.initData.inFileAddr.toInt32.toInt) (executable : List UInt8)
    (mainMemory : Nat → Byte)
    : ∃ loaded, build (hostReadAt executable) .error c.noffH mainMemory = .ok loaded ∧
        loaded.numPages.toNat ≤ numPhysPages ∧
        totalSize sections + userStackSize.toNat ≤ loaded.numPages.toNat * pageSize ∧
        loaded.pageTable = pageTable loaded.numPages.toNat ∧
        loaded.mainMemory = loadSegment c.noffH.initData executable
          (loadSegment c.noffH.code executable (bzero mainMemory (loaded.numPages.toNat * pageSize))) := by
  have hsizes := h.sizes
  have hstack : userStackSize.toNat = 1024 := rfl
  have hmemory : memorySize = 4096 := rfl
  have hsize : (c.noffH.code.size + c.noffH.initData.size + c.noffH.uninitData.size + userStackSize).toNat =
      totalSize sections + userStackSize.toNat := by
    rw [UInt32.toNat_add, UInt32.toNat_add, UInt32.toNat_add]
    omega
  have hpages : (numPages c.noffH).toNat = (totalSize sections + userStackSize.toNat + 127) / 128 := by
    rw [← hsize]
    exact toNat_divRoundUp _
  have hle : (numPages c.noffH).toNat ≤ numPhysPages := by
    unfold numPhysPages
    omega
  have hbytes : (numPages c.noffH * .ofNat pageSize).toNat = (numPages c.noffH).toNat * pageSize := by
    unfold numPhysPages at hle
    rw [UInt32.toNat_mul]
    apply Nat.mod_eq_of_lt
    change _ * 128 < _
    omega
  have hpasses : Passes c.noffH := ⟨h.magic, UInt32.le_iff_toNat_le.mpr hle⟩
  rw [build_of_passes _ _ hpasses, copies_eq_hostCopies hcode, copies_eq_hostCopies hinit]
  refine ⟨place c.noffH mainMemory _, rfl, hle, ?_, ?_, ?_⟩
  . change _ ≤ (numPages c.noffH).toNat * 128
    omega
  . dsimp only [place]
  . dsimp only [place]
    rw [hbytes, List.foldl_append]
    rfl

theorem byteAt_of_pageTable {m : Machine} {numPages : Nat} (htlb : m.tlb = none)
    (htable : m.pageTable = some (pageTable numPages)) (hpages : numPages ≤ numPhysPages) {v : Nat}
    (hv : v < numPages * pageSize)
    : byteAt m v = some (m.mainMemory v) := by
  have hlt : v < 2 ^ 32 := by
    have := Nat.mul_le_mul_right pageSize hpages
    exact Nat.lt_of_lt_of_le hv (Nat.le_trans this (by decide))
  have hword : (BitVec.ofNat 32 v).toNat = v := Nat.mod_eq_of_lt hlt
  have haligned : Machine.Aligned (.ofNat 32 v) 1 := by simp [Machine.Aligned]
  obtain ⟨m', htranslate, hmemory⟩ := translate_pageTable htlb htable hpages (v := .ofNat 32 v)
    (by rw [hword]; exact hv) (.inl rfl) haligned false
  unfold byteAt
  rw [htranslate]
  dsimp only
  rw [hmemory, hword]

end

section

variable {uninit : NoffHeader} {coff noff : List UInt8} {sections : List Section} {m : Machine}

theorem loading_faithful (uninit' : NoffHeader) (hsections : readSections coff = .ok sections)
    (hnoff : coff2noff uninit coff = .ok noff) (hlayout : Layout sections) (htlb : m.tlb = none)
    : ∃ loaded, addrSpace uninit' noff m.mainMemory = .ok loaded ∧
        totalSize sections + userStackSize.toNat ≤ loaded.numPages.toNat * pageSize ∧
        (∀ s ∈ sections, s.kind ∈ [.text, .data] → s.sScnptr.toNat < 2 ^ 31 → ∀ v, s.Covers v →
          byteAt (loaded.restoreState m) v =
            coff[s.sScnptr.toNat + (v - s.sPaddr.toNat)]?.map UInt8.toBitVec) ∧
        (∀ v < loaded.numPages.toNat * pageSize,
          (∀ s ∈ sections, s.kind ∈ [.text, .data] → ¬s.Covers v) →
          byteAt (loaded.restoreState m) v = some 0) ∧
        ∀ (v : Word) (size : Nat) (writing : Bool), v.toNat < loaded.numPages.toNat * pageSize →
          (size = 1 ∨ size = 2 ∨ size = 4) → Machine.Aligned v size →
          ∃ m', (loaded.restoreState m).translate v size writing = .ok (.ok v.toNat, m') := by
  obtain ⟨pos, c, hrun, rfl⟩ := coff2noff_eq_ok hnoff hsections
  have hfits := hlayout.fits
  have hmemory : memorySize = 4096 := rfl
  have hcopied : Copied coff sections c :=
    (copied_start coff uninit pos).steps hrun ⟨by simpa using (by omega), hlayout.one⟩
  have hdata : c.data.length < 2 ^ 31 - 40 := by
    have := hcopied.length
    have := hcopied.sizes
    omega
  have hpaddr : ∀ kind, ∀ s ∈ ofKind kind sections, s.sPaddr.toNat < 2 ^ 31 := by
    intro kind s hs
    obtain ⟨hmem, hsize, -⟩ := mem_ofKind.mp hs
    have hpos : 0 < s.sSize.toNat := Nat.pos_of_ne_zero fun hzero => hsize (UInt32.toNat_inj.mp hzero)
    have := hlayout.below s hmem s.sPaddr.toNat ⟨Nat.le_refl _, by omega⟩
    omega
  obtain ⟨loaded, hbuild, hpages, hcovers, htable, hloaded⟩ :=
    build_of_copied hcopied hfits (readable_of_holds hcopied.text (hlayout.one .text (by decide)) hdata)
      (readable_of_holds hcopied.data (hlayout.one .data (by decide)) hdata) (c.noffH.bytes ++ c.data) m.mainMemory
  have hbyteAt : ∀ v < loaded.numPages.toNat * pageSize,
      byteAt (loaded.restoreState m) v = some (loaded.mainMemory v) := by
    intro v hv
    exact byteAt_of_pageTable (m := loaded.restoreState m) htlb (congrArg some htable) hpages hv
  have htext := fun mainMemory v => loadSegment_of_holds hcopied.text (hlayout.one .text (by decide)) hdata
    (hpaddr .text) c.noffH mainMemory v
  have hdata := fun mainMemory v => loadSegment_of_holds hcopied.data (hlayout.one .data (by decide)) hdata
    (hpaddr .data) c.noffH mainMemory v
  refine ⟨loaded, ?_, hcovers, ?_, ?_, ?_⟩
  . unfold addrSpace load
    rw [readHeader_append]
    exact hbuild
  . intro s hs hkind hptr v hv
    have hlt := hlayout.below s hs v hv
    have hsize : s.sSize ≠ 0 := by
      intro hzero
      obtain ⟨hlow, hhigh⟩ := hv
      rw [hzero, UInt32.toNat_zero] at hhigh
      omega
    rw [hbyteAt v (by omega), hloaded]
    rw [List.mem_cons, List.mem_singleton] at hkind
    obtain hkind | hkind := hkind
    . -- the data segment is somewhere else
      rw [(hdata _ v).1]
      . exact (htext _ v).2 s (mem_ofKind.mpr ⟨hs, hsize, hkind⟩) hv hptr
      . intro t ht hv'
        obtain ⟨hmem, -, hkind'⟩ := mem_ofKind.mp ht
        have hne : s ≠ t := by
          rintro rfl
          rw [hkind] at hkind'
          contradiction
        have : Std.Symm fun s t : Section => ∀ v, ¬(s.Covers v ∧ t.Covers v) :=
          ⟨fun _ _ h v hv => h v hv.symm⟩
        exact hlayout.disjoint.forall hs hmem hne v ⟨hv, hv'⟩
    . exact (hdata _ v).2 s (mem_ofKind.mpr ⟨hs, hsize, hkind⟩) hv hptr
  . intro v hv hnot
    rw [hbyteAt v hv, hloaded, (hdata _ v).1, (htext _ v).1]
    . exact congrArg some (if_pos hv)
    . intro s hs
      obtain ⟨hmem, -, hkind⟩ := mem_ofKind.mp hs
      exact hnot s hmem (by simp [hkind])
    . intro s hs
      obtain ⟨hmem, -, hkind⟩ := mem_ofKind.mp hs
      exact hnot s hmem (by simp [hkind])
  . intro v size writing hv hsize haligned
    obtain ⟨m', htranslate, -⟩ := translate_pageTable (m := loaded.restoreState m) htlb
      (congrArg some htable) hpages hv hsize haligned writing
    exact ⟨m', htranslate⟩

end

def programSections : List Section :=
  [⟨cString ".data" ++ [0, 0], 4, 2, 196⟩, ⟨cString ".text" ++ [0, 0], 0, 4, 198⟩,
    ⟨cString ".bss" ++ [0, 0, 0], 6, 2, 0⟩]

def program : List UInt8 :=
  [0x62, 0x01, 3, 0] ++ List.replicate 16 0 ++ [0x07, 0x01] ++ List.replicate 54 0 ++
    programSections.flatMap scnhdr ++ [5, 6] ++ [0x0c, 0, 0, 0]
where
  scnhdr (s : Section) : List UInt8 :=
    s.sName ++ word s.sPaddr ++ word 0 ++ word s.sSize ++ word s.sScnptr ++ List.replicate 16 0

def programNoff : List UInt8 :=
  NoffHeader.bytes ⟨noffMagicNumber, ⟨0, 42, 4⟩, ⟨4, 40, 2⟩, ⟨6, 0, 2⟩⟩ ++ [5, 6, 0x0c, 0, 0, 0]

theorem layout_programSections : Layout programSections := by
  constructor
  . intro kind hkind
    cases kind with
    | text | data | bss => decide +kernel
    | unknown => contradiction
  . simp [programSections, Section.Covers]
    and_intros <;> intros <;> omega
  . simp [programSections, Section.Covers, totalSize]
    and_intros <;> intros <;> omega
  . decide +kernel

def usedMachine : Machine :=
  { Machine.ofWords [] fun _ => 0 with mainMemory := fun _ => 255 }

theorem loading_faithful_program
    : ∃ loaded, addrSpace default programNoff usedMachine.mainMemory = .ok loaded ∧
        byteAt (loaded.restoreState usedMachine) 0 = some 0x0c ∧
        byteAt (loaded.restoreState usedMachine) 5 = some 6 ∧
        byteAt (loaded.restoreState usedMachine) 7 = some 0 := by
  have hsections : readSections program = .ok programSections := by decide +kernel
  have hnoff : coff2noff default program = .ok programNoff := by decide +kernel
  obtain ⟨loaded, hloaded, hcovers, hbytes, hzero, -⟩ := loading_faithful default (m := usedMachine)
    hsections hnoff layout_programSections rfl
  refine ⟨loaded, hloaded, ?_, ?_, ?_⟩
  . exact hbytes ⟨cString ".text" ++ [0, 0], 0, 4, 198⟩ (by simp [programSections]) (by decide) (by decide) 0
      (by simp [Section.Covers])
  . exact hbytes ⟨cString ".data" ++ [0, 0], 4, 2, 196⟩ (by simp [programSections]) (by decide) (by decide) 5
      (by simp [Section.Covers])
  . apply hzero
    . have : totalSize programSections + userStackSize.toNat = 1032 := by decide +kernel
      omega
    . intro s hs hkind hcovers
      simp only [programSections, List.mem_cons, List.not_mem_nil, or_false] at hs
      obtain rfl | rfl | rfl := hs
      . simp [Section.Covers] at hcovers
      . simp [Section.Covers] at hcovers
      . revert hkind
        decide +kernel

end AddrSpace

end Nachos
