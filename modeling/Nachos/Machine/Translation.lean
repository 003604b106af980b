import Nachos.Machine.Trap

/-!
This module contains the proof that `Translate` computes the same with a TLB as with the page table that the
TLB holds parts of.
-/

namespace Nachos

def TranslationEntry.access (entry : TranslationEntry) (offset : Nat) (writing : Bool)
    : Except ExceptionType Nat :=
  if entry.readOnly ∧ writing then
    .error .readOnlyException
  else if entry.physicalPage.toNat ≥ numPhysPages then
    .error .busErrorException
  else
    .ok (entry.physicalPage.toNat * pageSize + offset)

namespace Machine

def Maps (m : Machine) (vpn : Nat) (slot : Slot) (entry : TranslationEntry) : Prop :=
  entry.valid = true ∧
    match slot with
    | .page n => n = vpn ∧ ∃ table, m.pageTable = some table ∧ table[n]? = some entry
    | .tlb i => entry.virtualPage.toNat = vpn ∧ ∃ tlb, m.tlb = some tlb ∧ tlb.get i = entry

def Marks (m : Machine) (virtAddr : Word) (size : Nat) (writing : Bool) (res : Except ExceptionType Nat)
    (m' : Machine) : Prop :=
  match res with
  | .error _ => m' = m
  | .ok physAddr =>
    ∃ slot entry, m.Maps (virtAddr.toNat / pageSize) slot entry ∧
      m' = m.setEntry slot { entry with use := true, dirty := entry.dirty || writing } ∧
      entry.physicalPage.toNat * pageSize ≤ physAddr ∧
      physAddr + size ≤ (entry.physicalPage.toNat + 1) * pageSize ∧
      (entry.physicalPage.toNat + 1) * pageSize ≤ memorySize

def resolve (m : Machine) (virtAddr : Word) (size : Nat) (writing : Bool) : Except ExceptionType Nat :=
  if (size = 4 ∧ virtAddr &&& 3 ≠ 0) ∨ (size = 2 ∧ virtAddr &&& 1 ≠ 0) then
    .error .addressErrorException
  else
    match m.findEntry (virtAddr.toNat / pageSize) with
    | .error exception => .error exception
    | .ok (_, entry) => entry.access (virtAddr.toNat % pageSize) writing

section

variable {m : Machine} {vpn size : Nat} {slot : Slot} {entry : TranslationEntry} {virtAddr : Word}
  {writing : Bool}

theorem maps_of_findEntry (h : m.findEntry vpn = .ok (slot, entry)) : m.Maps vpn slot entry := by
  unfold findEntry at h
  split at h
  next htlb =>
    split at h
    next => contradiction
    next entry' hentry =>
      split at h
      next hvalid =>
        cases h
        refine ⟨hvalid, rfl, ?_⟩
        cases htable : m.pageTable with
        | none =>
          rw [htable] at hentry
          contradiction
        | some table =>
          rw [htable] at hentry
          exact ⟨table, rfl, hentry⟩
      next => contradiction
  next tlb htlb =>
    split at h
    next => contradiction
    next i hfind =>
      cases h
      have hi := List.find?_some hfind
      rw [Bool.and_eq_true, decide_eq_true_iff] at hi
      exact ⟨hi.1, hi.2, tlb, htlb, rfl⟩

theorem frame_end_le {frame : Nat} (h : frame < numPhysPages) : (frame + 1) * pageSize ≤ memorySize :=
  Nat.mul_le_mul_right pageSize h

theorem translate_eq_resolve (m : Machine) (virtAddr : Word) (writing : Bool)
    (hone : m.tlb.isSome ≠ m.pageTable.isSome) (hsize : size = 1 ∨ size = 2 ∨ size = 4)
    : ∃ m', m.translate virtAddr size writing = .ok (m.resolve virtAddr size writing, m') := by
  have hboth : ¬(m.tlb.isSome ∧ m.pageTable.isSome) := fun h => hone (h.1.trans h.2.symm)
  have hnone : ¬(m.tlb.isNone ∧ m.pageTable.isNone) := by
    rw [Option.isNone_iff_eq_none, Option.isNone_iff_eq_none]
    rintro ⟨htlb, htable⟩
    rw [htlb, htable] at hone
    contradiction
  unfold translate resolve
  simp only [if_neg hboth, if_neg hnone]
  split
  next => exact ⟨m, rfl⟩
  next haligned =>
    have hoffset := Aligned.offset_add_le haligned hsize
    cases m.findEntry (virtAddr.toNat / pageSize) with
    | error exception => exact ⟨m, rfl⟩
    | ok found =>
      dsimp only
      unfold TranslationEntry.access
      split
      next => exact ⟨m, rfl⟩
      next =>
        split
        next => exact ⟨m, rfl⟩
        next hframe =>
          rw [if_pos]
          . exact ⟨_, rfl⟩
          . have hend := frame_end_le (Nat.lt_of_not_ge hframe)
            rw [Nat.succ_mul] at hend
            omega

theorem translate_marks {res : Except ExceptionType Nat} {m' : Machine}
    (hsize : size = 1 ∨ size = 2 ∨ size = 4) (h : m.translate virtAddr size writing = .ok (res, m'))
    : m.Marks virtAddr size writing res m' := by
  have htranslates := m.translates virtAddr size writing
  rw [h] at htranslates
  cases htranslates with
  | exception which => exact rfl
  | address slot entry haligned hentry hwriting hframe hbound =>
    have hoffset := haligned.offset_add_le hsize
    refine ⟨slot, entry, maps_of_findEntry hentry, rfl, Nat.le_add_right _ _, ?_, frame_end_le hframe⟩
    rw [Nat.succ_mul]
    omega

end

end Machine

def TranslationEntry.Copies (entry : TranslationEntry) (table : List TranslationEntry) : Prop :=
  ∃ page, table[entry.virtualPage.toNat]? = some page ∧ page.valid = true ∧
    page.physicalPage = entry.physicalPage ∧ page.readOnly = entry.readOnly

def Machine.withTlb (m : Machine) (tlb : Vector TranslationEntry tlbSize) : Machine :=
  { m with tlb := some tlb, pageTable := none }

def Machine.withPageTable (m : Machine) (table : List TranslationEntry) : Machine :=
  { m with tlb := none, pageTable := some table }

section

variable {table : List TranslationEntry} {tlb : Vector TranslationEntry tlbSize}

theorem access_eq_of_copies {entry page : TranslationEntry} (hframe : page.physicalPage = entry.physicalPage)
    (hreadOnly : page.readOnly = entry.readOnly) (offset : Nat) (writing : Bool)
    : entry.access offset writing = page.access offset writing := by
  unfold TranslationEntry.access
  rw [hframe, hreadOnly]

theorem findEntry_withTlb_error {m : Machine} {vpn : Nat} {which : ExceptionType}
    (h : (m.withTlb tlb).findEntry vpn = .error which)
    : which = .pageFaultException ∧ ∀ i, (tlb.get i).valid = true → (tlb.get i).virtualPage.toNat ≠ vpn := by
  unfold Machine.findEntry Machine.withTlb at h
  dsimp only at h
  split at h
  next hfind =>
    cases h
    refine ⟨rfl, ?_⟩
    intro i hvalid hpage
    rw [List.find?_eq_none] at hfind
    apply hfind i (List.mem_finRange i)
    rw [hvalid, hpage, decide_eq_true rfl]
    rfl
  next => contradiction

theorem findEntry_withPageTable (m : Machine) {vpn : Nat} {page : TranslationEntry}
    (hpage : table[vpn]? = some page) (hvalid : page.valid = true)
    : (m.withPageTable table).findEntry vpn = .ok (.page vpn, page) := by
  unfold Machine.findEntry Machine.withPageTable
  dsimp only [Option.getD_some]
  rw [hpage]
  dsimp only
  rw [if_pos hvalid]

theorem resolve_withTlb (m : Machine) (hcopies : ∀ i, (tlb.get i).valid = true → (tlb.get i).Copies table)
    (virtAddr : Word) (size : Nat) (writing : Bool)
    : ((m.withTlb tlb).resolve virtAddr size writing = .error .pageFaultException ∧
          ∀ i, (tlb.get i).valid = true → (tlb.get i).virtualPage.toNat ≠ virtAddr.toNat / pageSize) ∨
        (m.withTlb tlb).resolve virtAddr size writing =
          (m.withPageTable table).resolve virtAddr size writing := by
  unfold Machine.resolve
  split
  next => exact .inr rfl
  next =>
    cases hfound : (m.withTlb tlb).findEntry (virtAddr.toNat / pageSize) with
    | error which =>
      obtain ⟨rfl, hmiss⟩ := findEntry_withTlb_error hfound
      exact .inl ⟨rfl, hmiss⟩
    | ok found =>
      obtain ⟨slot, entry⟩ := found
      obtain ⟨hvalid, hslot⟩ := Machine.maps_of_findEntry hfound
      cases slot with
      | page n =>
        obtain ⟨-, _, htable, -⟩ := hslot
        contradiction
      | tlb i =>
        obtain ⟨hpage, tlb', htlb, rfl⟩ := hslot
        cases htlb
        obtain ⟨page, hentry, hpageValid, hframe, hreadOnly⟩ := hcopies i hvalid
        rw [hpage] at hentry
        rw [findEntry_withPageTable m hentry hpageValid]
        exact .inr (access_eq_of_copies hframe hreadOnly _ _)

theorem tlb_refines_pageTable (m : Machine)
    (hcopies : ∀ i, (tlb.get i).valid = true → (tlb.get i).Copies table) (virtAddr : Word) {size : Nat}
    (hsize : size = 1 ∨ size = 2 ∨ size = 4) (writing : Bool)
    : ∃ res m₁ res' m₂,
        (m.withTlb tlb).translate virtAddr size writing = .ok (res, m₁) ∧
        (m.withPageTable table).translate virtAddr size writing = .ok (res', m₂) ∧
        ((res = .error .pageFaultException ∧
            ∀ i, (tlb.get i).valid = true → (tlb.get i).virtualPage.toNat ≠ virtAddr.toNat / pageSize) ∨
          res = res') ∧
        (m.withTlb tlb).Marks virtAddr size writing res m₁ ∧
        (m.withPageTable table).Marks virtAddr size writing res' m₂ := by
  obtain ⟨m₁, h₁⟩ := (m.withTlb tlb).translate_eq_resolve virtAddr writing nofun hsize
  obtain ⟨m₂, h₂⟩ := (m.withPageTable table).translate_eq_resolve virtAddr writing nofun hsize
  exact ⟨_, m₁, _, m₂, h₁, h₂, resolve_withTlb m hcopies virtAddr size writing,
    Machine.translate_marks hsize h₁, Machine.translate_marks hsize h₂⟩

end

def twoPages : List TranslationEntry := [⟨0, 7, true, false, false, false⟩, ⟨1, 3, true, true, false, false⟩]

def secondPage : Vector TranslationEntry tlbSize :=
  #v[⟨1, 3, true, true, false, false⟩, ⟨0, 0, false, false, false, false⟩, ⟨0, 0, false, false, false, false⟩,
    ⟨0, 0, false, false, false, false⟩]

theorem secondPage_copies (i : Fin tlbSize) (h : (secondPage.get i).valid = true)
    : (secondPage.get i).Copies twoPages := by
  match i with
  | ⟨0, _⟩ => exact ⟨⟨1, 3, true, true, false, false⟩, rfl, rfl, rfl, rfl⟩
  | ⟨1, _⟩ | ⟨2, _⟩ | ⟨3, _⟩ => contradiction

def Machine.blank : Machine := .ofWords [] fun _ => 0

theorem tlb_refines_pageTable_secondPage
    : ∃ m₁ m₂, (Machine.blank.withTlb secondPage).translate 132 4 false = .ok (.ok 388, m₁) ∧
        (Machine.blank.withPageTable twoPages).translate 132 4 false = .ok (.ok 388, m₂) := by
  have htlb : (Machine.blank.withTlb secondPage).translate 132 4 false = .ok (.ok 388, _) := rfl
  obtain ⟨res, m₁, res', m₂, h₁, h₂, hres, -, -⟩ :=
    tlb_refines_pageTable .blank secondPage_copies 132 (.inr (.inr rfl)) false
  cases htlb.symm.trans h₁
  obtain ⟨hfault, -⟩ | rfl := hres
  . contradiction
  . exact ⟨_, m₂, rfl, h₂⟩

end Nachos
