import Mathlib.Tactic.IntervalCases
import Nachos.Machine.Translation

/-!
This module contains the byte order of `ReadMem` and `WriteMem`. The simulated machine is little endian, and
`translate.cc` converts from and to the order of the host.
-/

namespace Nachos

open Exit

/-! ### Host order -/

inductive HostOrder where
  | littleEndian
  | bigEndian

namespace HostOrder

variable (host : HostOrder)

def wordToHost (word : Word) : Word :=
  match host with
  | .bigEndian =>
    let result := (word >>> 24) &&& 0x000000ff
    let result := result ||| ((word >>> 8) &&& 0x0000ff00)
    let result := result ||| ((word <<< 8) &&& 0x00ff0000)
    result ||| ((word <<< 24) &&& 0xff000000)
  | .littleEndian => word

def shortToHost (shortword : BitVec 16) : BitVec 16 :=
  match host with
  | .bigEndian =>
    let result := (shortword <<< 8) &&& 0xff00
    result ||| ((shortword >>> 8) &&& 0x00ff)
  | .littleEndian => shortword

def wordToMachine (word : Word) : Word := wordToHost host word

def shortToMachine (shortword : BitVec 16) : BitVec 16 := shortToHost host shortword

def loadWord (byte : Nat → Byte) : Word :=
  match host with
  | .bigEndian => byte 0 ++ byte 1 ++ byte 2 ++ byte 3
  | .littleEndian => byte 3 ++ byte 2 ++ byte 1 ++ byte 0

def loadShort (byte : Nat → Byte) : BitVec 16 :=
  match host with
  | .bigEndian => byte 0 ++ byte 1
  | .littleEndian => byte 1 ++ byte 0

def storedByte (host : HostOrder) (size : Nat) (value : BitVec w) (i : Nat) : Byte :=
  match host with
  | .bigEndian => value.extractLsb' (8 * (size - 1 - i)) 8
  | .littleEndian => value.extractLsb' (8 * i) 8

theorem getLsbD_wordToHost (word : Word) {i : Nat} (hi : i < 32)
    : (bigEndian.wordToHost word).getLsbD i = word.getLsbD (8 * (3 - i / 8) + i % 8) := by
  have hmask0 : ∀ i < 32, (0x000000ff : Word).getLsbD i = decide (i < 8) := by decide
  have hmask1 : ∀ i < 32, (0x0000ff00 : Word).getLsbD i = decide (8 ≤ i ∧ i < 16) := by decide
  have hmask2 : ∀ i < 32, (0x00ff0000 : Word).getLsbD i = decide (16 ≤ i ∧ i < 24) := by decide
  have hmask3 : ∀ i < 32, (0xff000000 : Word).getLsbD i = decide (24 ≤ i) := by decide
  unfold wordToHost
  simp only [BitVec.getLsbD_or, BitVec.getLsbD_and, BitVec.getLsbD_ushiftRight, BitVec.getLsbD_shiftLeft,
    hmask0 i hi, hmask1 i hi, hmask2 i hi, hmask3 i hi]
  interval_cases i <;> simp

theorem getLsbD_shortToHost (shortword : BitVec 16) {i : Nat} (hi : i < 16)
    : (bigEndian.shortToHost shortword).getLsbD i = shortword.getLsbD (8 * (1 - i / 8) + i % 8) := by
  have hmask0 : ∀ i < 16, (0x00ff : BitVec 16).getLsbD i = decide (i < 8) := by decide
  have hmask1 : ∀ i < 16, (0xff00 : BitVec 16).getLsbD i = decide (8 ≤ i) := by decide
  unfold shortToHost
  simp only [BitVec.getLsbD_or, BitVec.getLsbD_and, BitVec.getLsbD_ushiftRight, BitVec.getLsbD_shiftLeft,
    hmask0 i hi, hmask1 i hi]
  interval_cases i <;> simp

theorem wordToHost_loadWord (byte : Nat → Byte)
    : host.wordToHost (host.loadWord byte) = littleEndian.loadWord byte := by
  cases host with
  | littleEndian => rfl
  | bigEndian =>
    apply BitVec.eq_of_getLsbD_eq
    intro i hi
    rw [getLsbD_wordToHost _ hi]
    unfold loadWord
    simp only [BitVec.getLsbD_append]
    interval_cases i <;> simp

theorem shortToHost_loadShort (byte : Nat → Byte)
    : host.shortToHost (host.loadShort byte) = littleEndian.loadShort byte := by
  cases host with
  | littleEndian => rfl
  | bigEndian =>
    apply BitVec.eq_of_getLsbD_eq
    intro i hi
    rw [getLsbD_shortToHost _ hi]
    unfold loadShort
    simp only [BitVec.getLsbD_append]
    interval_cases i <;> simp

theorem extractLsb'_of_swapped {w n i : Nat} {x y : BitVec w} (hw : w = 8 * n)
    (h : ∀ j < w, y.getLsbD j = x.getLsbD (8 * (n - 1 - j / 8) + j % 8)) (hi : i < n)
    : y.extractLsb' (8 * (n - 1 - i)) 8 = x.extractLsb' (8 * i) 8 := by
  apply BitVec.eq_of_getLsbD_eq
  intro j hj
  rw [BitVec.getLsbD_extractLsb', BitVec.getLsbD_extractLsb', h _ (by omega)]
  have hbyte : n - 1 - (8 * (n - 1 - i) + j) / 8 = i := by omega
  have hbit : (8 * (n - 1 - i) + j) % 8 = j := by omega
  rw [hbyte, hbit]

theorem storedByte_wordToMachine (value : Word) {i : Nat} (hi : i < 4)
    : host.storedByte 4 (host.wordToMachine value) i = value.extractLsb' (8 * i) 8 := by
  cases host with
  | littleEndian => rfl
  | bigEndian => exact extractLsb'_of_swapped rfl (fun _ => getLsbD_wordToHost value) hi

theorem storedByte_shortToMachine (value : BitVec 16) {i : Nat} (hi : i < 2)
    : host.storedByte 2 (host.shortToMachine value) i = value.extractLsb' (8 * i) 8 := by
  cases host with
  | littleEndian => rfl
  | bigEndian => exact extractLsb'_of_swapped rfl (fun _ => getLsbD_shortToHost value) hi

end HostOrder

namespace Machine

def storeBytes (m : Machine) (physicalAddress n : Nat) (byte : Nat → Byte) : Machine :=
  { m with
    mainMemory := fun address =>
      if physicalAddress ≤ address ∧ address < physicalAddress + n then
        byte (address - physicalAddress)
      else
        m.mainMemory address }

def hostLoad (m : Machine) (host : HostOrder) (physicalAddress size : Nat) : Option Word :=
  let byte i := m.mainMemory (physicalAddress + i)
  match size with
  | 1 => some ((byte 0).signExtend 32)
  | 2 => some ((host.shortToHost (host.loadShort byte)).setWidth 32)
  | 4 => some (host.wordToHost (host.loadWord byte))
  | _ => none

def hostStore (m : Machine) (host : HostOrder) (physicalAddress size : Nat) (value : Word) : Option Machine :=
  match size with
  | 1 => some (m.storeBytes physicalAddress 1 fun _ => (value &&& 0xff).setWidth 8)
  | 2 =>
    let shortword := host.shortToMachine ((value &&& 0xffff).setWidth 16)
    some (m.storeBytes physicalAddress 2 (host.storedByte 2 shortword))
  | 4 =>
    let word := host.wordToMachine value
    some (m.storeBytes physicalAddress 4 (host.storedByte 4 word))
  | _ => none

theorem hostLoad_eq (m : Machine) (host : HostOrder) (physicalAddress size : Nat)
    : m.hostLoad host physicalAddress size = m.load physicalAddress size := by
  unfold hostLoad load
  dsimp only
  rw [host.shortToHost_loadShort, host.wordToHost_loadWord]
  rfl

theorem storeBytes_congr {m : Machine} {physicalAddress n : Nat} {byte byte' : Nat → Byte}
    (h : ∀ i < n, byte i = byte' i)
    : m.storeBytes physicalAddress n byte = m.storeBytes physicalAddress n byte' := by
  unfold storeBytes
  congr 1
  funext address
  split
  next hin => exact h _ (by omega)
  next => rfl

theorem store_eq_storeBytes (m : Machine) (physicalAddress : Nat) {size : Nat} (value : Word)
    (hsize : size = 1 ∨ size = 2 ∨ size = 4)
    : m.store physicalAddress size value =
        some (m.storeBytes physicalAddress size fun i => value.extractLsb' (8 * i) 8) := by
  obtain rfl | rfl | rfl := hsize
  all_goals rfl

theorem store_eq_none (m : Machine) (physicalAddress : Nat) {size : Nat} (value : Word)
    (hsize : ¬(size = 1 ∨ size = 2 ∨ size = 4))
    : m.store physicalAddress size value = none := by
  unfold store
  grind

theorem extractLsb'_setWidth_and {n k i : Nat} {value mask : Word} (hn : n = 8 * k) (hi : i < k)
    (hmask : ∀ j < n, mask.getLsbD j = true)
    : ((value &&& mask).setWidth n).extractLsb' (8 * i) 8 = value.extractLsb' (8 * i) 8 := by
  apply BitVec.eq_of_getLsbD_eq
  intro j hj
  have hbit : 8 * i + j < n := by omega
  rw [BitVec.getLsbD_extractLsb', BitVec.getLsbD_extractLsb', BitVec.getLsbD_setWidth, BitVec.getLsbD_and,
    hmask _ hbit, decide_eq_true hbit, Bool.and_true, Bool.true_and]

theorem hostStore_eq (m : Machine) (host : HostOrder) (physicalAddress size : Nat) (value : Word)
    : m.hostStore host physicalAddress size value = m.store physicalAddress size value := by
  by_cases hsize : size = 1 ∨ size = 2 ∨ size = 4
  . rw [m.store_eq_storeBytes physicalAddress value hsize]
    obtain rfl | rfl | rfl := hsize
    . apply congrArg some
      apply storeBytes_congr
      intro i hi
      obtain rfl : i = 0 := by omega
      exact BitVec.extractLsb'_eq_self.symm.trans (extractLsb'_setWidth_and rfl hi (by decide))
    . apply congrArg some
      apply storeBytes_congr
      intro i hi
      rw [host.storedByte_shortToMachine _ hi]
      exact extractLsb'_setWidth_and rfl hi (by decide)
    . apply congrArg some
      apply storeBytes_congr
      intro i hi
      exact host.storedByte_wordToMachine value hi
  . rw [m.store_eq_none physicalAddress value hsize]
    unfold hostStore
    grind

end Machine

namespace Sim

variable (host : HostOrder) (handler : ExceptionType → Machine → Machine)

def hostReadMem (addr : Word) (size : Nat) : Sim Word := do
  let physicalAddress ← translate handler addr size false
  let m ← read Simulation.machine
  match m.hostLoad host physicalAddress size with
  | some value => return value
  | none => abort .size

def hostWriteMem (addr : Word) (size : Nat) (value : Word) : Sim Unit := do
  let physicalAddress ← translate handler addr size true
  let m ← read Simulation.machine
  match m.hostStore host physicalAddress size value with
  | some m => modify fun s => { s with machine := m }
  | none => abort .size

theorem hostReadMem_eq (addr : Word) (size : Nat)
    : hostReadMem host handler addr size = readMem handler addr size := by
  unfold hostReadMem readMem
  apply congrArg (translate handler addr size false >>= ·)
  funext physicalAddress
  apply congrArg (Exit.read Simulation.machine >>= ·)
  funext m
  have hload := m.hostLoad_eq host physicalAddress size
  cases h : m.load physicalAddress size with
  | none =>
    rw [h] at hload
    rw [hload]
  | some value =>
    rw [h] at hload
    rw [hload]

theorem hostWriteMem_eq (addr : Word) (size : Nat) (value : Word)
    : hostWriteMem host handler addr size value = writeMem handler addr size value := by
  unfold hostWriteMem writeMem
  apply congrArg (translate handler addr size true >>= ·)
  funext physicalAddress
  apply congrArg (Exit.read Simulation.machine >>= ·)
  funext m
  have hstore := m.hostStore_eq host physicalAddress size value
  cases h : m.store physicalAddress size value with
  | none =>
    rw [h] at hstore
    rw [hstore]
  | some m' =>
    rw [h] at hstore
    rw [hstore]

end Sim

/-! ### Bytes -/

def Word.byte (word : Word) (i : Nat) : Byte := word.extractLsb' (8 * i) 8

namespace Sim

variable (handler : ExceptionType → Machine → Machine)

theorem spec_translate_eq (addr : Word) (size : Nat) (writing : Bool) (s : Simulation)
    : Spec (translate handler addr size writing) s
        (fun physicalAddress s' => ∃ m, s' = { s with machine := m } ∧
          s.machine.translate addr size writing = .ok (.ok physicalAddress, m))
        (fun s' => ∃ which, s' = s.raise handler which addr) (fun _ => True) := by
  have htranslates := s.machine.translates addr size writing
  unfold translate
  rw [spec_bind, spec_read]
  generalize s.machine.translate addr size writing = res at htranslates
  cases htranslates with
  | exception which => exact ⟨which, rfl⟩
  | address slot entry => exact ⟨_, rfl, rfl⟩
  | tables => trivial
  | bound => trivial

theorem spec_readMem_eq (addr : Word) (size : Nat) (s : Simulation)
    : Spec (readMem handler addr size) s
        (fun value s' => ∃ physicalAddress m, s' = { s with machine := m } ∧
          s.machine.translate addr size false = .ok (.ok physicalAddress, m) ∧
          m.load physicalAddress size = some value)
        (fun s' => ∃ which, s' = s.raise handler which addr) (fun _ => True) := by
  unfold readMem
  rw [spec_bind]
  apply (spec_translate_eq handler addr size false s).mono ?_ (fun _ => id) (fun _ => id)
  rintro physicalAddress _ ⟨m, rfl, htranslate⟩
  rw [spec_bind, spec_read]
  dsimp only
  cases hload : m.load physicalAddress size with
  | some value => exact ⟨physicalAddress, m, rfl, htranslate, hload⟩
  | none => trivial

theorem spec_writeMem_eq (addr : Word) (size : Nat) (value : Word) (s : Simulation)
    : Spec (writeMem handler addr size value) s
        (fun _ s' => ∃ physicalAddress m m', s' = { s with machine := m' } ∧
          s.machine.translate addr size true = .ok (.ok physicalAddress, m) ∧
          m.store physicalAddress size value = some m')
        (fun s' => ∃ which, s' = s.raise handler which addr) (fun _ => True) := by
  unfold writeMem
  rw [spec_bind]
  apply (spec_translate_eq handler addr size true s).mono ?_ (fun _ => id) (fun _ => id)
  rintro physicalAddress _ ⟨m, rfl, htranslate⟩
  rw [spec_bind, spec_read]
  dsimp only
  cases hstore : m.store physicalAddress size value with
  | some m' => exact ⟨physicalAddress, m, m', rfl, htranslate, hstore⟩
  | none => trivial

end Sim

theorem load_byte {m : Machine} {physicalAddress size i : Nat} {value : Word}
    (h : m.load physicalAddress size = some value) (hi : i < size)
    : value.byte i = m.mainMemory (physicalAddress + i) := by
  unfold Machine.load at h
  dsimp only at h
  apply BitVec.eq_of_getLsbD_eq
  intro j hj
  unfold Word.byte
  rw [BitVec.getLsbD_extractLsb', decide_eq_true hj, Bool.true_and]
  split at h
  next =>
    cases h
    rw [BitVec.getLsbD_signExtend]
    grind
  next =>
    cases h
    rw [BitVec.getLsbD_setWidth]
    simp only [BitVec.getLsbD_append]
    grind
  next =>
    cases h
    simp only [BitVec.getLsbD_append]
    grind
  next => contradiction

namespace Machine

def frameOf (m : Machine) (vpn : Nat) : Option Nat :=
  match (m.pageTable.getD [])[vpn]? with
  | none => none
  | some page =>
    if page.valid = true ∧ page.physicalPage.toNat < numPhysPages then
      some page.physicalPage.toNat
    else
      none

def locate (m : Machine) (addr : Nat) : Option Nat :=
  (m.frameOf (addr / pageSize)).map fun frame => frame * pageSize + addr % pageSize

def DistinctFrames (table : List TranslationEntry) : Prop :=
  ∀ (i j : Nat) (page page' : TranslationEntry), table[i]? = some page → table[j]? = some page' →
    page.valid = true → page'.valid = true → page.physicalPage = page'.physicalPage → i = j

section

variable {m m' : Machine} {table : List TranslationEntry}

theorem frameOf_eq_some_iff (htable : m.pageTable = some table) {vpn frame : Nat}
    : m.frameOf vpn = some frame ↔
        ∃ page, table[vpn]? = some page ∧ page.valid = true ∧ page.physicalPage.toNat < numPhysPages ∧
          page.physicalPage.toNat = frame := by
  unfold frameOf
  rw [htable, Option.getD_some]
  cases table[vpn]? with
  | none => simp
  | some page => simp [and_assoc]

theorem locate_injective (htable : m.pageTable = some table) (hdistinct : DistinctFrames table)
    {addr addr' physicalAddress : Nat} (h : m.locate addr = some physicalAddress)
    (h' : m.locate addr' = some physicalAddress)
    : addr = addr' := by
  unfold locate at h h'
  rw [Option.map_eq_some_iff] at h h'
  obtain ⟨frame, hframe, rfl⟩ := h
  obtain ⟨frame', hframe', heq⟩ := h'
  have hsame : frame' = frame := by
    unfold pageSize at heq
    omega
  rw [frameOf_eq_some_iff htable] at hframe hframe'
  obtain ⟨page, hentry, hvalid, -, rfl⟩ := hframe
  obtain ⟨page', hentry', hvalid', -, rfl⟩ := hframe'
  have hpage := hdistinct _ _ page page' hentry hentry' hvalid hvalid' (BitVec.eq_of_toNat_eq hsame.symm)
  unfold pageSize at heq hpage
  omega

theorem frameOf_setEntry (htable : m.pageTable = some table) {vpn : Nat} {page : TranslationEntry}
    (hentry : table[vpn]? = some page) (use dirty : Bool)
    : (m.setEntry (.page vpn) { page with use, dirty }).frameOf = m.frameOf := by
  funext n
  unfold frameOf setEntry
  simp only [htable, Option.map_some, Option.getD_some]
  rw [List.getElem?_set]
  by_cases hn : vpn = n
  . subst hn
    have hlt := (List.getElem?_eq_some_iff.mp hentry).1
    rw [if_pos rfl, if_pos hlt, hentry]
  . rw [if_neg hn]

theorem locate_of_translate {virtAddr : Word} {size physicalAddress : Nat} {writing : Bool}
    (htlb : m.tlb = none) (hsize : size = 1 ∨ size = 2 ∨ size = 4)
    (h : m.translate virtAddr size writing = .ok (.ok physicalAddress, m'))
    : (∀ i < size, m.locate (virtAddr.toNat + i) = some (physicalAddress + i)) ∧
        virtAddr.toNat + size ≤ 2 ^ 32 ∧ m'.frameOf = m.frameOf ∧ m'.mainMemory = m.mainMemory ∧
        m'.tlb = none := by
  have htranslates := m.translates virtAddr size writing
  rw [h] at htranslates
  cases htranslates with
  | address slot entry haligned hentry hwriting hframe hbound =>
    have hoffset := haligned.offset_add_le hsize
    obtain ⟨hvalid, hslot⟩ := maps_of_findEntry hentry
    cases slot with
    | tlb i =>
      obtain ⟨-, _, htlb', -⟩ := hslot
      rw [htlb] at htlb'
      contradiction
    | page n =>
      obtain ⟨rfl, table, htable, hentry⟩ := hslot
      refine ⟨?_, ?_, frameOf_setEntry htable hentry _ _, rfl, htlb⟩
      . intro i hi
        have hframeOf := (frameOf_eq_some_iff htable).mpr ⟨entry, hentry, hvalid, hframe, rfl⟩
        have hdiv : (virtAddr.toNat + i) / pageSize = virtAddr.toNat / pageSize := by
          unfold pageSize at hoffset ⊢
          omega
        have hmod : (virtAddr.toNat + i) % pageSize = virtAddr.toNat % pageSize + i := by
          unfold pageSize at hoffset ⊢
          omega
        unfold locate
        rw [hdiv, hmod, hframeOf, Option.map_some, Nat.add_assoc]
      . have hlt := virtAddr.isLt
        unfold pageSize at hoffset
        omega

theorem translate_of_locate {virtAddr : Word} {physicalAddress : Nat} (htlb : m.tlb = none)
    (h : m.locate virtAddr.toNat = some physicalAddress)
    : ∃ m', m.translate virtAddr 1 false = .ok (.ok physicalAddress, m') := by
  unfold locate at h
  rw [Option.map_eq_some_iff] at h
  obtain ⟨frame, hframe, rfl⟩ := h
  cases htable : m.pageTable with
  | none =>
    unfold frameOf at hframe
    rw [htable] at hframe
    contradiction
  | some table =>
    have hone : m.tlb.isSome ≠ m.pageTable.isSome := by
      rw [htlb, htable]
      nofun
    rw [frameOf_eq_some_iff htable] at hframe
    obtain ⟨page, hentry, hvalid, hbound, rfl⟩ := hframe
    have hm : m = m.withPageTable table := by
      unfold withPageTable
      rw [← htlb, ← htable]
    have hresolve : m.resolve virtAddr 1 false =
        .ok (page.physicalPage.toNat * pageSize + virtAddr.toNat % pageSize) := by
      unfold resolve TranslationEntry.access
      rw [hm, findEntry_withPageTable m hentry hvalid]
      simp [Nat.not_le.mpr hbound]
    rw [← hresolve]
    exact m.translate_eq_resolve virtAddr false hone (.inl rfl)

end

end Machine

theorem Sim.readMem_of_locate (handler : ExceptionType → Machine → Machine) {s : Simulation} {addr : Word}
    {physicalAddress : Nat} (htlb : s.machine.tlb = none)
    (h : s.machine.locate addr.toNat = some physicalAddress)
    : ∃ value s', readMem handler addr 1 s = .ok (some value, s') ∧
        value.byte 0 = s.machine.mainMemory physicalAddress := by
  obtain ⟨m', htranslate⟩ := Machine.translate_of_locate htlb h
  obtain ⟨-, -, -, hmemory, -⟩ := Machine.locate_of_translate htlb (.inl rfl) htranslate
  have hload : m'.load physicalAddress 1 = some ((m'.mainMemory physicalAddress).signExtend 32) := rfl
  have hfound : translate handler addr 1 false s = .ok (some physicalAddress, { s with machine := m' }) := by
    unfold translate
    rw [read_bind_apply, htranslate]
    rfl
  have hread : readMem handler addr 1 s =
      .ok (some ((m'.mainMemory physicalAddress).signExtend 32), { s with machine := m' }) := by
    unfold readMem
    rw [bind_apply_of_ok hfound, read_bind_apply]
    rfl
  refine ⟨_, _, hread, ?_⟩
  rw [load_byte hload Nat.zero_lt_one, Nat.add_zero, hmemory]

section

variable {m written m' loaded : Machine} {table : List TranslationEntry} {a b v x : Word}
  {size size' pa pb i : Nat}

theorem size_of_store (h : m.store pa size v = some m') : size = 1 ∨ size = 2 ∨ size = 4 := by
  by_contra hsize
  rw [m.store_eq_none pa v hsize] at h
  contradiction

theorem size_of_load (h : m.load pa size = some v) : size = 1 ∨ size = 2 ∨ size = 4 := by
  unfold Machine.load at h
  grind

theorem byte_after_store (htlb : m.tlb = none) (htable : m.pageTable = some table)
    (hdistinct : Machine.DistinctFrames table) (hwrite : m.translate a size true = .ok (.ok pa, written))
    (hstore : written.store pa size v = some m')
    (hread : m'.translate b size' false = .ok (.ok pb, loaded)) (hload : loaded.load pb size' = some x)
    (hi : i < size')
    : m.locate (b.toNat + i) = some (pb + i) ∧ b.toNat + i < 2 ^ 32 ∧
        x.byte i =
          if a.toNat ≤ b.toNat + i ∧ b.toNat + i < a.toNat + size then
            v.byte (b.toNat + i - a.toNat)
          else
            m.mainMemory (pb + i) := by
  obtain ⟨hlocate, -, hframes, hmemory, htlb'⟩ :=
    Machine.locate_of_translate htlb (size_of_store hstore) hwrite
  rw [written.store_eq_storeBytes pa v (size_of_store hstore)] at hstore
  cases hstore
  have htlb' : (written.storeBytes pa size fun i => v.extractLsb' (8 * i) 8).tlb = none := htlb'
  obtain ⟨hlocate', hend, -, hmemory', -⟩ := Machine.locate_of_translate htlb' (size_of_load hload) hread
  have hlocated : m.locate (b.toNat + i) = some (pb + i) := by
    rw [← hlocate' i hi]
    unfold Machine.locate
    rw [← hframes]
    rfl
  -- The bytes of the two accesses are at the same place if they have the same address.
  have hsame : ∀ k < size, pb + i = pa + k ↔ b.toNat + i = a.toNat + k := by
    intro k hk
    constructor
    . intro heq
      rw [heq] at hlocated
      exact Machine.locate_injective htable hdistinct hlocated (hlocate k hk)
    . intro heq
      rw [heq, hlocate k hk] at hlocated
      exact (Option.some.inj hlocated).symm
  refine ⟨hlocated, by omega, ?_⟩
  rw [load_byte hload hi, hmemory']
  unfold Machine.storeBytes
  dsimp only
  by_cases hin : a.toNat ≤ b.toNat + i ∧ b.toNat + i < a.toNat + size
  . have hplace := (hsame (b.toNat + i - a.toNat) (by omega)).mpr (by omega)
    rw [if_pos hin, if_pos (by omega), hplace, Nat.add_sub_cancel_left]
    rfl
  . have hout : ¬(pa ≤ pb + i ∧ pb + i < pa + size) := by
      intro hplace
      have haddr := (hsame (pb + i - pa) (by omega)).mp (by omega)
      omega
    rw [if_neg hin, if_neg hout, hmemory]

end

def Refused (handler : ExceptionType → Machine → Machine) (s s' : Simulation) : Prop :=
  ∃ which badVAddr m, m.mainMemory = s.machine.mainMemory ∧
    s' = { machine := handler which m, raised := s.raised ++ [⟨which, badVAddr, m⟩] }

theorem refused_raise (handler : ExceptionType → Machine → Machine) (s : Simulation) (which : ExceptionType)
    (badVAddr : Word)
    : Refused handler s (s.raise handler which badVAddr) :=
  ⟨which, badVAddr, s.machine.atException badVAddr, Machine.delayedLoad_mainMemory _ 0 0, rfl⟩

theorem memory_is_byteStore (host : HostOrder) (handler : ExceptionType → Machine → Machine) {s : Simulation}
    {table : List TranslationEntry} (htlb : s.machine.tlb = none) (htable : s.machine.pageTable = some table)
    (hdistinct : Machine.DistinctFrames table)
    : (∀ a size v s₁, Sim.hostWriteMem host handler a size v s = .ok (some (), s₁) →
        ∀ b size' x s₂, Sim.hostReadMem host handler b size' s₁ = .ok (some x, s₂) →
          ∀ i < size',
            if a.toNat ≤ b.toNat + i ∧ b.toNat + i < a.toNat + size then
              x.byte i = v.byte (b.toNat + i - a.toNat)
            else
              ∃ y s', Sim.hostReadMem host handler (b + BitVec.ofNat 32 i) 1 s = .ok (some y, s') ∧
                x.byte i = y.byte 0) ∧
      (∀ a size v s', Sim.hostWriteMem host handler a size v s = .ok (none, s') → Refused handler s s') ∧
      (∀ b size s', Sim.hostReadMem host handler b size s = .ok (none, s') → Refused handler s s') := by
  simp only [Sim.hostReadMem_eq, Sim.hostWriteMem_eq]
  refine ⟨?_, ?_, ?_⟩
  . intro a size v s₁ hwrite b size' x s₂ hread i hi
    have hspec := Sim.spec_writeMem_eq handler a size v s
    unfold Spec at hspec
    rw [hwrite] at hspec
    obtain ⟨pa, m, m', rfl, htranslate, hstore⟩ := hspec
    have hspec := Sim.spec_readMem_eq handler b size' { s with machine := m' }
    unfold Spec at hspec
    rw [hread] at hspec
    obtain ⟨pb, m₂, rfl, htranslate', hload⟩ := hspec
    obtain ⟨hlocate, hlt, hbyte⟩ :=
      byte_after_store htlb htable hdistinct htranslate hstore htranslate' hload hi
    split
    next hin => rw [hbyte, if_pos hin]
    next hout =>
      have haddr : (b + BitVec.ofNat 32 i).toNat = b.toNat + i := by
        rw [BitVec.toNat_add, BitVec.toNat_ofNat]
        omega
      rw [← haddr] at hlocate
      obtain ⟨y, s', hread', hy⟩ := Sim.readMem_of_locate handler htlb hlocate
      exact ⟨y, s', hread', by rw [hbyte, if_neg hout, hy]⟩
  . intro a size v s' hwrite
    have hspec := Sim.spec_writeMem_eq handler a size v s
    unfold Spec at hspec
    rw [hwrite] at hspec
    obtain ⟨which, rfl⟩ := hspec
    exact refused_raise handler s which a
  . intro b size s' hread
    have hspec := Sim.spec_readMem_eq handler b size s
    unfold Spec at hspec
    rw [hread] at hspec
    obtain ⟨which, rfl⟩ := hspec
    exact refused_raise handler s which b

theorem distinctFrames_singleton (page : TranslationEntry) : Machine.DistinctFrames [page] := by
  intro i j _ _ hi hj _ _ _
  have hi := (List.getElem?_eq_some_iff.mp hi).1
  have hj := (List.getElem?_eq_some_iff.mp hj).1
  simp only [List.length_singleton] at hi hj
  omega

theorem memory_is_byteStore_overlap
    : ∃ s₁ x s₂,
        Sim.hostWriteMem .bigEndian (fun _ m => m) 0 4 0x01020304 ⟨.blank, []⟩ = .ok (some (), s₁) ∧
        Sim.hostReadMem .bigEndian (fun _ m => m) 2 2 s₁ = .ok (some x, s₂) ∧ x.byte 0 = 2 := by
  have hlaw := (memory_is_byteStore .bigEndian (fun _ m => m) (s := ⟨.blank, []⟩) rfl rfl
    (distinctFrames_singleton _)).1
  refine ⟨_, _, _, rfl, rfl, ?_⟩
  have hbyte := hlaw 0 4 0x01020304 _ rfl 2 2 _ _ rfl 0 (by decide)
  rw [if_pos (by decide)] at hbyte
  exact hbyte

end Nachos
