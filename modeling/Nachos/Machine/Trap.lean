import Nachos.Machine.Instruction

/-!
This module contains what an instruction may do: it either commits, or it raises one exception and leaves
no trace.
-/

namespace Nachos

open Function (update)
open Exit

/-! ### Address translation -/

namespace Machine

structure Untouched (m m' : Machine) : Prop where
  registers : m'.registers = m.registers
  mainMemory : m'.mainMemory = m.mainMemory
  tlb : m'.tlb.isSome = m.tlb.isSome
  pageTable : m'.pageTable.isSome = m.pageTable.isSome

theorem untouched_refl (m : Machine) : Untouched m m := ⟨rfl, rfl, rfl, rfl⟩

theorem Untouched.trans {m m' m'' : Machine} (h : Untouched m m') (h' : Untouched m' m'')
    : Untouched m m'' :=
  ⟨h'.registers.trans h.registers, h'.mainMemory.trans h.mainMemory, h'.tlb.trans h.tlb,
    h'.pageTable.trans h.pageTable⟩

theorem setEntry_untouched (m : Machine) (slot : Slot) (entry : TranslationEntry)
    : Untouched m (m.setEntry slot entry) := by
  cases slot with
  | page vpn => exact ⟨rfl, rfl, rfl, Option.isSome_map⟩
  | tlb i => exact ⟨rfl, rfl, Option.isSome_map, rfl⟩

def Aligned (virtAddr : Word) (size : Nat) : Prop :=
  ¬((size = 4 ∧ virtAddr &&& 3 ≠ 0) ∨ (size = 2 ∧ virtAddr &&& 1 ≠ 0))

inductive Translates (m : Machine) (virtAddr : Word) (size : Nat) (writing : Bool)
    : Except Abort (Except ExceptionType Nat × Machine) → Prop where
  | exception (which : ExceptionType)
    : Translates m virtAddr size writing (.ok (.error which, m))
  | address (slot : Slot) (entry : TranslationEntry) (haligned : Aligned virtAddr size)
      (hentry : m.findEntry (virtAddr.toNat / pageSize) = .ok (slot, entry))
      (hwriting : ¬(entry.readOnly ∧ writing)) (hframe : entry.physicalPage.toNat < numPhysPages)
      (hbound : entry.physicalPage.toNat * pageSize + virtAddr.toNat % pageSize + size ≤ memorySize)
    : Translates m virtAddr size writing
        (.ok (.ok (entry.physicalPage.toNat * pageSize + virtAddr.toNat % pageSize),
          m.setEntry slot { entry with use := true, dirty := entry.dirty || writing }))
  | tables (a : Abort) (htables : m.tlb.isSome = m.pageTable.isSome)
    : Translates m virtAddr size writing (.error a)
  | bound (frame : Nat) (haligned : Aligned virtAddr size) (hframe : frame < numPhysPages)
      (hbound : memorySize < frame * pageSize + virtAddr.toNat % pageSize + size)
    : Translates m virtAddr size writing (.error .physAddr)

theorem translates (m : Machine) (virtAddr : Word) (size : Nat) (writing : Bool)
    : Translates m virtAddr size writing (m.translate virtAddr size writing) := by
  unfold translate
  split
  next => exact .exception _
  next haligned =>
    split
    next hboth => exact .tables _ (by rw [hboth.1, hboth.2])
    next =>
      split
      next hnone =>
        refine .tables _ ?_
        rw [Option.isNone_iff_eq_none, Option.isNone_iff_eq_none] at hnone
        rw [hnone.1, hnone.2]
        rfl
      next =>
        dsimp only
        split
        next => exact .exception _
        next slot entry hentry =>
          split
          next => exact .exception _
          next hwriting =>
            split
            next => exact .exception _
            next hframe =>
              have hframe : entry.physicalPage.toNat < numPhysPages := Nat.lt_of_not_ge hframe
              split
              next hbound => exact .address slot entry haligned hentry hwriting hframe hbound
              next hbound => exact .bound _ haligned hframe (Nat.lt_of_not_ge hbound)

theorem and_ones_eq_zero {k : Nat} (hk : k < 32) (a : Word)
    : a &&& BitVec.ofNat 32 (2 ^ k - 1) = 0 ↔ a.toNat % 2 ^ k = 0 := by
  have hlt : 2 ^ k - 1 < 2 ^ 32 := by
    have : 2 ^ k < 2 ^ 32 := Nat.pow_lt_pow_right (by decide) hk
    omega
  rw [← BitVec.toNat_inj, BitVec.toNat_and, BitVec.toNat_ofNat, Nat.mod_eq_of_lt hlt,
    Nat.and_two_pow_sub_one_eq_mod]
  rfl

theorem Aligned.offset_add_le {virtAddr : Word} {size : Nat} (h : Aligned virtAddr size)
    (hsize : size = 1 ∨ size = 2 ∨ size = 4)
    : virtAddr.toNat % pageSize + size ≤ pageSize := by
  unfold Aligned at h
  unfold pageSize
  obtain rfl | rfl | rfl := hsize
  . omega
  . have h : virtAddr &&& 1 = 0 := by simpa using h
    have := (and_ones_eq_zero (k := 1) (by decide) virtAddr).mp h
    omega
  . have h : virtAddr &&& 3 = 0 := by simpa using h
    have := (and_ones_eq_zero (k := 2) (by decide) virtAddr).mp h
    omega

theorem tables_of_translate {m : Machine} {virtAddr : Word} {size : Nat} {writing : Bool} {a : Abort}
    (h : m.translate virtAddr size writing = .error a) (hsize : size = 1 ∨ size = 2 ∨ size = 4)
    : m.tlb.isSome = m.pageTable.isSome := by
  have htranslates := m.translates virtAddr size writing
  rw [h] at htranslates
  cases htranslates with
  | tables _ htables => exact htables
  | bound frame haligned hframe hbound =>
    have hoffset := haligned.offset_add_le hsize
    have hmul : (frame + 1) * pageSize ≤ numPhysPages * pageSize := Nat.mul_le_mul_right _ hframe
    rw [Nat.succ_mul] at hmul
    unfold memorySize at hbound
    omega

theorem ofIndex_of_lt {i : Nat} (h : i < 32) : Register.ofIndex i = some (.gp ⟨i, h⟩) := by
  simp [Register.ofIndex, h]

theorem delayedLoad_registers {m : Machine} (h : (m.registers .load).toNat < 32) (nextReg nextValue : Word)
    (r : Register)
    : (m.delayedLoad nextReg nextValue).registers r =
        match r with
        | .load => nextReg
        | .loadValue => nextValue
        | .gp i =>
          if i = 0 then
            0
          else if i.val = (m.registers .load).toNat then
            m.registers .loadValue
          else
            m.registers (.gp i)
        | r => m.registers r := by
  unfold delayedLoad
  rw [ofIndex_of_lt h]
  cases r with
  | gp i =>
    by_cases hzero : i = 0
    . simp [setRegister, hzero]
    . by_cases hi : i.val = (m.registers .load).toNat
      . have hi' : i = ⟨(m.registers .load).toNat, h⟩ := Fin.ext hi
        simp [setRegister, hzero, hi, ← hi']
      . have hi' : i ≠ ⟨(m.registers .load).toNat, h⟩ := fun heq => hi (congrArg Fin.val heq)
        simp [setRegister, hzero, hi, hi']
  | _ => simp [setRegister]

@[simp]
theorem delayedLoad_mainMemory (m : Machine) (nextReg nextValue : Word)
    : (m.delayedLoad nextReg nextValue).mainMemory = m.mainMemory := by
  unfold delayedLoad
  split <;> rfl

def peek (m : Machine) (addr : Word) (size : Nat) : Option Word :=
  match m.translate addr size false with
  | .ok (.ok physicalAddress, m) => m.load physicalAddress size
  | _ => none

def atException (m : Machine) (badVAddr : Word) : Machine :=
  (m.setRegister .badVAddr badVAddr).delayedLoad 0 0

end Machine

/-! ### The functions of the simulation -/

def Simulation.raise (handler : ExceptionType → Machine → Machine) (s : Simulation) (which : ExceptionType)
    (badVAddr : Word) : Simulation where
  machine := handler which (s.machine.atException badVAddr)
  raised := s.raised ++ [⟨which, badVAddr, s.machine.atException badVAddr⟩]

namespace Sim

section

variable {handler : ExceptionType → Machine → Machine} {s : Simulation} {exited : Simulation → Prop}
  {aborted : Machine.Abort → Prop}

@[simp]
theorem spec_setRegister (r : Register) (value : Word) {post : Unit → Simulation → Prop}
    : Spec (setRegister r value) s post exited aborted ↔
        post () { s with machine := s.machine.setRegister r value } := Iff.rfl

@[simp]
theorem spec_delayedLoad (nextReg nextValue : Word) {post : Unit → Simulation → Prop}
    : Spec (delayedLoad nextReg nextValue) s post exited aborted ↔
        post () { s with machine := s.machine.delayedLoad nextReg nextValue } := Iff.rfl

@[simp]
theorem spec_trap (which : ExceptionType) (badVAddr : Word) {post : α → Simulation → Prop}
    : Spec (trap handler which badVAddr) s post exited aborted ↔
        exited (s.raise handler which badVAddr) := Iff.rfl

theorem spec_translate {addr : Word} {size : Nat} {writing : Bool} {post : Nat → Simulation → Prop}
    (hpost : ∀ physAddr m, s.machine.Untouched m → post physAddr { s with machine := m })
    (hexited : ∀ which, exited (s.raise handler which addr))
    (haborted : ∀ a, s.machine.translate addr size writing = .error a → aborted a)
    : Spec (translate handler addr size writing) s post exited aborted := by
  have htranslates := s.machine.translates addr size writing
  unfold translate
  rw [spec_bind, spec_read]
  generalize s.machine.translate addr size writing = res at htranslates haborted
  cases htranslates with
  | exception which => exact hexited which
  | address slot entry => exact hpost _ _ (s.machine.setEntry_untouched slot _)
  | tables a => exact haborted a rfl
  | bound => exact haborted _ rfl

theorem spec_readMem {addr : Word} {size : Nat} {post : Word → Simulation → Prop}
    (hsize : size = 1 ∨ size = 2 ∨ size = 4)
    (hpost : ∀ value m, s.machine.Untouched m → s.machine.peek addr size = some value →
      post value { s with machine := m })
    (hexited : ∀ which, s.machine.peek addr size = none → exited (s.raise handler which addr))
    (haborted : ∀ a, s.machine.translate addr size false = .error a → aborted a)
    : Spec (readMem handler addr size) s post exited aborted := by
  have htranslates := s.machine.translates addr size false
  unfold Machine.peek at hpost hexited
  unfold readMem translate
  rw [spec_bind, spec_bind, spec_read]
  generalize s.machine.translate addr size false = res at htranslates hpost hexited haborted
  cases htranslates with
  | exception which => exact hexited which rfl
  | address slot entry =>
    have huntouched := s.machine.setEntry_untouched slot
      { entry with use := true, dirty := entry.dirty || false }
    obtain rfl | rfl | rfl := hsize
    all_goals exact hpost _ _ huntouched rfl
  | tables a => exact haborted a rfl
  | bound => exact haborted _ rfl

theorem spec_writeMem {addr : Word} {size : Nat} {value : Word} {post : Unit → Simulation → Prop}
    (hsize : size = 1 ∨ size = 2 ∨ size = 4)
    (hpost : ∀ m, m.registers = s.machine.registers → post () { s with machine := m })
    (hexited : ∀ which, exited (s.raise handler which addr))
    (haborted : ∀ a, s.machine.translate addr size true = .error a → aborted a)
    : Spec (writeMem handler addr size value) s post exited aborted := by
  unfold writeMem
  rw [spec_bind]
  refine spec_translate ?_ hexited haborted
  intro physAddr m hm
  rw [spec_bind, spec_read]
  obtain rfl | rfl | rfl := hsize
  all_goals exact hpost _ hm.registers

end

end Sim

/-! ### Precise exceptions -/

def Register.isControl : Register → Bool
  | .gp _ | .hi | .lo => false
  | _ => true

structure Keeps (s s' : Simulation) : Prop where
  raised : s'.raised = s.raised
  control : ∀ r : Register, r.isControl = true → s'.machine.registers r = s.machine.registers r

/--
One exception was raised, in a state where nothing was done yet.
-/
def Traps (handler : ExceptionType → Machine → Machine) (s s' : Simulation) : Prop :=
  ∃ m which badVAddr, s.machine.Untouched m ∧
    s' = Simulation.raise handler { s with machine := m } which badVAddr

section

variable {handler : ExceptionType → Machine → Machine} {s s' : Simulation} {r : Register} {value : Word}

theorem keeps_refl (s : Simulation) : Keeps s s := ⟨rfl, fun _ _ => rfl⟩

theorem Keeps.setRegister (h : Keeps s s') (hr : r.isControl = false)
    : Keeps s { s' with machine := s'.machine.setRegister r value } := by
  refine ⟨h.raised, ?_⟩
  intro r' hr'
  have hne : r' ≠ r := by
    rintro rfl
    rw [hr] at hr'
    contradiction
  change update s'.machine.registers r value r' = _
  rw [Function.update_of_ne hne]
  exact h.control r' hr'

theorem keeps_of_registers {m : Machine} (h : m.registers = s.machine.registers)
    : Keeps s { s with machine := m } :=
  ⟨rfl, fun r _ => congrFun h r⟩

theorem traps_raise (which : ExceptionType) (badVAddr : Word)
    : Traps handler s (s.raise handler which badVAddr) :=
  ⟨s.machine, which, badVAddr, s.machine.untouched_refl, rfl⟩

def Instruction.Unaligned (instr : Instruction) (registers : Register → Word) : Prop :=
  instr.opCode ∈ [.lwl, .lwr, .swl, .swr] ∧ (registers (.gp instr.rs) + instr.extra) &&& 3 ≠ 0

def Instruction.Crashes (instr : Instruction) (m : Machine) : Prop :=
  instr.Unaligned m.registers ∨ instr.opCode ∈ [.rfe, .special, .bcond] ∨
    m.tlb.isSome = m.pageTable.isSome

theorem execute_spec (handler : ExceptionType → Machine → Machine) (instr : Instruction) (pcAfter : Word)
    (s : Simulation)
    : Spec (Sim.execute handler instr pcAfter) s
        (fun next s' => Keeps s s' ∧ next.nextLoadReg.toNat < 32) (Traps handler s)
        (fun _ => instr.Crashes s.machine) := by
  have hset : ∀ {r : Register} {value : Word}, r.isControl = false →
      Keeps s { s with machine := s.machine.setRegister r value } :=
    fun hr => (keeps_refl s).setRegister hr
  have hload : (BitVec.ofNat 32 instr.rt : Word).toNat < 32 := by
    have := instr.rt.isLt
    rw [BitVec.toNat_ofNat]
    omega
  have hzero : (0 : Word).toNat < 32 := by decide
  have htables : ∀ {a addr size writing}, s.machine.translate addr size writing = .error a →
      (size = 1 ∨ size = 2 ∨ size = 4) → instr.Crashes s.machine :=
    fun ha hsize => .inr (.inr (Machine.tables_of_translate ha hsize))
  unfold Sim.execute
  rw [spec_bind, spec_read]
  cases hop : instr.opCode with
  | addiu | addu | and | andi | lui | mfhi | mflo | mthi | mtlo | nor | or | ori | sll | sllv | slt | slti
  | sltiu | sltu | sra | srav | srl | srlv | subu | xor | xori | jal => exact ⟨hset rfl, hzero⟩
  | j | jr => exact ⟨keeps_refl s, hzero⟩
  | beq | bgez | bgtz | blez | bltz | bne =>
    refine ⟨keeps_refl s, ?_⟩
    split <;> exact hzero
  | jalr => exact ⟨hset rfl, hzero⟩
  | bgezal | bltzal =>
    refine ⟨hset rfl, ?_⟩
    split <;> exact hzero
  | add | addi | sub =>
    dsimp only
    rw [spec_ite]
    exact ⟨fun _ => traps_raise _ _, fun _ => ⟨hset rfl, hzero⟩⟩
  | div | divu =>
    dsimp only
    rw [spec_ite]
    exact ⟨fun _ => ⟨(hset rfl).setRegister rfl, hzero⟩,
      fun _ => ⟨(hset rfl).setRegister rfl, hzero⟩⟩
  | mult | multu => exact ⟨(hset rfl).setRegister rfl, hzero⟩
  | syscall | res | unimp => exact traps_raise _ _
  | rfe | special | bcond => exact .inr (.inl (by simp [hop]))
  | lb | lbu =>
    rw [spec_bind]
    refine Sim.spec_readMem (by decide) ?_ (fun _ _ => traps_raise _ _) (fun _ ha => htables ha (by decide))
    intro value m hm _
    exact ⟨keeps_of_registers hm.registers, hload⟩
  | lh | lhu | lw =>
    dsimp only
    rw [spec_ite, spec_bind]
    refine ⟨fun _ => traps_raise _ _, fun _ => ?_⟩
    refine Sim.spec_readMem (by decide) ?_ (fun _ _ => traps_raise _ _) (fun _ ha => htables ha (by decide))
    intro value m hm _
    exact ⟨keeps_of_registers hm.registers, hload⟩
  | lwl | lwr =>
    dsimp only
    rw [spec_ite, spec_bind]
    refine ⟨fun htmp => .inl ⟨by simp [hop], htmp⟩, fun _ => ?_⟩
    refine Sim.spec_readMem (by decide) ?_ (fun _ _ => traps_raise _ _) (fun _ ha => htables ha (by decide))
    intro value m hm _
    exact ⟨keeps_of_registers hm.registers, hload⟩
  | sb | sh | sw =>
    rw [spec_bind]
    refine Sim.spec_writeMem (by decide) ?_ (fun _ => traps_raise _ _) (fun _ ha => htables ha (by decide))
    intro m hm
    exact ⟨keeps_of_registers hm, hzero⟩
  | swl | swr =>
    dsimp only
    rw [spec_ite, spec_bind]
    refine ⟨fun htmp => .inl ⟨by simp [hop], htmp⟩, fun _ => ?_⟩
    refine Sim.spec_readMem (by decide) ?_ (fun _ _ => traps_raise _ _) (fun _ ha => htables ha (by decide))
    intro value m hm _
    rw [spec_bind]
    refine Sim.spec_writeMem (by decide) ?_ ?_ ?_
    . intro m' hm'
      exact ⟨keeps_of_registers (hm'.trans hm.registers), hzero⟩
    . -- the write may raise an exception after the read has set the use bit
      intro which
      exact ⟨m, which, _, hm, rfl⟩
    . intro a ha
      have heq := Machine.tables_of_translate ha (by decide)
      rw [hm.tlb, hm.pageTable] at heq
      exact .inr (.inr heq)

theorem advance_spec {next : Next} {post : Unit → Simulation → Prop} {exited : Simulation → Prop}
    {aborted : Machine.Abort → Prop} (hload : (s.machine.registers .load).toNat < 32)
    (hpost : ∀ m, m.registers .prevPC = s.machine.registers .pc →
      m.registers .pc = s.machine.registers .nextPC → m.registers .nextPC = next.pcAfter →
      post () { s with machine := m })
    : Spec (Sim.advance next) s post exited aborted := by
  unfold Sim.advance
  simp only [spec_bind, Sim.spec_delayedLoad, spec_read, Sim.spec_setRegister]
  apply hpost
  . simp [Machine.setRegister, Machine.delayedLoad_registers hload]
  . simp [Machine.setRegister, Machine.delayedLoad_registers hload]
  . simp [Machine.setRegister]

structure Commits (s s' : Simulation) : Prop where
  raised : s'.raised = s.raised
  prevPC : s'.machine.registers .prevPC = s.machine.registers .pc
  pc : s'.machine.registers .pc = s.machine.registers .nextPC

theorem oneInstruction_spec (handler : ExceptionType → Machine → Machine) (s : Simulation)
    (hload : (s.machine.registers .load).toNat < 32)
    : Spec (Sim.oneInstruction handler) s (fun _ s' => Commits s s') (Traps handler s) (fun _ => True) := by
  unfold Sim.oneInstruction
  rw [spec_bind, spec_read, spec_bind]
  refine Sim.spec_readMem (by decide) ?_ (fun _ _ => traps_raise _ _) (fun _ _ => trivial)
  intro raw m hm _
  rw [spec_bind, spec_read, spec_bind]
  refine (execute_spec handler _ _ _).mono ?_ ?_ (fun _ _ => trivial)
  . intro next s' ⟨hkeeps, _⟩
    have hcontrol : ∀ r : Register, r.isControl = true →
        s'.machine.registers r = s.machine.registers r := by
      intro r hr
      rw [hkeeps.control r hr]
      exact congrFun hm.registers r
    apply advance_spec
    . rw [hcontrol .load rfl]
      exact hload
    . intro m' hprev hpc _
      exact ⟨hkeeps.raised, hprev.trans (hcontrol .pc rfl), hpc.trans (hcontrol .nextPC rfl)⟩
  . rintro s' ⟨m', which, badVAddr, hm', rfl⟩
    exact ⟨m', which, badVAddr, hm.trans hm', rfl⟩

/--
What `ExceptionHandler` finds: the state before the instruction, with the pending load applied.
-/
structure Restartable (m : Machine) (e : Raised) : Prop where
  mainMemory : e.machine.mainMemory = m.mainMemory
  special : ∀ r ∈ [Register.pc, .nextPC, .prevPC, .hi, .lo], e.machine.registers r = m.registers r
  general : ∀ i, e.machine.registers (.gp i) =
    if i = 0 then
      0
    else if i.val = (m.registers .load).toNat then
      m.registers .loadValue
    else
      m.registers (.gp i)
  load : e.machine.registers .load = 0
  loadValue : e.machine.registers .loadValue = 0
  badVAddr : e.machine.registers .badVAddr = e.badVAddr

theorem restartable {m m' : Machine} (h : m.Untouched m') (hload : (m.registers .load).toNat < 32)
    (which : ExceptionType) (badVAddr : Word)
    : Restartable m ⟨which, badVAddr, m'.atException badVAddr⟩ := by
  have hset : ∀ r, r ≠ .badVAddr →
      (m'.setRegister .badVAddr badVAddr).registers r = m.registers r := by
    intro r hr
    rw [← h.registers]
    exact Function.update_of_ne hr _ _
  have hload' : ((m'.setRegister .badVAddr badVAddr).registers .load).toNat < 32 := by
    rw [hset .load (by decide)]
    exact hload
  have hregisters := Machine.delayedLoad_registers hload' 0 0
  constructor
  . dsimp only [Machine.atException]
    rw [Machine.delayedLoad_mainMemory]
    exact h.mainMemory
  . intro r hr
    dsimp only [Machine.atException]
    rw [hregisters]
    simp only [List.mem_cons, List.not_mem_nil, or_false] at hr
    obtain rfl | rfl | rfl | rfl | rfl := hr
    all_goals exact hset _ (by decide)
  . intro i
    dsimp only [Machine.atException]
    rw [hregisters]
    dsimp only
    rw [hset .load (by decide), hset .loadValue (by decide), hset (.gp i) (by simp)]
  . exact hregisters .load
  . exact hregisters .loadValue
  . dsimp only [Machine.atException]
    rw [hregisters]
    exact Function.update_self Register.badVAddr badVAddr m'.registers

theorem precise_exceptions {m : Machine} {res : Option Unit}
    (hload : (m.registers .load).toNat < 32) (h : Sim.oneInstruction handler ⟨m, []⟩ = .ok (res, s'))
    : (res = some () ∧ s'.raised = [] ∧ s'.machine.registers .prevPC = m.registers .pc ∧
        s'.machine.registers .pc = m.registers .nextPC) ∨
      (res = none ∧ ∃ e, s'.raised = [e] ∧ s'.machine = handler e.which e.machine ∧ Restartable m e) := by
  have hspec := oneInstruction_spec handler ⟨m, []⟩ hload
  unfold Spec at hspec
  rw [h] at hspec
  cases res with
  | some =>
    exact .inl ⟨rfl, hspec.raised, hspec.prevPC, hspec.pc⟩
  | none =>
    obtain ⟨m', which, badVAddr, hm', rfl⟩ := hspec
    exact .inr ⟨rfl, ⟨which, badVAddr, m'.atException badVAddr⟩, rfl, rfl,
      restartable hm' hload which badVAddr⟩

end

def Machine.ofWords (words : List Word) (general : Fin 32 → Word) : Machine where
  registers
    | .gp i => general i
    | .nextPC => 4
    | _ => 0
  mainMemory address := (words.getD (address / 4) 0).extractLsb' (8 * (address % 4)) 8
  tlb := none
  pageTable := some [⟨0, 0, true, false, false, false⟩]

def Machine.overflowing : Machine :=
  .ofWords [0x00221820] fun i => if i = 1 then 0x7fffffff else if i = 2 then 1 else 0

theorem precise_exceptions_overflowing
    : ∃ s' e, Sim.oneInstruction (fun _ m => m) ⟨.overflowing, []⟩ = .ok (none, s') ∧ s'.raised = [e] ∧
        e.which = .overflowException ∧ Restartable .overflowing e := by
  refine ⟨_, _, rfl, rfl, rfl, ?_⟩
  have h : Sim.oneInstruction (fun _ m => m) ⟨.overflowing, []⟩ = .ok (none, _) := rfl
  obtain ⟨hres, _⟩ | ⟨_, e, hraised, _, hrestartable⟩ := precise_exceptions (by decide) h
  . contradiction
  . cases hraised
    exact hrestartable

/-! ### Assertions -/

def Machine.fetch (m : Machine) : Option Word :=
  m.peek (m.registers .pc) 4

theorem Sim.readMem_of_peek (handler : ExceptionType → Machine → Machine) {s : Simulation} {addr value : Word}
    (h : s.machine.peek addr 4 = some value)
    : ∃ m, s.machine.Untouched m ∧ readMem handler addr 4 s = .ok (some value, { s with machine := m }) := by
  have hspec : Spec (readMem handler addr 4) s
      (fun value' s' => value' = value ∧ ∃ m, s.machine.Untouched m ∧ s' = { s with machine := m })
      (fun _ => False) (fun _ => False) := by
    apply spec_readMem (by decide)
    . intro value' m hm hvalue'
      exact ⟨Option.some.inj (hvalue'.symm.trans h), m, hm, rfl⟩
    . intro _ hnone
      exact absurd (h.symm.trans hnone) (Option.some_ne_none value)
    . intro a ha
      unfold Machine.peek at h
      rw [ha] at h
      contradiction
  unfold Spec at hspec
  split at hspec
  next hread =>
    obtain ⟨rfl, m, hm, rfl⟩ := hspec
    exact ⟨m, hm, hread⟩
  next => exact hspec.elim
  next => exact hspec.elim

theorem oneInstruction_of_fetch (handler : ExceptionType → Machine → Machine) {m : Machine} {raw : Word}
    (hraw : m.fetch = some raw) (raised : List Raised)
    : ∃ m', m.Untouched m' ∧
        Sim.oneInstruction handler ⟨m, raised⟩ =
          (Sim.execute handler (.decode raw) (m.registers .nextPC + 4) >>= Sim.advance) ⟨m', raised⟩ := by
  obtain ⟨m', hm', hread⟩ := Sim.readMem_of_peek handler (s := ⟨m, raised⟩) hraw
  refine ⟨m', hm', ?_⟩
  unfold Sim.oneInstruction
  rw [read_bind_apply, bind_apply_of_ok hread, read_bind_apply]
  dsimp only
  rw [hm'.registers]

theorem decode_opCode_cases (value : Word)
    : (∃ i, (Instruction.decode value).opCode = specialTable.get i) ∨
      (Instruction.decode value).opCode ∈ [.bltz, .bgez, .bltzal, .bgezal, .unimp] ∨
      ((Instruction.decode value).opCode = (opTable.get (value.extractLsb' 26 6).toFin).1 ∧
        (Instruction.decode value).opCode ∉ [.special, .bcond]) := by
  unfold Instruction.decode
  generalize opTable.get (value.extractLsb' 26 6).toFin = info
  obtain ⟨opCode, format⟩ := info
  dsimp only
  split
  next => exact .inl ⟨_, rfl⟩
  next =>
    refine .inr (.inl ?_)
    split
    . decide
    . split
      . decide
      . split
        . decide
        . split <;> decide
  next hspecial hbcond =>
    refine .inr (.inr ⟨rfl, ?_⟩)
    simp only [List.mem_cons, List.not_mem_nil, or_false, not_or]
    exact ⟨hspecial, hbcond⟩

theorem decode_opCode (value : Word) : (Instruction.decode value).opCode ∉ [.rfe, .special, .bcond] := by
  have hop : ∀ i, (opTable.get i).1 ≠ .rfe := by decide
  have hspecial : ∀ i, specialTable.get i ∉ [OpCode.rfe, .special, .bcond] := by decide
  rcases decode_opCode_cases value with ⟨i, h⟩ | h | ⟨h, hrest⟩
  . rw [h]
    exact hspecial i
  . revert h
    generalize (Instruction.decode value).opCode = opCode
    cases opCode <;> decide
  . rw [List.mem_cons, not_or]
    refine ⟨?_, hrest⟩
    rw [h]
    exact hop _

structure Machine.UserState (m : Machine) : Prop where
  oneTable : m.tlb.isSome ≠ m.pageTable.isSome
  pageFrames : ∀ table, m.pageTable = some table → ∀ entry ∈ table, entry.physicalPage.toNat < numPhysPages
  tlbFrames : ∀ tlb, m.tlb = some tlb → ∀ i, (tlb.get i).physicalPage.toNat < numPhysPages
  load : (m.registers .load).toNat < 32

theorem execute_unaligned (handler : ExceptionType → Machine → Machine) {instr : Instruction} {s : Simulation}
    (h : instr.Unaligned s.machine.registers) (pcAfter : Word)
    : Spec (Sim.execute handler instr pcAfter) s (fun _ _ => False) (fun _ => False) (fun _ => True) := by
  obtain ⟨hop, htmp⟩ := h
  unfold Sim.execute
  rw [spec_bind, spec_read]
  simp only [List.mem_cons, List.not_mem_nil, or_false] at hop
  obtain hop | hop | hop | hop := hop
  all_goals
    rw [hop]
    dsimp only
    rw [if_pos htmp]
    trivial

theorem oneInstruction_aborts_iff (handler : ExceptionType → Machine → Machine) {m : Machine}
    (hone : m.tlb.isSome ≠ m.pageTable.isSome) (raised : List Raised)
    : (∃ a, Sim.oneInstruction handler ⟨m, raised⟩ = .error a) ↔
        ∃ raw, m.fetch = some raw ∧ (Instruction.decode raw).Unaligned m.registers := by
  constructor
  . rintro ⟨a, ha⟩
    have hspec : Spec (Sim.oneInstruction handler) ⟨m, raised⟩ (fun _ _ => True) (fun _ => True)
        (fun _ => ∃ raw, m.fetch = some raw ∧ (Instruction.decode raw).Unaligned m.registers) := by
      unfold Sim.oneInstruction
      rw [spec_bind, spec_read, spec_bind]
      refine Sim.spec_readMem (by decide) ?_ (fun _ _ => trivial) ?_
      . intro raw m' hm' hraw
        rw [spec_bind, spec_read, spec_bind]
        refine (execute_spec handler _ _ _).mono (fun _ _ _ => trivial) (fun _ _ => trivial) ?_
        rintro a (hunaligned | hop | htables)
        . rw [hm'.registers] at hunaligned
          exact ⟨raw, hraw, hunaligned⟩
        . exact absurd hop (decode_opCode raw)
        . rw [hm'.tlb, hm'.pageTable] at htables
          exact absurd htables hone
      . intro a ha
        exact absurd (Machine.tables_of_translate ha (by decide)) hone
    unfold Spec at hspec
    rw [ha] at hspec
    exact hspec
  . rintro ⟨raw, hraw, hunaligned⟩
    have hspec : Spec (Sim.oneInstruction handler) ⟨m, raised⟩ (fun _ _ => False) (fun _ => False)
        (fun _ => True) := by
      unfold Sim.oneInstruction
      rw [spec_bind, spec_read, spec_bind]
      refine Sim.spec_readMem (by decide) ?_ ?_ (fun _ _ => trivial)
      . intro raw' m' hm' hraw'
        obtain rfl : raw' = raw := Option.some.inj (hraw'.symm.trans hraw)
        rw [spec_bind, spec_read, spec_bind]
        refine (execute_unaligned handler ?_ _).mono (fun _ _ h => h.elim) (fun _ => id) (fun _ => id)
        rw [hm'.registers]
        exact hunaligned
      . intro _ hnone
        exact absurd (hraw.symm.trans hnone) (Option.some_ne_none raw)
    unfold Spec at hspec
    split at hspec
    next => exact hspec.elim
    next => exact hspec.elim
    next a ha => exact ⟨a, ha⟩

theorem no_crash_iff (handler : ExceptionType → Machine → Machine) {m : Machine} (h : m.UserState)
    : (∃ res s', Sim.oneInstruction handler ⟨m, []⟩ = .ok (res, s')) ↔
        ∀ raw, m.fetch = some raw → ¬(Instruction.decode raw).Unaligned m.registers := by
  have haborts := oneInstruction_aborts_iff handler h.oneTable []
  constructor
  . rintro ⟨res, s', hok⟩ raw hraw hunaligned
    obtain ⟨a, ha⟩ := haborts.mpr ⟨raw, hraw, hunaligned⟩
    rw [hok] at ha
    contradiction
  . intro haligned
    generalize hres : Sim.oneInstruction handler ⟨m, []⟩ = res at haborts
    cases res with
    | ok res => exact ⟨res.1, res.2, rfl⟩
    | error a =>
      obtain ⟨raw, hraw, hunaligned⟩ := haborts.mp ⟨a, rfl⟩
      exact absurd hunaligned (haligned raw hraw)

def Machine.lwl (offset : Word) : Machine :=
  .ofWords [0x88010000 ||| offset] fun _ => 0

theorem ofWords_userState (words : List Word) (general : Fin 32 → Word)
    : (Machine.ofWords words general).UserState := by
  refine ⟨nofun, ?_, nofun, Nat.zero_lt_succ 31⟩
  intro table htable entry hentry
  cases htable
  cases hentry with
  | head => decide
  | tail _ hentry => contradiction

theorem no_crash_iff_lwl
    : (Machine.lwl 0).UserState ∧
        ∃ res s', Sim.oneInstruction (fun _ m => m) ⟨.lwl 0, []⟩ = .ok (res, s') := by
  have huser : (Machine.lwl 0).UserState := ofWords_userState _ _
  refine ⟨huser, (no_crash_iff (fun _ m => m) huser).mpr ?_⟩
  intro raw hraw hunaligned
  have hfetch : (Machine.lwl 0).fetch = some 0x88010000 := rfl
  obtain rfl : 0x88010000 = raw := Option.some.inj (hfetch.symm.trans hraw)
  exact hunaligned.2 rfl

theorem unaligned_lwl_crashes
    : (Machine.lwl 1).UserState ∧
        Sim.oneInstruction (fun _ m => m) ⟨.lwl 1, []⟩ = .error .alignment :=
  ⟨ofWords_userState _ _, rfl⟩

end Nachos
