import Mathlib.Logic.Function.Iterate
import Mathlib.Tactic.SplitIfs
import Nachos.Machine.Trap

/-!
This module contains why interrupts do not disturb user programs. An interrupt applies the pending load one
instruction early, and an instruction that does not use the load delay slot cannot tell.
-/

namespace Nachos

open Function (update)
open Exit

namespace Instruction

def reads (instr : Instruction) : List (Fin 32) :=
  match instr.opCode with
  | .add | .addu | .and | .beq | .bne | .div | .divu | .mult | .multu | .nor | .sb | .sh | .sllv | .slt
  | .sltu | .srav | .srlv | .sub | .subu | .sw | .swl | .swr | .xor => [instr.rs, instr.rt]
  | .addi | .addiu | .andi | .bgez | .bgezal | .bgtz | .blez | .bltz | .bltzal | .jalr | .jr | .lb | .lbu
  | .lh | .lhu | .lw | .lwl | .lwr | .mthi | .mtlo | .or | .ori | .slti | .sltiu | .xori => [instr.rs]
  | .sll | .sra | .srl => [instr.rt]
  | .j | .jal | .lui | .mfhi | .mflo | .syscall | .res | .unimp | .rfe | .special | .bcond => []

def writes (instr : Instruction) : List (Fin 32) :=
  match instr.opCode with
  | .add | .addu | .and | .jalr | .mfhi | .mflo | .nor | .or | .sll | .sllv | .slt | .sltu | .sra | .srav
  | .srl | .srlv | .sub | .subu | .xor => [instr.rd]
  | .addi | .addiu | .andi | .lui | .ori | .slti | .sltiu | .xori => [instr.rt]
  | .bgezal | .bltzal | .jal => [31]
  | _ => []

def HazardFree (instr : Instruction) (registers : Register → Word) : Prop :=
  ∀ i ∈ instr.reads ++ instr.writes, i.val = (registers .load).toNat → i = 0

end Instruction

def Machine.HazardFree (m : Machine) : Prop :=
  ∀ raw, m.fetch = some raw → (Instruction.decode raw).HazardFree m.registers

structure Machine.Sane (m : Machine) : Prop where
  zero : m.registers (.gp 0) = 0
  load : (m.registers .load).toNat < 32

/-! ### The pending load applied early -/

/--
`registers'` is `registers` after the pending load was applied.
-/
structure Early (registers registers' : Register → Word) : Prop where
  lt : (registers .load).toNat < 32
  load : registers' .load = 0
  loadValue : registers' .loadValue = 0
  special : ∀ r ∈ [Register.hi, .lo, .pc, .nextPC, .prevPC, .badVAddr], registers' r = registers r
  pending : ∀ i : Fin 32, i.val = (registers .load).toNat → i ≠ 0 →
    registers' (.gp i) = registers .loadValue
  others : ∀ i : Fin 32, (i.val = (registers .load).toNat → i = 0) →
    registers' (.gp i) = registers (.gp i)

namespace Machine

theorem early_delayedLoad {m : Machine} (h : m.Sane) : Early m.registers (m.delayedLoad 0 0).registers := by
  have hregisters := delayedLoad_registers h.load 0 0
  constructor
  . exact h.load
  . exact hregisters .load
  . exact hregisters .loadValue
  . intro r hr
    rw [hregisters]
    simp only [List.mem_cons, List.not_mem_nil, or_false] at hr
    obtain rfl | rfl | rfl | rfl | rfl | rfl := hr
    all_goals rfl
  . intro i hi hne
    rw [hregisters]
    simp [hi, hne]
  . intro i hi
    rw [hregisters]
    dsimp only
    split
    next hzero => rw [hzero, h.zero]
    next hzero => rw [if_neg fun heq => hzero (hi heq)]

theorem delayedLoad_eq (m : Machine) (nextReg nextValue : Word)
    : m.delayedLoad nextReg nextValue =
        { m with registers := (m.delayedLoad nextReg nextValue).registers } := by
  unfold delayedLoad
  split <;> rfl

theorem delayedLoad_early {m : Machine} {registers : Register → Word} (h : Early m.registers registers)
    (nextReg nextValue : Word)
    : ({ m with registers } : Machine).delayedLoad nextReg nextValue = m.delayedLoad nextReg nextValue := by
  have hlt : (registers .load).toNat < 32 := by
    rw [h.load]
    decide
  rw [delayedLoad_eq, delayedLoad_eq m]
  congr 1
  funext r
  rw [delayedLoad_registers hlt, delayedLoad_registers h.lt]
  cases r with
  | gp i =>
    simp only [h.load]
    by_cases hzero : i = 0
    . simp [hzero]
    . have hne : i.val ≠ (0 : Word).toNat := fun heq => hzero (Fin.ext heq)
      rw [if_neg hzero, if_neg hzero, if_neg hne]
      split
      next hi => exact h.pending i hi hzero
      next hi => exact h.others i fun heq => absurd heq hi
  | load | loadValue => rfl
  | hi | lo | pc | nextPC | prevPC | badVAddr => exact h.special _ (by decide)

theorem translate_registers (m : Machine) (registers : Register → Word) (virtAddr : Word) (size : Nat)
    (writing : Bool)
    : ({ m with registers } : Machine).translate virtAddr size writing =
        (m.translate virtAddr size writing).map fun res => (res.1, { res.2 with registers }) := by
  have hfind : ({ m with registers } : Machine).findEntry = m.findEntry := rfl
  have hset : ∀ slot entry, ({ m with registers } : Machine).setEntry slot entry =
      { m.setEntry slot entry with registers } := by
    intro slot entry
    cases slot <;> rfl
  unfold translate
  rw [hfind]
  dsimp only
  split_ifs
  . rfl
  . rfl
  . rfl
  . cases m.findEntry (virtAddr.toNat / pageSize) with
    | error which => rfl
    | ok res =>
      dsimp only
      rw [hset]
      split_ifs
      all_goals rfl

end Machine

theorem Early.setRegister {registers registers' : Register → Word} (h : Early registers registers')
    {r : Register} (hr : r ∉ [.load, .loadValue])
    (hgp : ∀ i, r = .gp i → i.val = (registers .load).toNat → i = 0) (value : Word)
    : Early (update registers r value) (update registers' r value) := by
  have hload : Register.load ≠ r := by
    rintro rfl
    simp at hr
  have hloadValue : Register.loadValue ≠ r := by
    rintro rfl
    simp at hr
  have hsame : ∀ r', registers' r' = registers r' →
      update registers' r value r' = update registers r value r' := by
    intro r' hr'
    by_cases heq : r' = r
    . rw [heq, Function.update_self, Function.update_self]
    . rw [Function.update_of_ne heq, Function.update_of_ne heq, hr']
  constructor
  . rw [Function.update_of_ne hload]
    exact h.lt
  . rw [Function.update_of_ne hload]
    exact h.load
  . rw [Function.update_of_ne hloadValue]
    exact h.loadValue
  . intro r' hr'
    exact hsame r' (h.special r' hr')
  . intro i hi hne
    rw [Function.update_of_ne hload] at hi
    have hir : Register.gp i ≠ r := fun heq => hne (hgp i heq.symm hi)
    rw [Function.update_of_ne hir, Function.update_of_ne hloadValue]
    exact h.pending i hi hne
  . intro i hi
    rw [Function.update_of_ne hload] at hi
    exact hsame _ (h.others i hi)

theorem Early.merged {registers registers' : Register → Word} (h : Early registers registers') {i : Fin 32}
    (hi : i ≠ 0)
    : (if registers' .load = BitVec.ofNat 32 i then registers' .loadValue else registers' (.gp i)) =
        if registers .load = BitVec.ofNat 32 i then registers .loadValue else registers (.gp i) := by
  have hval : (BitVec.ofNat 32 i : Word).toNat = i := by
    have := i.isLt
    rw [BitVec.toNat_ofNat]
    omega
  have hne : (0 : Word) ≠ BitVec.ofNat 32 i := by
    intro heq
    rw [← heq] at hval
    exact hi (Fin.ext hval.symm)
  rw [h.load, if_neg hne]
  split
  next heq => exact h.pending i (by rw [heq, hval]) hi
  next heq =>
    apply h.others
    intro hload
    exact absurd (BitVec.eq_of_toNat_eq (hload.symm.trans hval.symm)) heq

/-! ### One instruction -/

structure Simulation.Early (s t : Simulation) : Prop where
  eq : t = ⟨{ s.machine with registers := t.machine.registers }, s.raised⟩
  registers : Nachos.Early s.machine.registers t.machine.registers

def Next.Similar (next next' : Next) : Prop :=
  next' = next ∨ next.nextLoadReg = 0 ∧ ∃ value, next' = { next with nextLoadValue := value }

def Simulation.Similar (s t : Simulation) : Prop :=
  t = s ∨ s.machine.registers .load = 0 ∧
    ∃ value, t = { s with machine := s.machine.setRegister .loadValue value }

section

variable {handler : ExceptionType → Machine → Machine} {s t : Simulation}

theorem Simulation.Early.machine_eq (h : s.Early t)
    : t.machine = { s.machine with registers := t.machine.registers } :=
  congrArg Simulation.machine h.eq

theorem Simulation.Early.setRegister (h : s.Early t) {r : Register} (hr : r ∉ [.load, .loadValue])
    (hgp : ∀ i, r = .gp i → i.val = (s.machine.registers .load).toNat → i = 0) (value : Word)
    : Simulation.Early { s with machine := s.machine.setRegister r value }
        { t with machine := t.machine.setRegister r value } := by
  refine ⟨?_, h.registers.setRegister hr hgp value⟩
  rw [h.eq]
  rfl

theorem Simulation.Early.setHi (h : s.Early t) (value : Word)
    : Simulation.Early { s with machine := s.machine.setRegister .hi value }
        { t with machine := t.machine.setRegister .hi value } :=
  h.setRegister (r := .hi) (by decide) nofun value

theorem Simulation.Early.setLo (h : s.Early t) (value : Word)
    : Simulation.Early { s with machine := s.machine.setRegister .lo value }
        { t with machine := t.machine.setRegister .lo value } :=
  h.setRegister (r := .lo) (by decide) nofun value

theorem Simulation.Early.raise_eq (h : s.Early t) (handler : ExceptionType → Machine → Machine)
    (which : ExceptionType) (badVAddr : Word)
    : s.raise handler which badVAddr = t.raise handler which badVAddr := by
  have hset := h.setRegister (r := .badVAddr) (by decide) nofun badVAddr
  have hat : t.machine.atException badVAddr = s.machine.atException badVAddr := by
    unfold Machine.atException
    rw [← Machine.delayedLoad_early hset.registers 0 0]
    exact congrArg (fun t => t.machine.delayedLoad 0 0) hset.eq
  unfold Simulation.raise
  rw [hat, congrArg Simulation.raised h.eq]

theorem related_trap (h : s.Early t) (which : ExceptionType) (badVAddr : Word)
    {value : α → α → Simulation → Simulation → Prop}
    : Related (Sim.trap handler which badVAddr) (Sim.trap handler which badVAddr) s t value Eq :=
  h.raise_eq handler which badVAddr

theorem related_translate (h : s.Early t) (addr : Word) (size : Nat) (writing : Bool)
    : Related (Sim.translate handler addr size writing) (Sim.translate handler addr size writing) s t
        (fun a b s' t' => a = b ∧ s'.Early t' ∧ s'.machine.registers = s.machine.registers ∧
          s.machine.translate addr size writing = .ok (.ok a, s'.machine)) Eq := by
  have htranslates := s.machine.translates addr size writing
  have heq := s.machine.translate_registers t.machine.registers addr size writing
  unfold Sim.translate
  rw [related_read_bind, congrArg Simulation.machine h.eq, heq]
  generalize hres : s.machine.translate addr size writing = res at htranslates
  cases htranslates with
  | exception which =>
    have hraise := h.raise_eq handler which addr
    rw [h.eq] at hraise ⊢
    exact hraise
  | address slot entry =>
    have huntouched := s.machine.setEntry_untouched slot
      { entry with use := true, dirty := entry.dirty || writing }
    refine ⟨rfl, ⟨?_, ?_⟩, huntouched.registers, rfl⟩
    . rw [h.eq]
    . dsimp only
      rw [huntouched.registers]
      exact h.registers
  | tables a => rfl
  | bound => rfl

theorem related_readMem (h : s.Early t) (addr : Word) (size : Nat)
    : Related (Sim.readMem handler addr size) (Sim.readMem handler addr size) s t
        (fun a b s' t' => a = b ∧ s'.Early t' ∧ s'.machine.registers = s.machine.registers ∧
          s.machine.peek addr size = some a) Eq := by
  unfold Sim.readMem
  apply (related_translate h addr size false).bind
  rintro physicalAddress _ s' t' ⟨rfl, h', hregisters, htranslate⟩
  rw [related_read_bind]
  have hload : t'.machine.load physicalAddress size = s'.machine.load physicalAddress size := by
    rw [h'.eq]
    rfl
  have hpeek : s.machine.peek addr size = s'.machine.load physicalAddress size := by
    unfold Machine.peek
    rw [htranslate]
  rw [hload, hpeek]
  cases s'.machine.load physicalAddress size with
  | none => rfl
  | some value => exact ⟨rfl, h', hregisters, rfl⟩

theorem related_writeMem (h : s.Early t) (addr : Word) (size : Nat) (value : Word)
    : Related (Sim.writeMem handler addr size value) (Sim.writeMem handler addr size value) s t
        (fun _ _ s' t' => s'.Early t') Eq := by
  unfold Sim.writeMem
  apply (related_translate h addr size true).bind
  rintro physicalAddress _ s' t' ⟨rfl, h', -⟩
  rw [related_read_bind]
  have hstore : t'.machine.store physicalAddress size value =
      (s'.machine.store physicalAddress size value).map
        fun m => { m with registers := t'.machine.registers } := by
    rw [h'.eq]
    unfold Machine.store
    dsimp only
    split <;> rfl
  have hkeeps : ∀ m, s'.machine.store physicalAddress size value = some m →
      m.registers = s'.machine.registers := by
    intro m hm
    unfold Machine.store at hm
    dsimp only at hm
    split at hm
    next => cases hm; rfl
    next => cases hm; rfl
    next => cases hm; rfl
    next => contradiction
  rw [hstore]
  generalize s'.machine.store physicalAddress size value = res at hkeeps
  cases res with
  | none => rfl
  | some m =>
    refine ⟨?_, ?_⟩
    . rw [h'.eq]
    . dsimp only [Option.map]
      rw [hkeeps m rfl]
      exact h'.registers

theorem next_similar_refl (next : Next) : next.Similar next := .inl rfl

theorem execute_related {instr : Instruction} (h : s.Early t)
    (hfree : instr.HazardFree s.machine.registers) (pcAfter : Word)
    : Related (Sim.execute handler instr pcAfter) (Sim.execute handler instr pcAfter) s t
        (fun next next' s' t' => next.Similar next' ∧ s'.Early t') Eq := by
  have hread : ∀ i ∈ instr.reads, t.machine.registers (.gp i) = s.machine.registers (.gp i) :=
    fun i hi => h.registers.others i (hfree i (List.mem_append_left _ hi))
  have hset : ∀ i value, i ∈ instr.writes →
      Simulation.Early { s with machine := s.machine.setRegister (.gp i) value }
        { t with machine := t.machine.setRegister (.gp i) value } := by
    intro i value hi
    apply h.setRegister (by simp)
    rintro _ ⟨⟩
    exact hfree i (List.mem_append_right _ hi)
  have hnext : t.machine.registers .nextPC = s.machine.registers .nextPC :=
    h.registers.special _ (by decide)
  unfold Sim.execute
  rw [related_read_bind]
  unfold Instruction.reads at hread
  unfold Instruction.writes at hset
  cases hop : instr.opCode with
  | addu | and | nor | slt | sltu | subu | xor | sllv | srav | srlv =>
    rw [hop] at hread hset
    dsimp only
    rw [hread instr.rs (by simp), hread instr.rt (by simp)]
    exact ⟨next_similar_refl _, hset _ _ (by simp)⟩
  | sll | sra | srl =>
    rw [hop] at hread hset
    dsimp only
    rw [hread instr.rt (by simp)]
    exact ⟨next_similar_refl _, hset _ _ (by simp)⟩
  | addiu | andi | or | ori | slti | sltiu | xori =>
    rw [hop] at hread hset
    dsimp only
    rw [hread instr.rs (by simp)]
    exact ⟨next_similar_refl _, hset _ _ (by simp)⟩
  | lui =>
    rw [hop] at hset
    exact ⟨next_similar_refl _, hset _ _ (by simp)⟩
  | mfhi | mflo =>
    rw [hop] at hset
    dsimp only
    rw [h.registers.special _ (by decide)]
    exact ⟨next_similar_refl _, hset _ _ (by simp)⟩
  | mthi =>
    rw [hop] at hread
    dsimp only
    rw [hread instr.rs (by simp)]
    exact ⟨next_similar_refl _, h.setHi _⟩
  | mtlo =>
    rw [hop] at hread
    dsimp only
    rw [hread instr.rs (by simp)]
    exact ⟨next_similar_refl _, h.setLo _⟩
  | mult | multu =>
    rw [hop] at hread
    dsimp only
    rw [hread instr.rs (by simp), hread instr.rt (by simp)]
    exact ⟨next_similar_refl _, (h.setHi _).setLo _⟩
  | div | divu =>
    rw [hop] at hread
    dsimp only
    rw [hread instr.rs (by simp), hread instr.rt (by simp)]
    split
    . exact ⟨next_similar_refl _, (h.setLo _).setHi _⟩
    . exact ⟨next_similar_refl _, (h.setLo _).setHi _⟩
  | add | sub =>
    rw [hop] at hread hset
    dsimp only
    rw [hread instr.rs (by simp), hread instr.rt (by simp)]
    split
    . exact related_trap h _ _
    . exact ⟨next_similar_refl _, hset _ _ (by simp)⟩
  | addi =>
    rw [hop] at hread hset
    dsimp only
    rw [hread instr.rs (by simp)]
    split
    . exact related_trap h _ _
    . exact ⟨next_similar_refl _, hset _ _ (by simp)⟩
  | beq | bne =>
    rw [hop] at hread
    dsimp only
    rw [hread instr.rs (by simp), hread instr.rt (by simp), hnext]
    exact ⟨next_similar_refl _, h⟩
  | bgez | bgtz | blez | bltz =>
    rw [hop] at hread
    dsimp only
    rw [hread instr.rs (by simp), hnext]
    exact ⟨next_similar_refl _, h⟩
  | j => exact ⟨next_similar_refl _, h⟩
  | jal =>
    rw [hop] at hset
    dsimp only
    rw [hnext]
    exact ⟨next_similar_refl _, hset _ _ (by simp)⟩
  | jr =>
    rw [hop] at hread
    dsimp only
    rw [hread instr.rs (by simp)]
    exact ⟨next_similar_refl _, h⟩
  | syscall | res | unimp => exact related_trap h _ _
  | rfe | special | bcond => rfl
  | lb | lbu =>
    rw [hop] at hread
    dsimp only
    rw [hread instr.rs (by simp)]
    apply (related_readMem h _ _).bind
    rintro value _ s' t' ⟨rfl, h', -⟩
    exact ⟨next_similar_refl _, h'⟩
  | lh | lhu | lw =>
    rw [hop] at hread
    dsimp only
    rw [hread instr.rs (by simp)]
    split
    . exact related_trap h _ _
    . apply (related_readMem h _ _).bind
      rintro value _ s' t' ⟨rfl, h', -⟩
      exact ⟨next_similar_refl _, h'⟩
  | sb | sh | sw =>
    rw [hop] at hread
    dsimp only
    rw [hread instr.rs (by simp), hread instr.rt (by simp)]
    apply (related_writeMem h _ _ _).bind
    intro _ _ s' t' h'
    exact ⟨next_similar_refl _, h'⟩
  | swl | swr =>
    rw [hop] at hread
    dsimp only
    rw [hread instr.rs (by simp), hread instr.rt (by simp)]
    split
    . rfl
    . apply (related_readMem h _ _).bind
      rintro value _ s' t' ⟨rfl, h', -⟩
      apply (related_writeMem h' _ _ _).bind
      intro _ _ s'' t'' h''
      exact ⟨next_similar_refl _, h''⟩
  | lwl | lwr =>
    rw [hop] at hread
    dsimp only
    rw [hread instr.rs (by simp)]
    split
    . rfl
    . apply (related_readMem h _ _).bind
      rintro value _ s' t' ⟨rfl, h', -⟩
      refine ⟨?_, h'⟩
      -- the target may be the register that the load is pending for
      by_cases hzero : instr.rt = 0
      . refine .inr ⟨?_, _, rfl⟩
        rw [hzero]
        rfl
      . rw [h'.registers.merged hzero]
        exact next_similar_refl _
  | jalr =>
    rw [hop] at hset
    dsimp only
    rw [hnext]
    have h' := hset instr.rd (s.machine.registers .nextPC + 4) (by simp)
    have hrs := h'.registers.others instr.rs (hfree instr.rs (by simp [Instruction.reads, hop]))
    refine ⟨.inl ?_, h'⟩
    dsimp only at hrs ⊢
    rw [hrs]
  | bgezal | bltzal =>
    rw [hop] at hset
    dsimp only
    rw [hnext]
    have h' := hset 31 (s.machine.registers .nextPC + 4) (by simp)
    have hrs := h'.registers.others instr.rs (hfree instr.rs (by simp [Instruction.reads, hop]))
    refine ⟨.inl ?_, h'⟩
    dsimp only at hrs ⊢
    simp only [hrs]

def Machine.advance (m : Machine) (next : Next) : Machine :=
  let m := m.delayedLoad next.nextLoadReg next.nextLoadValue
  ((m.setRegister .prevPC (m.registers .pc)).setRegister .pc (m.registers .nextPC)).setRegister .nextPC
    next.pcAfter

theorem advance_loadValue (m : Machine) (next : Next) (value : Word)
    : m.advance { next with nextLoadValue := value } = (m.advance next).setRegister .loadValue value := by
  unfold Machine.advance Machine.delayedLoad
  dsimp only
  cases Register.ofIndex (m.registers .load).toNat
  all_goals
    dsimp only [Machine.setRegister]
    congr 1
    funext r
    cases r <;> simp [Function.update_apply]

theorem advance_related {next next' : Next} (h : s.Early t) (hnext : next.Similar next')
    : Related (Sim.advance next) (Sim.advance next') s t (fun _ _ s' t' => s'.Similar t') Eq := by
  have ht : t.machine.advance next' = s.machine.advance next' := by
    unfold Machine.advance
    rw [← Machine.delayedLoad_early h.registers, ← h.machine_eq]
  change Simulation.Similar { s with machine := s.machine.advance next }
    { t with machine := t.machine.advance next' }
  rw [ht, congrArg Simulation.raised h.eq]
  obtain rfl | ⟨hzero, value, rfl⟩ := hnext
  . exact .inl rfl
  . refine .inr ⟨?_, value, ?_⟩
    . simp [Machine.advance, Machine.delayedLoad, Machine.setRegister, hzero]
    . rw [advance_loadValue]

theorem oneInstruction_related (h : s.Early t) (hfree : s.machine.HazardFree)
    : Related (Sim.oneInstruction handler) (Sim.oneInstruction handler) s t
        (fun _ _ s' t' => s'.Similar t') Eq := by
  unfold Sim.oneInstruction
  rw [related_read_bind, h.registers.special .pc (by decide)]
  apply (related_readMem h _ _).bind
  rintro raw _ s' t' ⟨rfl, h', hregisters, hraw⟩
  rw [related_read_bind, h'.registers.special .nextPC (by decide)]
  have hfree' : (Instruction.decode raw).HazardFree s'.machine.registers := by
    rw [hregisters]
    exact hfree raw hraw
  apply (execute_related h' hfree' _).bind
  rintro next next' s'' t'' ⟨hnext, h''⟩
  exact advance_related h'' hnext

end

/-! ### Runs -/

def Simulation.interrupt (s : Simulation) : Simulation :=
  { s with machine := s.machine.delayedLoad 0 0 }

def Simulation.run (handler : ExceptionType → Machine → Machine) (interrupts : List Nat) (s : Simulation)
    : Except Machine.Abort Simulation :=
  match interrupts with
  | [] => .ok s
  | n :: interrupts =>
    match Sim.oneInstruction handler (Simulation.interrupt^[n] s) with
    | .error a => .error a
    | .ok (_, s) => s.run handler interrupts

def SameEnd (x y : Except Machine.Abort Simulation) : Prop :=
  match x, y with
  | .ok s, .ok t => s.Similar t
  | .error a, .error b => a = b
  | _, _ => False

/--
An exception handler that keeps register 0 and the index of the pending load in order.
-/
structure ExceptionHandler where
  handle : ExceptionType → Machine → Machine
  sane : ∀ which m, m.Sane → (handle which m).Sane

section

variable {s t u : Simulation}

theorem similar_refl (s : Simulation) : s.Similar s := .inl rfl

theorem Simulation.Similar.symm (h : s.Similar t) : t.Similar s := by
  obtain rfl | ⟨hzero, value, rfl⟩ := h
  . exact .inl rfl
  . refine .inr ⟨?_, s.machine.registers .loadValue, ?_⟩
    . simpa [Machine.setRegister] using hzero
    . simp [Machine.setRegister]

theorem Simulation.Similar.trans (h : s.Similar t) (h' : t.Similar u) : s.Similar u := by
  obtain rfl | ⟨hzero, value, rfl⟩ := h
  . exact h'
  . obtain rfl | ⟨-, value', rfl⟩ := h'
    . exact .inr ⟨hzero, value, rfl⟩
    . refine .inr ⟨hzero, value', ?_⟩
      simp [Machine.setRegister]

theorem early_interrupt (hs : s.machine.Sane) : s.Early s.interrupt :=
  ⟨congrArg (Simulation.mk · s.raised) (s.machine.delayedLoad_eq 0 0), Machine.early_delayedLoad hs⟩

theorem Machine.sane_delayedLoad (m : Machine) : (m.delayedLoad 0 0).Sane := by
  constructor
  . simp [delayedLoad, setRegister]
  . simp [delayedLoad, setRegister]

theorem Simulation.Similar.sane (h : s.Similar t) (hs : s.machine.Sane) : t.machine.Sane := by
  obtain rfl | ⟨-, value, rfl⟩ := h
  . exact hs
  . exact ⟨by simpa [Machine.setRegister] using hs.zero, by simpa [Machine.setRegister] using hs.load⟩

theorem Machine.delayedLoad_of_load {m : Machine} (hm : m.Sane) (h : m.registers .load = 0)
    : m.delayedLoad 0 0 = m.setRegister .loadValue 0 := by
  rw [delayedLoad_eq]
  unfold setRegister
  congr 1
  funext r
  rw [delayedLoad_registers hm.load]
  cases r with
  | gp i =>
    simp only [h]
    rw [Function.update_of_ne (by simp)]
    split
    next hi => rw [hi, hm.zero]
    next hi =>
      have hne : i.val ≠ (0 : Word).toNat := fun heq => hi (Fin.ext heq)
      rw [if_neg hne]
  | load => rw [Function.update_of_ne (by simp), h]
  | loadValue => rw [Function.update_self]
  | hi | lo | pc | nextPC | prevPC | badVAddr => rw [Function.update_of_ne (by simp)]

theorem Simulation.Similar.interrupt_eq (h : s.Similar t) (hs : s.machine.Sane)
    : t.interrupt = s.interrupt := by
  have ht := h.sane hs
  obtain rfl | ⟨hzero, value, rfl⟩ := h
  . rfl
  . unfold interrupt
    dsimp only at ht ⊢
    rw [Machine.delayedLoad_of_load hs hzero, Machine.delayedLoad_of_load ht]
    . simp [Machine.setRegister]
    . simpa [Machine.setRegister] using hzero

theorem interrupt_interrupt (s : Simulation) : s.interrupt.interrupt = s.interrupt := by
  unfold Simulation.interrupt
  dsimp only
  rw [Machine.delayedLoad_of_load (Machine.sane_delayedLoad _)]
  . simp [Machine.setRegister, Machine.delayedLoad]
  . simp [Machine.setRegister, Machine.delayedLoad]

theorem iterate_interrupt (s : Simulation) (n : Nat) : Simulation.interrupt^[n + 1] s = s.interrupt := by
  induction n with
  | zero => rfl
  | succ n ih => rw [Function.iterate_succ_apply', ih, interrupt_interrupt]

theorem oneInstruction_sane (handler : ExceptionHandler) (s : Simulation)
    : Spec (Sim.oneInstruction handler.handle) s (fun _ s' => s'.machine.Sane) (fun s' => s'.machine.Sane)
        (fun _ => True) := by
  have hraise : ∀ (s : Simulation) which badVAddr, (s.raise handler.handle which badVAddr).machine.Sane :=
    fun s which badVAddr => handler.sane which _ (Machine.sane_delayedLoad _)
  unfold Sim.oneInstruction
  rw [spec_bind, spec_read, spec_bind]
  apply Sim.spec_readMem (by decide) ?_ (fun which _ => hraise s which _) (fun _ _ => trivial)
  intro raw m _ _
  rw [spec_bind, spec_read, spec_bind]
  apply (execute_spec handler.handle _ _ _).mono ?_ ?_ (fun _ _ => trivial)
  . intro next s' ⟨_, hnext⟩
    change (s'.machine.advance next).Sane
    constructor
    . simp [Machine.advance, Machine.delayedLoad, Machine.setRegister]
    . simpa [Machine.advance, Machine.delayedLoad, Machine.setRegister] using hnext
  . rintro s' ⟨m', which, badVAddr, -, rfl⟩
    exact hraise _ which badVAddr

theorem oneInstruction_similar (handler : ExceptionType → Machine → Machine) (hs : s.machine.Sane)
    (h : s.Similar t) (hfree : s.machine.HazardFree) (n : Nat)
    : Related (Sim.oneInstruction handler) (Sim.oneInstruction handler) s (Simulation.interrupt^[n] t)
        (fun _ _ s' t' => s'.Similar t') Simulation.Similar := by
  have hinterrupted : ∀ {s : Simulation}, s.machine.Sane → s.machine.HazardFree →
      Related (Sim.oneInstruction handler) (Sim.oneInstruction handler) s s.interrupt
        (fun _ _ s' t' => s'.Similar t') Simulation.Similar :=
    fun hs hfree => (oneInstruction_related (early_interrupt hs) hfree).mono (fun _ _ _ _ => id)
      (fun _ _ heq => .inl heq.symm)
  cases n with
  | succ n =>
    rw [iterate_interrupt, h.interrupt_eq hs]
    exact hinterrupted hs hfree
  | zero =>
    obtain rfl | hzero := h
    . exact related_self _ _ (fun _ => similar_refl) similar_refl
    . have h : s.Similar t := .inr hzero
      have htfree : t.machine.HazardFree := by
        intro raw _ i _ hi
        obtain ⟨hload, value, rfl⟩ := hzero
        simp only [Machine.setRegister, Function.update_of_ne (show Register.load ≠ .loadValue by decide),
          hload] at hi
        exact Fin.ext hi
      have hback := (hinterrupted (h.sane hs) htfree).symm
      rw [h.interrupt_eq hs] at hback
      apply ((hinterrupted hs hfree).trans hback).mono
      . rintro _ _ s' t' ⟨_, u, hu, hu'⟩
        exact hu.trans hu'.symm
      . rintro s' t' ⟨u, hu, hu'⟩
        exact hu.trans hu'.symm

theorem run_similar (handler : ExceptionHandler) (interrupts : List Nat) (hs : s.machine.Sane)
    (h : s.Similar t)
    (hfree : ∀ n < interrupts.length, ∀ s', s.run handler.handle (List.replicate n 0) = .ok s' →
      s'.machine.HazardFree)
    : SameEnd (s.run handler.handle (List.replicate interrupts.length 0))
        (t.run handler.handle interrupts) := by
  induction interrupts generalizing s t with
  | nil => exact h
  | cons n interrupts ih =>
    have hrelated := oneInstruction_similar handler.handle hs h
      (hfree 0 (Nat.zero_lt_succ _) s rfl) n
    have hsane := oneInstruction_sane handler s
    have hrest : ∀ res s', Sim.oneInstruction handler.handle s = .ok (res, s') →
        ∀ n < interrupts.length, ∀ s'', s'.run handler.handle (List.replicate n 0) = .ok s'' →
          s''.machine.HazardFree := by
      intro res s' hone n hn s'' hrun
      apply hfree (n + 1) (Nat.succ_lt_succ hn)
      rw [List.replicate_succ, Simulation.run, Function.iterate_zero_apply, hone]
      exact hrun
    rw [List.length_cons, List.replicate_succ, Simulation.run, Simulation.run, Function.iterate_zero_apply]
    unfold Related at hrelated
    unfold Spec at hsane
    split at hrelated
    next hx hy =>
      rw [hx] at hsane
      rw [hx, hy]
      exact ih hsane hrelated (hrest _ _ hx)
    next hx hy =>
      rw [hx] at hsane
      rw [hx, hy]
      exact ih hsane hrelated (hrest _ _ hx)
    next hx hy =>
      rw [hx, hy]
      exact hrelated
    next => exact hrelated.elim

end

theorem interrupts_transparent {m : Machine} (hm : m.Sane) (raised : List Raised)
    : (∀ handler, m.HazardFree →
        Related (Sim.oneInstruction handler) (Sim.oneInstruction handler) ⟨m, raised⟩
          ⟨m.delayedLoad 0 0, raised⟩ (fun _ _ s t => s.Similar t) Eq) ∧
      ∀ (handler : ExceptionHandler) (interrupts : List Nat),
        (∀ n < interrupts.length, ∀ s,
          Simulation.run handler.handle (List.replicate n 0) ⟨m, raised⟩ = .ok s → s.machine.HazardFree) →
        SameEnd (Simulation.run handler.handle (List.replicate interrupts.length 0) ⟨m, raised⟩)
          (Simulation.run handler.handle interrupts ⟨m, raised⟩) := by
  constructor
  . intro handler hfree
    exact oneInstruction_related (early_interrupt (s := ⟨m, raised⟩) hm) hfree
  . intro handler interrupts hfree
    exact run_similar handler interrupts hm (similar_refl _) hfree

def Machine.loading : Machine :=
  .ofWords [0x8c010008, 0x00631021, 0x12345678] fun i => if i = 3 then 21 else 0

theorem interrupts_transparent_loading
    : SameEnd (Simulation.run (fun _ m => m) [0, 0] ⟨.loading, []⟩)
        (Simulation.run (fun _ m => m) [0, 1] ⟨.loading, []⟩) := by
  have hm : Machine.loading.Sane := ⟨rfl, by decide⟩
  apply (interrupts_transparent hm []).2 ⟨fun _ m => m, fun _ _ => id⟩ [0, 1]
  intro n hn s hrun raw hraw
  match n with
  | 0 =>
    cases hrun
    cases hraw
    unfold Instruction.HazardFree
    decide +kernel
  | 1 =>
    cases hrun
    cases hraw
    unfold Instruction.HazardFree
    decide +kernel
  | n + 2 => exact absurd hn (by simp)

end Nachos
