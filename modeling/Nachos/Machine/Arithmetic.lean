import Nachos.Machine.DelaySlot
import Nachos.Machine.Signed

/-!
This module contains the results of the instructions that add, subtract and combine words bit by bit.
-/

namespace Nachos

open Exit

/-! ### Immediate operands -/

def OpCode.immediate : List OpCode := [.addi, .addiu, .andi, .ori, .xori]

theorem decode_extra {raw : Word} (h : (Instruction.decode raw).opCode ∈ OpCode.immediate)
    : (Instruction.decode raw).extra = (raw.extractLsb' 0 16).signExtend 32 := by
  have hformat : ∀ i, (opTable.get i).1 ∈ OpCode.immediate → (opTable.get i).2 = .ifmt := by decide
  have hspecial : ∀ i, specialTable.get i ∉ OpCode.immediate := by decide
  rcases decode_opCode_cases raw with ⟨i, hop⟩ | hop | ⟨hop, -⟩
  . rw [hop] at h
    exact absurd h (hspecial i)
  . exfalso
    revert h hop
    generalize (Instruction.decode raw).opCode = opCode
    cases opCode <;> decide
  . rw [hop] at h
    unfold Instruction.decode
    dsimp only
    rw [hformat _ h]

/-! ### Overflow -/

inductive Arith where
  | add
  | addi
  | sub

namespace Arith

def opCode (op : Arith) (checked : Bool) : OpCode :=
  match op with
  | .add => if checked then .add else .addu
  | .addi => if checked then .addi else .addiu
  | .sub => if checked then .sub else .subu

def destination (op : Arith) (instr : Instruction) : Fin 32 :=
  match op with
  | .addi => instr.rt
  | .add | .sub => instr.rd

def exact (op : Arith) (raw : Word) (registers : Register → Word) : Int :=
  let instr := Instruction.decode raw
  let a := (registers (.gp instr.rs)).toInt
  match op with
  | .add => a + (registers (.gp instr.rt)).toInt
  | .addi => a + (raw.extractLsb' 0 16).toInt
  | .sub => a - (registers (.gp instr.rt)).toInt

def result (op : Arith) (instr : Instruction) (registers : Register → Word) : Word :=
  match op with
  | .add => registers (.gp instr.rs) + registers (.gp instr.rt)
  | .addi => registers (.gp instr.rs) + instr.extra
  | .sub => registers (.gp instr.rs) - registers (.gp instr.rt)

end Arith

def InRange (i : Int) : Prop := -2 ^ 31 ≤ i ∧ i ≤ 2 ^ 31 - 1

instance (i : Int) : Decidable (InRange i) := inferInstanceAs (Decidable (_ ∧ _))

theorem toInt_ofInt_of_inRange {i : Int} (h : InRange i) : (BitVec.ofInt 32 i).toInt = i := by
  apply BitVec.toInt_ofInt_eq_self
  . decide
  . exact h.1
  . have := h.2
    omega

section

variable {a b : Word}

theorem xor_and_signBit_eq_zero : (a ^^^ b) &&& signBit = 0 ↔ a.msb = b.msb := by
  rw [and_signBit_eq_zero, BitVec.nonneg_iff, BitVec.msb_xor]
  cases a.msb <;> cases b.msb <;> decide

theorem saddOverflow_iff : a.saddOverflow b = true ↔ ¬InRange (a.toInt + b.toInt) := by
  unfold BitVec.saddOverflow InRange
  rw [Bool.or_eq_true, decide_eq_true_iff, decide_eq_true_iff]
  omega

theorem ssubOverflow_iff : a.ssubOverflow b = true ↔ ¬InRange (a.toInt - b.toInt) := by
  unfold BitVec.ssubOverflow InRange
  rw [Bool.or_eq_true, decide_eq_true_iff, decide_eq_true_iff]
  omega

theorem add_check_iff
    : (a ^^^ b) &&& signBit = 0 ∧ (a ^^^ (a + b)) &&& signBit ≠ 0 ↔ ¬InRange (a.toInt + b.toInt) := by
  rw [← saddOverflow_iff, BitVec.saddOverflow_eq, ne_eq, xor_and_signBit_eq_zero, xor_and_signBit_eq_zero]
  cases a.msb <;> cases b.msb <;> cases (a + b).msb <;> decide

theorem sub_check_iff
    : (a ^^^ b) &&& signBit ≠ 0 ∧ (a ^^^ (a - b)) &&& signBit ≠ 0 ↔ ¬InRange (a.toInt - b.toInt) := by
  rw [← ssubOverflow_iff, BitVec.ssubOverflow_eq, ne_eq, ne_eq, xor_and_signBit_eq_zero,
    xor_and_signBit_eq_zero]
  cases a.msb <;> cases b.msb <;> cases (a - b).msb <;> decide

theorem addi_check_iff
    : (a ^^^ b) &&& signBit = 0 ∧ (b ^^^ (a + b)) &&& signBit ≠ 0 ↔ ¬InRange (a.toInt + b.toInt) := by
  -- `ADDI` compares the sum with the immediate operand instead of the register.
  rw [BitVec.xor_comm a b, BitVec.add_comm a b, Int.add_comm]
  exact add_check_iff

end

theorem toInt_extra {raw : Word} (h : (Instruction.decode raw).opCode ∈ OpCode.immediate)
    : (Instruction.decode raw).extra.toInt = (raw.extractLsb' 0 16).toInt := by
  rw [decode_extra h]
  exact BitVec.toInt_signExtend_of_le (by decide)

section

variable (handler : ExceptionType → Machine → Machine) {raw : Word} {op : Arith} {checked : Bool}

theorem Arith.mem_immediate (checked : Bool) : Arith.addi.opCode checked ∈ OpCode.immediate := by
  cases checked <;> decide

theorem ofInt_exact (hop : (Instruction.decode raw).opCode = op.opCode checked) (registers : Register → Word)
    : BitVec.ofInt 32 (op.exact raw registers) = op.result (.decode raw) registers := by
  cases op with
  | add => simp [Arith.exact, Arith.result, BitVec.ofInt_add]
  | addi =>
    have hextra := toInt_extra (hop ▸ Arith.mem_immediate checked)
    simp [Arith.exact, Arith.result, BitVec.ofInt_add, ← hextra]
  | sub =>
    simp [Arith.exact, Arith.result, Int.sub_eq_add_neg, BitVec.ofInt_add, BitVec.ofInt_neg,
      BitVec.sub_eq_add_neg]

theorem ite_check {p : Prop} [Decidable p] {i : Int} {result : Word} {dest : Fin 32} {pcAfter : Word}
    (hp : p ↔ ¬InRange i) (hresult : BitVec.ofInt 32 i = result) (s : Simulation)
    : (if p then
        Sim.trap handler .overflowException 0
      else do
        Sim.setRegister (.gp dest) result
        return { pcAfter } : Sim Next) s =
        if ¬InRange i then
          .ok (none, s.raise handler .overflowException 0)
        else
          .ok (some { pcAfter },
            { s with machine := s.machine.setRegister (.gp dest) (BitVec.ofInt 32 i) }) := by
  rw [hresult]
  by_cases h : p
  . rw [if_pos h, if_pos (hp.mp h)]
    rfl
  . rw [if_neg h, if_neg (mt hp.mpr h)]
    rfl

theorem execute_arith (hop : (Instruction.decode raw).opCode = op.opCode checked) (pcAfter : Word)
    (s : Simulation)
    : Sim.execute handler (.decode raw) pcAfter s =
        if checked = true ∧ ¬InRange (op.exact raw s.machine.registers) then
          .ok (none, s.raise handler .overflowException 0)
        else
          .ok (some { pcAfter },
            { s with
              machine := s.machine.setRegister (.gp (op.destination (.decode raw)))
                (BitVec.ofInt 32 (op.exact raw s.machine.registers)) }) := by
  have hresult := ofInt_exact hop s.machine.registers
  cases checked with
  | false =>
    rw [if_neg (fun h => Bool.false_ne_true h.1), hresult]
    unfold Sim.execute
    rw [read_bind_apply, hop]
    cases op <;> rfl
  | true =>
    simp only [true_and]
    unfold Sim.execute
    rw [read_bind_apply, hop]
    cases op with
    | add => exact ite_check handler add_check_iff hresult s
    | addi =>
      have hextra := toInt_extra (hop ▸ Arith.mem_immediate true)
      have hexact : Arith.addi.exact raw s.machine.registers =
          (s.machine.registers (.gp (Instruction.decode raw).rs)).toInt +
            (Instruction.decode raw).extra.toInt := by
        rw [hextra]
        rfl
      rw [hexact] at hresult ⊢
      exact ite_check handler addi_check_iff hresult s
    | sub => exact ite_check handler sub_check_iff hresult s

theorem execute_unchecked {instr : Instruction} (hop : instr.opCode = op.opCode checked) (pcAfter : Word)
    (s : Simulation)
    : Sim.execute handler { instr with opCode := op.opCode false } pcAfter s =
        .ok (some { pcAfter },
          { s with
            machine := s.machine.setRegister (.gp (op.destination instr))
              (op.result instr s.machine.registers) }) := by
  unfold Sim.execute
  rw [read_bind_apply]
  cases op <;> rfl

end

def Machine.committed (m : Machine) (dest : Fin 32) (value : Word) : Machine :=
  (m.setRegister (.gp dest) value).advance { pcAfter := m.registers .nextPC + 4 }

theorem bind_advance {x : Sim Next} {s : Simulation} {dest : Fin 32} {value : Word}
    (h : x s =
      .ok (some { pcAfter := s.machine.registers .nextPC + 4 },
        { s with machine := s.machine.setRegister (.gp dest) value }))
    : (x >>= Sim.advance) s = .ok (some (), { s with machine := s.machine.committed dest value }) := by
  rw [bind_apply_of_ok h]
  rfl

theorem committed_registers {m : Machine} (h : (m.registers .load).toNat < 32) (dest : Fin 32) (value : Word)
    (r : Register)
    : (m.committed dest value).registers r =
        match r with
        | .gp i =>
          if i = 0 then
            0
          else if i.val = (m.registers .load).toNat then
            m.registers .loadValue
          else if i = dest then
            value
          else
            m.registers (.gp i)
        | .pc => m.registers .nextPC
        | .nextPC => m.registers .nextPC + 4
        | .prevPC => m.registers .pc
        | .load | .loadValue => 0
        | r => m.registers r := by
  have hload : ((m.setRegister (.gp dest) value).registers .load).toNat < 32 := h
  have hdelayed := Machine.delayedLoad_registers hload 0 0
  unfold Machine.committed Machine.advance
  dsimp only
  cases r with
  | gp i =>
    have hi := hdelayed (.gp i)
    simp only [Machine.setRegister, ne_eq, reduceCtorEq, not_false_eq_true, Function.update_of_ne,
      Function.update_apply, Register.gp.injEq] at hi ⊢
    exact hi
  | pc =>
    have hnextPC := hdelayed .nextPC
    simp only [Machine.setRegister, ne_eq, reduceCtorEq, not_false_eq_true, Function.update_of_ne,
      Function.update_self] at hnextPC ⊢
    exact hnextPC
  | nextPC => simp only [Machine.setRegister, Function.update_self]
  | prevPC =>
    have hpc := hdelayed .pc
    simp only [Machine.setRegister, ne_eq, reduceCtorEq, not_false_eq_true, Function.update_of_ne,
      Function.update_self] at hpc ⊢
    exact hpc
  | _ =>
    simp only [Machine.setRegister, ne_eq, reduceCtorEq, not_false_eq_true, Function.update_of_ne]
    exact hdelayed _

theorem atException_gp {m m' : Machine} (h : m.Untouched m') (badVAddr : Word) (i : Fin 32)
    : (m'.atException badVAddr).registers (.gp i) = (m.delayedLoad 0 0).registers (.gp i) := by
  unfold Machine.atException Machine.delayedLoad
  simp only [Machine.setRegister, ne_eq, reduceCtorEq, not_false_eq_true, Function.update_of_ne, h.registers]
  cases Register.ofIndex (m.registers .load).toNat with
  | none => simp [Function.update_apply]
  | some r => simp [Function.update_apply]

theorem overflow_exact (handler : ExceptionType → Machine → Machine) {m : Machine} {raw : Word} {op : Arith}
    {checked : Bool} (hraw : m.fetch = some raw)
    (hop : (Instruction.decode raw).opCode = op.opCode checked)
    : let instr := Instruction.decode raw
      let exact := op.exact raw m.registers
      let dest := op.destination instr
      let result := BitVec.ofInt 32 exact
      ∃ m', m.Untouched m' ∧
        Sim.oneInstruction handler ⟨m, []⟩ =
          (if checked = true ∧ ¬InRange exact then
            .ok (none, Simulation.raise handler ⟨m', []⟩ .overflowException 0)
          else
            .ok (some (), ⟨m'.committed dest result, []⟩)) ∧
        (InRange exact → result.toInt = exact) ∧
        ((m.registers .load).toNat < 32 → dest ≠ 0 → dest.val ≠ (m.registers .load).toNat →
          (m'.committed dest result).registers (.gp dest) = result) ∧
        (∀ i, (m'.atException 0).registers (.gp i) = (m.delayedLoad 0 0).registers (.gp i)) ∧
        (InRange exact → ∀ pcAfter,
          Sim.execute handler instr pcAfter ⟨m', []⟩ =
            Sim.execute handler { instr with opCode := op.opCode false } pcAfter ⟨m', []⟩) := by
  obtain ⟨m', hm', hrun⟩ := oneInstruction_of_fetch handler hraw []
  have hexecute := execute_arith handler hop
  rw [← hm'.registers]
  refine ⟨m', hm', ?_, toInt_ofInt_of_inRange, ?_, ?_, ?_⟩
  . rw [hrun, ← hm'.registers]
    have hexecute := hexecute (m'.registers .nextPC + 4) ⟨m', []⟩
    split
    next htrap =>
      rw [if_pos htrap] at hexecute
      exact bind_apply_of_exit hexecute
    next hcommit =>
      rw [if_neg hcommit] at hexecute
      exact bind_advance hexecute
  . intro hload hzero hne
    rw [committed_registers hload]
    dsimp only
    rw [if_neg hzero, if_neg hne, if_pos rfl]
  . exact atException_gp hm' 0
  . intro hrange pcAfter
    rw [hexecute, if_neg (fun htrap => htrap.2 hrange), execute_unchecked handler hop, ofInt_exact hop]

theorem overflow_exact_overflowing
    : ∃ m', Machine.overflowing.Untouched m' ∧
        Sim.oneInstruction (fun _ m => m) ⟨.overflowing, []⟩ =
          .ok (none, Simulation.raise (fun _ m => m) ⟨m', []⟩ .overflowException 0) := by
  have hraw : Machine.overflowing.fetch = some 0x00221820 := rfl
  have hop : (Instruction.decode 0x00221820).opCode = Arith.add.opCode true := rfl
  obtain ⟨m', hm', hrun, -⟩ := overflow_exact (fun _ m => m) hraw hop
  refine ⟨m', hm', ?_⟩
  rw [hrun, if_pos]
  decide

/-! ### Bitwise operations -/

inductive Bitwise where
  | and
  | or
  | xor
  | nor
  | andi
  | ori
  | xori

namespace Bitwise

def opCode : Bitwise → OpCode
  | .and => .and
  | .or => .or
  | .xor => .xor
  | .nor => .nor
  | .andi => .andi
  | .ori => .ori
  | .xori => .xori

def destination (op : Bitwise) (instr : Instruction) : Fin 32 :=
  match op with
  | .and | .or | .xor | .nor => instr.rd
  | .andi | .ori | .xori => instr.rt

/--
The immediate operand has no sign.
-/
def result (op : Bitwise) (raw : Word) (registers : Register → Word) : Word :=
  let instr := Instruction.decode raw
  let a := registers (.gp instr.rs)
  let b := registers (.gp instr.rt)
  let immediate := (raw.extractLsb' 0 16).setWidth 32
  match op with
  | .and => a &&& b
  | .or => a ||| b
  | .xor => a ^^^ b
  | .nor => ~~~(a ||| b)
  | .andi => a &&& immediate
  | .ori => a ||| immediate
  | .xori => a ^^^ immediate

/--
The word that the simulation computes, which is the first operand for `OR`.
-/
def simulated (op : Bitwise) (raw : Word) (registers : Register → Word) : Word :=
  match op with
  | .or => registers (.gp (Instruction.decode raw).rs)
  | op => op.result raw registers

end Bitwise

def sequential (registers : Register → Word) (dest : Fin 32) (value : Word) : Register → Word
  | .gp i =>
    if i = 0 then
      0
    else if i = dest then
      value
    else
      registers (.gp i)
  | .pc => registers .nextPC
  | .nextPC => registers .nextPC + 4
  | .prevPC => registers .pc
  | .load | .loadValue => 0
  | r => registers r

theorem committed_mainMemory (m : Machine) (dest : Fin 32) (value : Word)
    : (m.committed dest value).mainMemory = m.mainMemory :=
  (m.setRegister (.gp dest) value).delayedLoad_mainMemory 0 0

theorem committed_registers_of_idle {m : Machine} (h : m.registers .load = 0) (dest : Fin 32) (value : Word)
    : (m.committed dest value).registers = sequential m.registers dest value := by
  funext r
  rw [committed_registers (by rw [h]; decide), h]
  cases r with
  | gp i =>
    dsimp only [sequential]
    split
    next => rfl
    next hzero =>
      have hne : i.val ≠ (0 : Word).toNat := fun heq => hzero (Fin.ext heq)
      rw [if_neg hne]
  | _ => rfl

def Bitwise.Computed (op : Bitwise) (handler : ExceptionType → Machine → Machine) (m : Machine) (raw : Word)
    : Prop :=
  ∃ m', Sim.oneInstruction handler ⟨m, []⟩ = .ok (some (), ⟨m', []⟩) ∧ m'.mainMemory = m.mainMemory ∧
    m'.registers = sequential m.registers (op.destination (.decode raw)) (op.result raw m.registers)

theorem extra_and_mask {raw : Word} (h : (Instruction.decode raw).opCode ∈ OpCode.immediate)
    : (Instruction.decode raw).extra &&& 0xffff = (raw.extractLsb' 0 16).setWidth 32 := by
  have hmask : ∀ i < 32, (0xffff : Word).getLsbD i = decide (i < 16) := by decide
  rw [decode_extra h]
  apply BitVec.eq_of_getLsbD_eq
  intro i hi
  rw [BitVec.getLsbD_and, hmask i hi, BitVec.getLsbD_signExtend, BitVec.getLsbD_setWidth]
  by_cases hlow : i < 16
  . simp [hi, hlow]
  . simp [hlow]

theorem execute_bitwise (handler : ExceptionType → Machine → Machine) {raw : Word} {op : Bitwise}
    (hop : (Instruction.decode raw).opCode = op.opCode) (pcAfter : Word) (s : Simulation)
    : Sim.execute handler (.decode raw) pcAfter s =
        .ok (some { pcAfter },
          { s with
            machine := s.machine.setRegister (.gp (op.destination (.decode raw)))
              (op.simulated raw s.machine.registers) }) := by
  have hextra := @extra_and_mask raw
  rw [hop] at hextra
  unfold Sim.execute
  rw [read_bind_apply, hop]
  cases op with
  | and | xor | nor => rfl
  | or =>
    simp only [Bitwise.opCode, BitVec.or_self]
    rfl
  | andi | ori | xori =>
    simp only [Bitwise.opCode, hextra (by decide)]
    rfl

theorem computed_iff (handler : ExceptionType → Machine → Machine) {m : Machine} {raw : Word} {op : Bitwise}
    (hraw : m.fetch = some raw) (hop : (Instruction.decode raw).opCode = op.opCode)
    (hload : m.registers .load = 0)
    : op.Computed handler m raw ↔
        op.destination (.decode raw) = 0 ∨ op.simulated raw m.registers = op.result raw m.registers := by
  obtain ⟨m', hm', hrun⟩ := oneInstruction_of_fetch handler hraw []
  rw [← hm'.registers] at hrun hload ⊢
  have hrun := hrun.trans (bind_advance (execute_bitwise handler hop _ _))
  have hregisters := committed_registers_of_idle hload
  unfold Bitwise.Computed
  rw [hrun, ← hm'.registers]
  constructor
  . rintro ⟨_, heq, -, hcomputed⟩
    cases heq
    rw [hregisters] at hcomputed
    have hdest := congrFun hcomputed (.gp (op.destination (.decode raw)))
    simp only [sequential, if_true] at hdest
    split at hdest
    next hzero => exact .inl hzero
    next => exact .inr hdest
  . intro h
    refine ⟨_, rfl, ?_, ?_⟩
    . exact (committed_mainMemory m' _ _).trans hm'.mainMemory
    . rw [hregisters]
      obtain hzero | hresult := h
      . funext r
        cases r with
        | gp i =>
          simp only [sequential, hzero]
          split <;> rfl
        | _ => rfl
      . rw [hresult]

theorem bitwise_iff (handler : ExceptionType → Machine → Machine) {m : Machine} {raw : Word} {op : Bitwise}
    (hraw : m.fetch = some raw) (hop : (Instruction.decode raw).opCode = op.opCode)
    (hload : m.registers .load = 0)
    : op.Computed handler m raw ↔
        (op = .or →
          let instr := Instruction.decode raw
          instr.rd = 0 ∨
            m.registers (.gp instr.rs) ||| m.registers (.gp instr.rt) = m.registers (.gp instr.rs)) := by
  rw [computed_iff handler hraw hop hload]
  cases op with
  | or => simp [Bitwise.destination, Bitwise.simulated, Bitwise.result, eq_comm]
  | _ => simp [Bitwise.simulated]

def Machine.nor : Machine :=
  .ofWords [0x00221827] fun i => if i = 1 then 0xc else if i = 2 then 0xa else 0

theorem bitwise_iff_nor : Bitwise.Computed .nor (fun _ m => m) .nor 0x00221827 := by
  have hraw : Machine.nor.fetch = some 0x00221827 := rfl
  exact (bitwise_iff (fun _ m => m) hraw rfl rfl).mpr nofun

def Machine.or : Machine :=
  .ofWords [0x00011825] fun i => if i = 1 then 1 else 0

theorem or_loses_bits
    : Machine.or.fetch = some 0x00011825 ∧ (Instruction.decode 0x00011825).opCode = .or ∧
        Machine.or.registers .load = 0 ∧ Machine.or.after (.gp 3) = some 0 ∧
        Bitwise.or.result 0x00011825 Machine.or.registers = 1 ∧
        ¬Bitwise.or.Computed (fun _ m => m) .or 0x00011825 := by
  have hraw : Machine.or.fetch = some 0x00011825 := rfl
  refine ⟨hraw, rfl, rfl, rfl, rfl, ?_⟩
  rw [computed_iff (fun _ m => m) hraw rfl rfl]
  decide

end Nachos
