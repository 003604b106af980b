import Nachos.Lib.Signed
import Nachos.Machine.Trap

/-!
This module contains how the simulation reads the operands of the instructions that come in a signed and an
unsigned version.
-/

namespace Nachos

open Exit

structure Effect where
  writes : List (Register × Word) := []
  branches : Bool := false

/--
The MIPS architecture, where it says what happens.
-/
def Instruction.effect (instr : Instruction) (registers : Register → Word) : Option Effect :=
  let a := registers (.gp instr.rs)
  let b := registers (.gp instr.rt)
  let extra := instr.extra
  match instr.opCode with
  | .slt => some { writes := [(.gp instr.rd, if a.toInt < b.toInt then 1 else 0)] }
  | .slti => some { writes := [(.gp instr.rt, if a.toInt < extra.toInt then 1 else 0)] }
  | .sltu => some { writes := [(.gp instr.rd, if a.toNat < b.toNat then 1 else 0)] }
  | .sltiu => some { writes := [(.gp instr.rt, if a.toNat < extra.toNat then 1 else 0)] }
  | .bgtz => some { branches := 0 < a.toInt }
  | .blez => some { branches := a.toInt ≤ 0 }
  | .bgez => some { branches := 0 ≤ a.toInt }
  | .bltz => some { branches := a.toInt < 0 }
  | .div =>
    if b = 0 ∨ a.toInt = -2 ^ 31 ∧ b.toInt = -1 then
      none
    else
      some { writes := [(.lo, .ofInt 32 (a.toInt.tdiv b.toInt)), (.hi, .ofInt 32 (a.toInt.tmod b.toInt))] }
  | .divu =>
    if b = 0 then
      none
    else
      some { writes := [(.lo, .ofNat 32 (a.toNat / b.toNat)), (.hi, .ofNat 32 (a.toNat % b.toNat))] }
  | .sra => some { writes := [(.gp instr.rd, .ofInt 32 (b.toInt / (2 ^ extra.toNat : Nat)))] }
  | .srav => some { writes := [(.gp instr.rd, .ofInt 32 (b.toInt / (2 ^ (a &&& 0x1f).toNat : Nat)))] }
  | .srl => some { writes := [(.gp instr.rd, .ofNat 32 (b.toNat / 2 ^ extra.toNat))] }
  | .srlv => some { writes := [(.gp instr.rd, .ofNat 32 (b.toNat / 2 ^ (a &&& 0x1f).toNat))] }
  | _ => none

namespace Effect

def apply (e : Effect) (m : Machine) : Machine :=
  e.writes.foldl (fun m write => m.setRegister write.1 write.2) m

def next (e : Effect) (instr : Instruction) (registers : Register → Word) : Next where
  pcAfter := registers .nextPC + if e.branches then indexToAddr instr.extra else 4

end Effect

def Instruction.SignsAgree (instr : Instruction) (registers : Register → Word) : Prop :=
  let a := registers (.gp instr.rs)
  let b := registers (.gp instr.rt)
  let extra := instr.extra
  match instr.opCode with
  | .slt => a.msb = b.msb
  | .slti => a.msb = extra.msb
  -- the branch may go to the next instruction
  | .bgtz | .blez => a.msb = false ∨ indexToAddr extra = 4
  | .div =>
    0 ≤ a.toInt ∧ (0 < b.toInt ∨ a.toInt < -b.toInt) ∨ a.toInt < 0 ∧ (b.toInt = 1 ∨ a = b)
  | .sra | .srl => b.msb = false ∨ extra.toNat = 0
  | .srav | .srlv => b.msb = false ∨ (a &&& 0x1f).toNat = 0
  | _ => True

theorem flag_iff {p q : Prop} [Decidable p] [Decidable q]
    : ((if p then 1 else 0 : Word) = if q then 1 else 0) ↔ (p ↔ q) := by
  by_cases hp : p <;> by_cases hq : q <;> simp [hp, hq]

theorem and_signBit_eq_zero (a : Word) : a &&& signBit = 0 ↔ 0 ≤ a.toInt := by
  have h := BitVec.and_twoPow a 31
  rw [BitVec.nonneg_iff, BitVec.msb_eq_getLsbD_last]
  change a &&& signBit = _ at h
  rw [h]
  cases a.getLsbD 31 with
  | false => simp
  | true => simp

section

variable {s : Simulation} {next : Next}

theorem setRegister_iff {m : Machine} {r : Register} {value value' : Word}
    : m.setRegister r value = m.setRegister r value' ↔ value = value' := by
  unfold Machine.setRegister
  simp [(Function.update_injective m.registers r).eq_iff]

theorem setRegister_setRegister_iff {m : Machine} {r r' : Register} (hne : r ≠ r')
    {value value' result result' : Word}
    : (m.setRegister r value).setRegister r' result = (m.setRegister r value').setRegister r' result' ↔
        value = value' ∧ result = result' := by
  constructor
  . intro h
    have hregisters := congrArg Machine.registers h
    have hr := congrFun hregisters r
    have hr' := congrFun hregisters r'
    simp only [Machine.setRegister, Function.update_self, Function.update_of_ne hne] at hr hr'
    exact ⟨hr, hr'⟩
  . rintro ⟨rfl, rfl⟩
    rfl

theorem ok_setRegister_iff {m m' : Machine}
    : (Except.ok (some next, { s with machine := m }) : Except Machine.Abort (Option Next × Simulation)) =
        .ok (some next, { s with machine := m' }) ↔ m = m' := by
  simp

theorem branch_iff {p q : Prop} [Decidable p] [Decidable q] (pc offset : Word)
    : (Except.ok (some (if p then { pcAfter := pc + offset } else { pcAfter := pc + 4 }), s) :
          Except Machine.Abort (Option Next × Simulation)) =
        .ok (some { pcAfter := pc + if decide q = true then offset else 4 }, s) ↔
          ((p ↔ q) ∨ offset = 4) := by
  by_cases hp : p <;> by_cases hq : q <;> simp [hp, hq, eq_comm]

theorem execute_effect_iff (handler : ExceptionType → Machine → Machine) {instr : Instruction} {e : Effect}
    (he : instr.effect s.machine.registers = some e)
    : Sim.execute handler instr (s.machine.registers .nextPC + 4) s =
          .ok (some (e.next instr s.machine.registers), { s with machine := e.apply s.machine }) ↔
        instr.SignsAgree s.machine.registers := by
  unfold Instruction.effect at he
  unfold Sim.execute Instruction.SignsAgree
  cases hop : instr.opCode with
  | slt | slti =>
    simp only [hop] at he ⊢
    cases he
    refine (ok_setRegister_iff.trans setRegister_iff).trans (flag_iff.trans ?_)
    exact BitVec.lt_iff_toInt_lt_iff _ _
  | sltu | sltiu =>
    simp only [hop] at he ⊢
    cases he
    refine (ok_setRegister_iff.trans setRegister_iff).trans (flag_iff.trans ?_)
    exact iff_of_true Iff.rfl trivial
  | bgtz =>
    simp only [hop] at he ⊢
    cases he
    refine (branch_iff _ _).trans (or_congr_left ?_)
    exact BitVec.pos_iff_toInt_pos_iff _
  | blez =>
    simp only [hop] at he ⊢
    cases he
    refine (branch_iff _ _).trans (or_congr_left ?_)
    rw [← BitVec.pos_iff_toInt_pos_iff, ← BitVec.not_lt, ← Int.not_lt]
    exact not_iff_not
  | bgez =>
    simp only [hop] at he ⊢
    cases he
    refine (branch_iff _ _).trans (iff_of_true ?_ trivial)
    exact .inl (and_signBit_eq_zero _)
  | bltz =>
    simp only [hop] at he ⊢
    cases he
    refine (branch_iff _ _).trans (iff_of_true ?_ trivial)
    rw [← Int.not_le]
    exact .inl (not_congr (and_signBit_eq_zero _))
  | div =>
    simp only [hop] at he ⊢
    split at he
    next => contradiction
    next hne =>
      cases he
      rw [read_bind_apply, if_neg fun h => hne (.inl h)]
      refine ok_setRegister_iff.trans ((setRegister_setRegister_iff (by decide)).trans ?_)
      rw [BitVec.ofInt_tdiv, BitVec.ofInt_tmod]
      exact BitVec.udiv_eq_sdiv_iff _ _ fun h => hne (.inl h)
  | divu =>
    simp only [hop] at he ⊢
    split at he
    next => contradiction
    next hne =>
      cases he
      rw [read_bind_apply, if_neg hne]
      refine ok_setRegister_iff.trans ((setRegister_setRegister_iff (by decide)).trans ?_)
      rw [BitVec.ofNat_div, BitVec.ofNat_mod]
      exact iff_of_true ⟨rfl, rfl⟩ trivial
  | sra | srav =>
    simp only [hop] at he ⊢
    cases he
    refine (ok_setRegister_iff.trans setRegister_iff).trans ?_
    rw [BitVec.ofInt_div_two_pow]
    exact BitVec.ushiftRight_eq_sshiftRight_iff _ _
  | srl | srlv =>
    simp only [hop] at he ⊢
    cases he
    refine (ok_setRegister_iff.trans setRegister_iff).trans ?_
    rw [BitVec.ofNat_div_two_pow, eq_comm]
    exact BitVec.ushiftRight_eq_sshiftRight_iff _ _
  | _ =>
    rw [hop] at he
    contradiction

end

theorem signed_iff (handler : ExceptionType → Machine → Machine) {m : Machine} {raw : Word} {e : Effect}
    (hraw : m.fetch = some raw) (he : (Instruction.decode raw).effect m.registers = some e)
    : ∃ m', m.Untouched m' ∧
        Sim.oneInstruction handler ⟨m, []⟩ =
          (Sim.execute handler (.decode raw) (m.registers .nextPC + 4) >>= Sim.advance) ⟨m', []⟩ ∧
        (Sim.execute handler (.decode raw) (m.registers .nextPC + 4) ⟨m', []⟩ =
            .ok (some (e.next (.decode raw) m.registers), ⟨e.apply m', []⟩) ↔
          (Instruction.decode raw).SignsAgree m.registers) := by
  obtain ⟨m', hm', hrun⟩ := oneInstruction_of_fetch handler hraw []
  refine ⟨m', hm', hrun, ?_⟩
  have hregisters : m.registers = (Simulation.mk m' []).machine.registers := hm'.registers.symm
  rw [hregisters] at he ⊢
  exact execute_effect_iff handler he

def Machine.negative (raw : Word) : Machine :=
  .ofWords [raw] fun i => if i = 1 then -8 else if i = 2 then 2 else 0

theorem signed_iff_slt
    : ∃ (m' : Machine) (e : Effect), (Machine.negative 0x0042182a).Untouched m' ∧ e.writes = [(.gp 3, 0)] ∧
        Sim.execute (fun _ m => m) (.decode 0x0042182a) 8 ⟨m', []⟩ =
          .ok (some { pcAfter := 8 }, ⟨e.apply m', []⟩) := by
  obtain ⟨m', hm', -, hiff⟩ := signed_iff (fun _ m => m) (m := .negative 0x0042182a) rfl rfl
  exact ⟨m', _, hm', rfl, hiff.mpr rfl⟩

def Machine.after (m : Machine) (r : Register) : Option Word :=
  match Sim.oneInstruction (fun _ m => m) ⟨m, []⟩ with
  | .ok (some (), s) => some (s.machine.registers r)
  | _ => none

def Machine.specified (m : Machine) (r : Register) : Option Word := do
  let raw ← m.fetch
  let e ← (Instruction.decode raw).effect m.registers
  match Sim.advance (e.next (.decode raw) m.registers) ⟨e.apply m, []⟩ with
  | .ok (some (), s) => some (s.machine.registers r)
  | _ => none

theorem signed_operands_misread
    : [(0x0022182a, Register.gp 3), (0x28230002, .gp 3), (0x1c200010, .nextPC), (0x18200010, .nextPC),
        (0x0022001a, .lo), (0x00011843, .gp 3), (0x00411807, .gp 3), (0x00011842, .gp 3),
        (0x00411806, .gp 3)].map
          (fun p => ((Machine.negative p.1).after p.2, (Machine.negative p.1).specified p.2)) =
      [(some 0, some 1), (some 0, some 1), (some 68, some 8), (some 8, some 68),
        (some 0x7ffffffc, some (-4)), (some 0x7ffffffc, some (-4)), (some 0x3ffffffe, some (-2)),
        (some (-4), some 0x7ffffffc), (some (-2), some 0x3ffffffe)] := by
  decide +kernel

end Nachos
