import Nachos.Lib.Transition
import Nachos.Machine.DelaySlot

/-!
This module contains the registers of user programs: how `AddrSpace` initializes them, how the scheduler saves
and restores them, and what holds of them in every run.
-/

namespace Nachos

open Exit
open Function (update)

def numTotalRegs : Nat := 40

def copyRegisters (source target : Register → Word) : Option (Register → Word) :=
  (List.range numTotalRegs).foldlM
    (fun target i => (Register.ofIndex i).map fun r => update target r (source r)) target

namespace Thread

def saveUserState (m : Machine) (userRegisters : Register → Word) : Option (Register → Word) :=
  copyRegisters m.registers userRegisters

def restoreUserState (userRegisters : Register → Word) (m : Machine) : Option Machine := do
  let registers ← copyRegisters userRegisters m.registers
  return { m with registers }

end Thread

def AddrSpace.initRegisters (numPages : Nat) (m : Machine) : Option Machine := do
  let registers ← copyRegisters (fun _ => 0) m.registers
  let m := { m with registers }
  let m := m.setRegister .pc 0
  let m := m.setRegister .nextPC 4
  return m.setRegister (.gp 29) (BitVec.ofNat 32 (numPages * pageSize) - 16)

def AddrSpace.restoreState (table : List TranslationEntry) (m : Machine) : Machine :=
  { m with pageTable := some table }

/--
`space` is the page table of a thread's address space, if it has one.
-/
structure UserSystem where
  simulation : Simulation
  currentThread : Nat
  space : Nat → Option (List TranslationEntry)
  userRegisters : Nat → Register → Word

namespace UserSystem

def machine (s : UserSystem) : Machine := s.simulation.machine

def setMachine (s : UserSystem) (m : Machine) : UserSystem :=
  { s with simulation := { s.simulation with machine := m } }

def save (s : UserSystem) : Option UserSystem :=
  match s.space s.currentThread with
  | none => some s
  | some _ => do
    let registers ← Thread.saveUserState s.machine (s.userRegisters s.currentThread)
    return { s with userRegisters := update s.userRegisters s.currentThread registers }

/--
The part behind `SWITCH`. A thread with an address space has called `Run` before, so it goes on here.
-/
def restore (s : UserSystem) : Option UserSystem :=
  match s.space s.currentThread with
  | none => some s
  | some table => do
    let m ← Thread.restoreUserState (s.userRegisters s.currentThread) s.machine
    return s.setMachine (AddrSpace.restoreState table m)

def run (s : UserSystem) (nextThread : Nat) : Option UserSystem := do
  let s ← s.save
  { s with currentThread := nextThread }.restore

def startProcess (s : UserSystem) (table : List TranslationEntry) : Option UserSystem := do
  let s := { s with space := update s.space s.currentThread (some table) }
  let m ← AddrSpace.initRegisters table.length s.machine
  return s.setMachine (AddrSpace.restoreState table m)

end UserSystem

/-! ### The loops -/

theorem ofIndex_isSome : ∀ i < numTotalRegs, (Register.ofIndex i).isSome = true := by decide

theorem exists_index (r : Register) : ∃ i < numTotalRegs, Register.ofIndex i = some r := by
  cases r with
  | gp i => exact ⟨i, Nat.lt_trans i.isLt (by decide), Machine.ofIndex_of_lt i.isLt⟩
  | hi => exact ⟨32, by decide, rfl⟩
  | lo => exact ⟨33, by decide, rfl⟩
  | pc => exact ⟨34, by decide, rfl⟩
  | nextPC => exact ⟨35, by decide, rfl⟩
  | prevPC => exact ⟨36, by decide, rfl⟩
  | load => exact ⟨37, by decide, rfl⟩
  | loadValue => exact ⟨38, by decide, rfl⟩
  | badVAddr => exact ⟨39, by decide, rfl⟩

theorem foldlM_update (source : Register → Word) {indices : List Nat}
    (h : ∀ i ∈ indices, (Register.ofIndex i).isSome = true) (target : Register → Word)
    : ∃ result,
        indices.foldlM (fun target i => (Register.ofIndex i).map fun r => update target r (source r)) target =
          some result ∧
        ∀ r, (target r = source r ∨ ∃ i ∈ indices, Register.ofIndex i = some r) → result r = source r := by
  induction indices generalizing target with
  | nil =>
    refine ⟨target, rfl, ?_⟩
    rintro r (heq | ⟨i, hi, -⟩)
    . exact heq
    . contradiction
  | cons i indices ih =>
    obtain ⟨r, hr⟩ := Option.isSome_iff_exists.mp (h i (.head indices))
    obtain ⟨result, hresult, hregisters⟩ :=
      ih (fun i hi => h i (.tail _ hi)) (update target r (source r))
    refine ⟨result, ?_, ?_⟩
    . rw [List.foldlM_cons, hr]
      exact hresult
    . intro r' hr'
      apply hregisters
      by_cases heq : r' = r
      . subst heq
        exact .inl (Function.update_self _ _ _)
      . rw [Function.update_of_ne heq]
        obtain hr' | ⟨j, hj, hj'⟩ := hr'
        . exact .inl hr'
        . cases hj with
          | head => 
            rw [hr] at hj'
            exact absurd (Option.some.inj hj').symm heq
          | tail _ hj => exact .inr ⟨j, hj, hj'⟩

theorem copyRegisters_eq (source target : Register → Word) : copyRegisters source target = some source := by
  obtain ⟨result, hresult, hregisters⟩ :=
    foldlM_update source (fun i hi => ofIndex_isSome i (List.mem_range.mp hi)) target
  unfold copyRegisters
  rw [hresult]
  apply congrArg some
  funext r
  obtain ⟨i, hi, hr⟩ := exists_index r
  exact hregisters r (.inr ⟨i, List.mem_range.mpr hi, hr⟩)

theorem saveUserState_eq (m : Machine) (userRegisters : Register → Word)
    : Thread.saveUserState m userRegisters = some m.registers :=
  copyRegisters_eq m.registers userRegisters

theorem restoreUserState_eq (userRegisters : Register → Word) (m : Machine)
    : Thread.restoreUserState userRegisters m = some { m with registers := userRegisters } := by
  unfold Thread.restoreUserState
  rw [copyRegisters_eq]
  rfl

structure SaneRegisters (registers : Register → Word) : Prop where
  zero : registers (.gp 0) = 0
  load : (registers .load).toNat < 32

theorem SaneRegisters.sane {m : Machine} (h : SaneRegisters m.registers) : m.Sane :=
  ⟨h.zero, h.load⟩

theorem Machine.Sane.registers {m : Machine} (h : m.Sane) : SaneRegisters m.registers :=
  ⟨h.zero, h.load⟩

theorem initRegisters_eq (numPages : Nat) (m : Machine)
    : ∃ m', AddrSpace.initRegisters numPages m = some m' ∧ m'.Sane := by
  unfold AddrSpace.initRegisters
  rw [copyRegisters_eq]
  exact ⟨_, rfl, rfl, Nat.zero_lt_succ 31⟩

namespace UserSystem

def registersOf (s : UserSystem) (t : Nat) : Register → Word :=
  if t = s.currentThread then
    s.machine.registers
  else
    s.userRegisters t

theorem save_eq (s : UserSystem)
    : ∃ userRegisters, s.save = some { s with userRegisters } ∧
        ∀ t, (s.space t).isSome = true → userRegisters t = s.registersOf t := by
  unfold save registersOf
  split
  next hspace =>
    refine ⟨s.userRegisters, rfl, ?_⟩
    intro t ht
    have hne : t ≠ s.currentThread := by
      rintro rfl
      rw [hspace] at ht
      contradiction
    rw [if_neg hne]
  next =>
    rw [saveUserState_eq]
    refine ⟨_, rfl, ?_⟩
    intro t _
    rw [Function.update_apply]

theorem restore_eq (s : UserSystem)
    : ∃ m, s.restore = some (s.setMachine m) ∧
        m.registers = if (s.space s.currentThread).isSome then s.userRegisters s.currentThread
          else s.machine.registers := by
  unfold restore
  split
  next hspace =>
    rw [hspace]
    exact ⟨s.machine, rfl, rfl⟩
  next table hspace =>
    rw [hspace, restoreUserState_eq]
    exact ⟨_, rfl, rfl⟩

theorem run_eq (s : UserSystem) (nextThread : Nat)
    : ∃ s', s.run nextThread = some s' ∧ s'.currentThread = nextThread ∧ s'.space = s.space ∧
        (s.space nextThread = none → s'.machine.registers = s.machine.registers) ∧
        ∀ t, (s.space t).isSome = true → s'.registersOf t = s.registersOf t := by
  obtain ⟨userRegisters, hsave, hsaved⟩ := s.save_eq
  obtain ⟨m, hrestore, hregisters⟩ := restore_eq { s with userRegisters, currentThread := nextThread }
  refine ⟨{ s with userRegisters, currentThread := nextThread }.setMachine m, ?_, rfl, rfl, ?_, ?_⟩
  . unfold run
    rw [hsave]
    exact hrestore
  . intro hspace
    dsimp only at hregisters
    rw [hspace] at hregisters
    exact hregisters
  . intro t ht
    rw [← hsaved t ht]
    unfold registersOf
    split
    next hcurrent =>
      subst hcurrent
      dsimp only [setMachine] at hregisters ht
      rw [if_pos ht] at hregisters
      exact hregisters
    next => rfl

theorem startProcess_eq (s : UserSystem) (table : List TranslationEntry)
    : ∃ m, s.startProcess table =
          some ({ s with space := update s.space s.currentThread (some table) }.setMachine m) ∧
        m.Sane := by
  obtain ⟨m, hinit, hm⟩ := initRegisters_eq table.length s.machine
  refine ⟨AddrSpace.restoreState table m, ?_, hm.zero, hm.load⟩
  unfold startProcess
  dsimp only [machine] at hinit ⊢
  rw [hinit]
  rfl

/-! ### Runs -/

structure Boot (s : UserSystem) : Prop where
  registers : ∀ r, s.machine.registers r = 0
  space : ∀ t, s.space t = none

/--
`kernel` is whatever else changes the memory and the tables: a program is loaded, pages are remapped.
-/
inductive Step (handler : ExceptionHandler) (s : UserSystem) : UserSystem → Prop where
  | startProcess {s' : UserSystem} (table : List TranslationEntry) (h : s.startProcess table = some s')
    : Step handler s s'
  | oneInstruction {res : Option Unit} {simulation : Simulation}
      (hspace : (s.space s.currentThread).isSome = true)
      (h : Sim.oneInstruction handler.handle s.simulation = .ok (res, simulation))
    : Step handler s { s with simulation }
  | interrupt : Step handler s { s with simulation := s.simulation.interrupt }
  | run {s' : UserSystem} (nextThread : Nat) (h : s.run nextThread = some s') : Step handler s s'
  | kernel (m : Machine) (space : Nat → Option (List TranslationEntry))
      (hregisters : m.registers = s.machine.registers)
      (hspace : ∀ t, (space t).isSome = (s.space t).isSome)
    : Step handler s { s.setMachine m with space }

structure Inv (s : UserSystem) : Prop where
  machine : s.machine.Sane
  registersOf : ∀ t, (s.space t).isSome = true → SaneRegisters (s.registersOf t)

section

variable {handler : ExceptionHandler} {s s' : UserSystem}

theorem registersOf_current (s : UserSystem) : s.registersOf s.currentThread = s.machine.registers :=
  if_pos rfl

theorem registersOf_of_ne {t : Nat} (hcurrent : s'.currentThread = s.currentThread)
    (hsaved : s'.userRegisters = s.userRegisters) (ht : t ≠ s.currentThread)
    : s'.registersOf t = s.registersOf t := by
  unfold registersOf
  rw [if_neg ht, hcurrent, if_neg ht, hsaved]

theorem Step.registersOf_eq (h : Step handler s s') {t : Nat} (ht : t ≠ s.currentThread)
    (hspace : (s.space t).isSome = true)
    : (s'.space t).isSome = true ∧ s'.registersOf t = s.registersOf t := by
  cases h with
  | startProcess table h =>
    obtain ⟨m, hstart, -⟩ := s.startProcess_eq table
    cases hstart.symm.trans h
    refine ⟨?_, registersOf_of_ne rfl rfl ht⟩
    dsimp only [setMachine]
    rw [Function.update_of_ne ht]
    exact hspace
  | oneInstruction | interrupt => exact ⟨hspace, registersOf_of_ne rfl rfl ht⟩
  | run nextThread h =>
    obtain ⟨_, hrun, -, hspaces, -, hregisters⟩ := s.run_eq nextThread
    cases hrun.symm.trans h
    rw [hspaces]
    exact ⟨hspace, hregisters t hspace⟩
  | kernel m space hregisters hspaces => exact ⟨(hspaces t).trans hspace, registersOf_of_ne rfl rfl ht⟩

theorem inv_boot (h : Boot s) : Inv s := by
  constructor
  . constructor
    . exact h.registers _
    . rw [h.registers]
      decide
  . intro t ht
    rw [h.space] at ht
    contradiction

theorem Inv.of_machine (hinv : Inv s) (h : Step handler s s') (hcurrent : s'.currentThread = s.currentThread)
    (hspace : ∀ t, t ≠ s.currentThread → (s'.space t).isSome = true → (s.space t).isSome = true)
    (hmachine : s'.machine.Sane)
    : Inv s' := by
  refine ⟨hmachine, ?_⟩
  intro t ht
  by_cases heq : t = s'.currentThread
  . subst heq
    rw [registersOf_current]
    exact hmachine.registers
  . rw [hcurrent] at heq
    have hspace := hspace t heq ht
    rw [(h.registersOf_eq heq hspace).2]
    exact hinv.registersOf t hspace

theorem Inv.step (hinv : Inv s) (h : Step handler s s') : Inv s' := by
  have hstep := h
  cases h with
  | startProcess table h =>
    obtain ⟨m, hstart, hm⟩ := s.startProcess_eq table
    cases hstart.symm.trans h
    apply hinv.of_machine hstep rfl ?_ hm
    intro t ht hspace
    dsimp only [setMachine] at hspace
    rw [Function.update_of_ne ht] at hspace
    exact hspace
  | @oneInstruction res simulation _ h =>
    apply hinv.of_machine hstep rfl (fun _ _ => id)
    have hsane := oneInstruction_sane handler s.simulation
    unfold Spec at hsane
    rw [h] at hsane
    cases res with
    | none => exact hsane
    | some => exact hsane
  | interrupt => exact hinv.of_machine hstep rfl (fun _ _ => id) (Machine.sane_delayedLoad _)
  | run nextThread h =>
    obtain ⟨_, hrun, hcurrent, hspace, hnone, hregisters⟩ := s.run_eq nextThread
    cases hrun.symm.trans h
    have hregistersOf : ∀ t, (s'.space t).isSome = true → SaneRegisters (s'.registersOf t) := by
      intro t ht
      rw [hspace] at ht
      rw [hregisters t ht]
      exact hinv.registersOf t ht
    refine ⟨?_, hregistersOf⟩
    apply SaneRegisters.sane
    cases hnext : s.space nextThread with
    | none =>
      rw [hnone hnext]
      exact hinv.machine.registers
    | some table =>
      rw [← registersOf_current, hcurrent]
      apply hregistersOf
      rw [hspace, hnext]
      rfl
  | kernel m space hregisters hspaces =>
    apply hinv.of_machine hstep rfl
    . intro t _ ht
      exact (hspaces t).symm.trans ht
    . apply SaneRegisters.sane
      change SaneRegisters m.registers
      rw [hregisters]
      exact hinv.machine.registers

end

def Reachable (handler : ExceptionHandler) (s : UserSystem) : Prop :=
  Transition.Reachable Boot (Step handler) s

theorem Inv.reachable {handler : ExceptionHandler} {s : UserSystem} (h : s.Reachable handler) : Inv s := by
  apply Transition.Reachable.invariant ?_ ?_ h
  . intro s hboot
    exact inv_boot hboot
  . intro s s' _ hinv hstep
    exact hinv.step hstep

end UserSystem

/-! ### Where `DelayedLoad` stores -/

/--
The store of `DelayedLoad` goes to a general purpose register: besides it only the pending load and register 0 are
written.
-/
def Machine.StoresGeneral (m : Machine) : Prop :=
  ∃ i, Register.ofIndex (m.registers .load).toNat = some (.gp i) ∧
    ∀ nextReg nextValue r, r ∉ [.gp i, .load, .loadValue, .gp 0] →
      (m.delayedLoad nextReg nextValue).registers r = m.registers r

theorem storesGeneral_of_load {m : Machine} (h : (m.registers .load).toNat < 32) : m.StoresGeneral := by
  refine ⟨⟨_, h⟩, Machine.ofIndex_of_lt h, ?_⟩
  intro nextReg nextValue r hr
  rw [Machine.delayedLoad_registers h]
  cases r with
  | gp i =>
    have hzero : i ≠ 0 := by
      rintro rfl
      simp at hr
    have hload : i.val ≠ (m.registers .load).toNat := by
      intro heq
      simp [← heq] at hr
    simp [hzero, hload]
  | load | loadValue => simp at hr
  | _ => rfl

/--
An instruction that starts in `s` calls `DelayedLoad` on the machine `m`: behind the `switch`, which goes on from
what the fetch has left, or in `RaiseException`, before anything else was done.
-/
inductive LoadsOn (handler : ExceptionType → Machine → Machine) (s : Simulation)
    : Machine → Option Unit → Simulation → Prop where
  | commit {raw : Word} {next : Next} {s₁ s₂ : Simulation}
      (hfetch : Sim.readMem handler (s.machine.registers .pc) 4 s = .ok (some raw, s₁))
      (hswitch : Sim.execute handler (.decode raw) (s₁.machine.registers .nextPC + 4) s₁ = .ok (some next, s₂))
    : LoadsOn handler s s₂.machine (some ()) { s₂ with machine := s₂.machine.advance next }
  | trap {m₀ m : Machine} (which : ExceptionType) (badVAddr : Word) (huntouched : s.machine.Untouched m₀)
      (hm : m = m₀.setRegister .badVAddr badVAddr)
    : LoadsOn handler s m none
        { machine := handler which (m.delayedLoad 0 0)
          raised := s.raised ++ [⟨which, badVAddr, m.delayedLoad 0 0⟩] }

theorem Traps.loadsOn {handler : ExceptionType → Machine → Machine} {s s' : Simulation} (h : Traps handler s s')
    : ∃ m, LoadsOn handler s m none s' ∧
        ∀ r ∈ [.load, .loadValue, .pc, .nextPC], m.registers r = s.machine.registers r := by
  obtain ⟨m₀, which, badVAddr, huntouched, rfl⟩ := h
  refine ⟨_, .trap which badVAddr huntouched rfl, ?_⟩
  intro r hr
  have hne : r ≠ .badVAddr := by
    rintro rfl
    simp at hr
  change update m₀.registers .badVAddr badVAddr r = _
  rw [Function.update_of_ne hne, huntouched.registers]

theorem loadsOn_of_oneInstruction {handler : ExceptionType → Machine → Machine} {s s' : Simulation}
    {res : Option Unit} (h : Sim.oneInstruction handler s = .ok (res, s'))
    : ∃ m, LoadsOn handler s m res s' ∧
        ∀ r ∈ [.load, .loadValue, .pc, .nextPC], m.registers r = s.machine.registers r := by
  have hfetched : Spec (Sim.readMem handler (s.machine.registers .pc) 4) s
      (fun _ s₁ => s₁.raised = s.raised ∧ s.machine.Untouched s₁.machine) (Traps handler s) (fun _ => True) := by
    apply Sim.spec_readMem (by decide) ?_ ?_ (fun _ _ => trivial)
    . exact fun _ m hm _ => ⟨rfl, hm⟩
    . exact fun which _ => ⟨s.machine, which, _, s.machine.untouched_refl, rfl⟩
  unfold Sim.oneInstruction at h
  rw [read_bind_apply] at h
  unfold Spec at hfetched
  split at hfetched
  next raw s₁ hfetch =>
    obtain ⟨hraised, huntouched⟩ := hfetched
    rw [bind_apply_of_ok hfetch, read_bind_apply] at h
    have hswitched := execute_spec handler (.decode raw) (s₁.machine.registers .nextPC + 4) s₁
    unfold Spec at hswitched
    split at hswitched
    next next s₂ hswitch =>
      rw [bind_apply_of_ok hswitch] at h
      have hend : Sim.advance next s₂ = .ok (some (), { s₂ with machine := s₂.machine.advance next }) := rfl
      cases hend.symm.trans h
      refine ⟨s₂.machine, .commit hfetch hswitch, ?_⟩
      intro r hr
      have hcontrol : r.isControl = true := by
        simp only [List.mem_cons, List.not_mem_nil, or_false] at hr
        obtain rfl | rfl | rfl | rfl := hr <;> rfl
      rw [hswitched.1.control r hcontrol, huntouched.registers]
    next s₂ hswitch =>
      rw [bind_apply_of_exit hswitch] at h
      cases h
      obtain ⟨m, which, badVAddr, hm, rfl⟩ := hswitched
      apply Traps.loadsOn
      refine ⟨m, which, badVAddr, huntouched.trans hm, ?_⟩
      unfold Simulation.raise
      rw [hraised]
    next e hswitch =>
      rw [bind_apply_of_error hswitch] at h
      cases h
  next s₁ hfetch =>
    rw [bind_apply_of_exit hfetch] at h
    cases h
    exact hfetched.loadsOn
  next e hfetch =>
    rw [bind_apply_of_error hfetch] at h
    cases h

namespace UserSystem

theorem registersOf_of_run {handler : ExceptionHandler} {s s' : UserSystem} {t : Nat}
    (hspace : (s.space t).isSome = true)
    (h : Transition.Reachable (fun u => u = s) (fun u u' => Step handler u u' ∧ u.currentThread ≠ t) s')
    : (s'.space t).isSome = true ∧ s'.registersOf t = s.registersOf t := by
  let P (u : UserSystem) : Prop := (u.space t).isSome = true ∧ u.registersOf t = s.registersOf t
  apply Transition.Reachable.invariant (P := P) ?_ ?_ h
  . rintro _ rfl
    exact ⟨hspace, rfl⟩
  . rintro u u' _ ⟨hu, hregisters⟩ ⟨hstep, hne⟩
    obtain ⟨hu', hregisters'⟩ := hstep.registersOf_eq hne.symm hu
    exact ⟨hu', hregisters'.trans hregisters⟩

theorem registers_of_reachable (handler : ExceptionHandler) {s : UserSystem} (h : s.Reachable handler)
    : (s.machine.registers (.gp 0) = 0 ∧ (s.machine.registers .load).toNat < 32) ∧
      s.machine.StoresGeneral ∧
      (∀ res simulation, Sim.oneInstruction handler.handle s.simulation = .ok (res, simulation) →
        ∃ m : Machine, LoadsOn handler.handle s.simulation m res simulation ∧
          (∀ r ∈ [.load, .loadValue, .pc, .nextPC], m.registers r = s.machine.registers r) ∧ m.StoresGeneral) ∧
      (∀ nextThread s₁ s₂, (s.space s.currentThread).isSome = true → s.run nextThread = some s₁ →
        Transition.Reachable (fun u => u = s₁)
          (fun u u' => Step handler u u' ∧ u.currentThread ≠ s.currentThread) s₂ →
        s₂.currentThread = s.currentThread → s₂.machine.registers = s.machine.registers) := by
  have hinv := Inv.reachable h
  refine ⟨⟨hinv.machine.zero, hinv.machine.load⟩, storesGeneral_of_load hinv.machine.load, ?_, ?_⟩
  . intro res simulation hrun
    obtain ⟨m, hloads, hregisters⟩ := loadsOn_of_oneInstruction hrun
    refine ⟨m, hloads, hregisters, storesGeneral_of_load ?_⟩
    rw [hregisters .load (by simp)]
    exact hinv.machine.load
  . intro nextThread s₁ s₂ hspace hrun hreach hcurrent
    obtain ⟨_, hrun', -, hspaces, -, hregisters⟩ := s.run_eq nextThread
    cases hrun'.symm.trans hrun
    have hspace₁ : (s₁.space s.currentThread).isSome = true := by
      rw [hspaces]
      exact hspace
    have hregisters₂ := (registersOf_of_run hspace₁ hreach).2
    rw [← registersOf_current, hcurrent, hregisters₂, hregisters _ hspace, registersOf_current]

def returning : ExceptionHandler := ⟨fun _ m => m, fun _ _ => id⟩

def booted : UserSystem where
  simulation := ⟨⟨fun _ => 0, fun _ => 0, none, none⟩, []⟩
  currentThread := 0
  space := fun _ => none
  userRegisters := fun _ _ => 0

theorem reachable_booted : booted.Reachable returning :=
  .init ⟨fun _ => rfl, fun _ => rfl⟩

theorem registers_of_reachable_started
    : ∃ (s s₁ : UserSystem) (simulation : Simulation) (m : Machine),
        s.Reachable returning ∧ (s.space s.currentThread).isSome = true ∧ s.machine.registers (.gp 0) = 0 ∧
        Sim.oneInstruction returning.handle s.simulation = .ok (some (), simulation) ∧
        LoadsOn returning.handle s.simulation m (some ()) simulation ∧ m.StoresGeneral ∧
        s.run 1 = some s₁ ∧
        ∀ s₂, Step returning s₁ s₂ → s₂.currentThread = s.currentThread →
          s₂.machine.registers = s.machine.registers := by
  -- Memory is 0, so that the program begins with an instruction that does nothing.
  let ends (s : UserSystem) : Option (Option Unit × Simulation) :=
    (Sim.oneInstruction returning.handle s.simulation).toOption
  have hfirst : ((booted.startProcess [⟨0, 0, true, false, false, false⟩]).bind ends).map Prod.fst =
      some (some ()) := by
    decide +kernel
  obtain ⟨⟨_, simulation⟩, hends, rfl⟩ := Option.map_eq_some_iff.1 hfirst
  obtain ⟨s, hstart, hends⟩ := Option.bind_eq_some_iff.1 hends
  have hone : Sim.oneInstruction returning.handle s.simulation = .ok (some (), simulation) := by
    dsimp only [ends] at hends
    cases h : Sim.oneInstruction returning.handle s.simulation with
    | ok r =>
      rw [h] at hends
      cases hends
      rfl
    | error e =>
      rw [h] at hends
      cases hends
  have hreach : s.Reachable returning := reachable_booted.tail (.startProcess _ hstart)
  obtain ⟨⟨hzero, -⟩, -, hload, hswitch⟩ := registers_of_reachable returning hreach
  obtain ⟨m, hloads, -, hgeneral⟩ := hload _ _ hone
  obtain ⟨m', hm', -⟩ := booted.startProcess_eq [⟨0, 0, true, false, false, false⟩]
  cases hm'.symm.trans hstart
  obtain ⟨s₁, hrun, hcurrent, -⟩ := UserSystem.run_eq _ 1
  refine ⟨_, s₁, simulation, m, hreach, rfl, hzero, hone, hloads, hgeneral, hrun, ?_⟩
  have hother : s₁.currentThread ≠ 0 := by
    rw [hcurrent]
    exact Nat.one_ne_zero
  intro s₂ hstep
  apply hswitch 1 s₁ s₂ rfl hrun
  exact ⟨s₁, rfl, .single ⟨hstep, hother⟩⟩

end UserSystem

end Nachos
