import Nachos.Threads.Resume

/-!
This module contains `ThreadRoot`, which is where a new thread starts when it is switched to for the first time.
-/

namespace Nachos

namespace Switch

open Function (update update_self update_of_ne)
open Relation (ReflTransGen)
open I386

def threadRootEntry : List Plain := [
  .pushl (.reg .ebp),
  .movl (.reg .esp) (.reg .ebp),
  .pushl (.reg .edx)]

/--
What is behind the last call is never reached.
-/
def threadRoot : List Instr :=
  threadRootEntry.map .plain ++ [
    .call (.reg .ecx),
    .call (.reg .esi),
    .call (.reg .edi),
    .plain (.movl (.reg .ebp) (.reg .esp)),
    .plain (.popl (.reg .ebp)),
    .ret]

section

variable {s : Cpu}

def entered (s : Cpu) : Data :=
  s.toData.execAll threadRootEntry

theorem entered_esp (s : Cpu) : (entered s).regs .esp = s.regs .esp - 4 - 4 := by
  simp [entered, threadRootEntry, Data.execAll, Data.exec, Data.push, Data.read, Data.write]

theorem entered_regs (s : Cpu) {r : Reg} (hebp : r ≠ .ebp) (hesp : r ≠ .esp) : (entered s).regs r = s.regs r := by
  simp [entered, threadRootEntry, Data.execAll, Data.exec, Data.push, Data.read, Data.write, hebp, hesp]

theorem load_entered (s : Cpu) : (entered s).ram.load ((entered s).regs .esp) = s.regs .edx := by
  rw [entered_esp]
  simp [entered, threadRootEntry, Data.execAll, Data.exec, Data.push, Data.read, Data.write]

theorem threadRoot_callsAll {code : Code} {stop : BitVec 32} (h : Loaded code s.eip threadRoot stop)
    : CallsAll code s [
        ⟨0, 8, fun c => c.eip = s.regs .ecx⟩,
        ⟨1, 4, fun c => c.eip = s.regs .esi ∧ c.ram.load (c.regs .esp + 4) = s.regs .edx⟩,
        ⟨0, 0, fun c => c.eip = s.regs .edi⟩] := by
  obtain ⟨mid, hentry, next₁, h₁, next₂, h₂, next₃, h₃, -⟩ := h.of_append
  apply CallsAll.head hentry.steps
  -- `InterruptEnable`
  apply CallsAll.call (r := .ecx) h₁ (by dsimp only; omega)
  . exact entered_regs s (r := .ecx) (by decide) (by decide)
  intro s₁ hs₁
  have hesi : s₁.regs .esi = s.regs .esi := by
    rw [hs₁.regs .esi (by decide)]
    exact entered_regs s (r := .esi) (by decide) (by decide)
  have hedi : s₁.regs .edi = s.regs .edi := by
    rw [hs₁.regs .edi (by decide)]
    exact entered_regs s (r := .edi) (by decide) (by decide)
  have harg : s₁.ram.load (s₁.regs .esp) = s.regs .edx := by
    rw [← load_entered s, hs₁.esp]
    apply Ram.load_congr
    intro x hx
    apply hs₁.frame
    rw [show BitVec.ofNat 32 (4 * 0) = 0#32 from rfl, BitVec.add_zero]
    exact Ram.area_subset (n := 8) (by decide) hx
  -- the thread's own function
  apply CallsAll.call (r := .esi) (hs₁.eip ▸ h₂) (by dsimp only; omega)
  . refine ⟨hesi, ?_⟩
    rw [← harg]
    exact s₁.toData.load_push_next next₂
  intro s₂ hs₂
  -- `ThreadFinish`
  apply CallsAll.call (r := .edi) (hs₂.eip ▸ h₃) (by dsimp only; omega)
  . exact (hs₂.regs .edi (by decide)).trans hedi
  exact fun _ _ => trivial

end

theorem forked_thread_runs {sym : Symbols} {s s₁ s' : State sym} {t stack func arg : BitVec 32} {code : Code}
    {stop : BitVec 32} (hreach : Reachable s) (h : Forks s t stack func arg s₁) (huntil : Until t s₁ s')
    (hcurrent : s'.current = t) (hload : Loaded code sym.threadRoot threadRoot stop)
    : s'.eip = sym.threadRoot ∧ CallsAll code s'.toCpu [
        ⟨0, 8, fun c => c.eip = sym.interruptEnable⟩,
        ⟨1, 4, fun c => c.eip = func ∧ c.ram.load (c.regs .esp + 4) = arg⟩,
        ⟨0, 0, fun c => c.eip = sym.threadFinish⟩] := by
  obtain ⟨k, hparked, hinitial⟩ := h.parked_new
  have hready := (Step.fork h).ready hreach.ready
  obtain ⟨-, hk | hk⟩ := huntil.parked_or_resumed hready hparked
  . exact absurd hcurrent.symm hk.ne_current
  . have heip : s'.eip = sym.threadRoot := hk.eip.trans hinitial.top
    refine ⟨heip, ?_⟩
    rw [← heip] at hload
    have hcalls := threadRoot_callsAll hload
    rwa [hk.regs .ecx (by decide), hk.regs .esi (by decide), hk.regs .edx (by decide), hk.regs .edi (by decide),
      hinitial.ecx, hinitial.esi, hinitial.edx, hinitial.edi] at hcalls

def TwoThreads.code : Code :=
  fun a => threadRoot[(a - 0x300).toNat]?.map fun i => (i, a + 1)

theorem TwoThreads.loaded : Loaded code symbols.threadRoot threadRoot 0x309 :=
  ⟨_, rfl, _, rfl, _, rfl, _, rfl, _, rfl, _, rfl, _, rfl, _, rfl, _, rfl, rfl⟩

theorem forked_thread_runs_five
    : ∃ s : State TwoThreads.symbols, s.current = 0x2000 ∧ s.eip = 0x300 ∧
        CallsAll TwoThreads.code s.toCpu [
          ⟨0, 8, fun c => c.eip = 0x400⟩,
          ⟨1, 4, fun c => c.eip = 0x600 ∧ c.ram.load (c.regs .esp + 4) = 5⟩,
          ⟨0, 0, fun c => c.eip = 0x500⟩] := by
  have huntil : Until 0x2000 TwoThreads.forked (TwoThreads.forked.switch 0x2000 TwoThreads.calls) :=
    .tail .refl (by decide) (.switch TwoThreads.calls) (.inl rfl)
  refine ⟨TwoThreads.forked.switch 0x2000 TwoThreads.calls, rfl, ?_⟩
  exact forked_thread_runs (.init (rfl : TwoThreads.start.layout.threads = {TwoThreads.start.current}))
    TwoThreads.forks huntil rfl TwoThreads.loaded

end Switch

end Nachos
