import Nachos.Machine.Run

/-!
This module contains the discipline on the machine status. There is one variable for it, but every frame
gets executed in a status of its own, and has to leave the status that the frame below it needs.
-/

namespace Nachos

open Function (update)

namespace Frame

def entry : Frame (Site V) H → MachineStatus
  | .tickDrain old => old
  | .idleDrain => .idleMode
  | .user .oneInstruction | .user .oneTick => .userMode
  | _ => .systemMode

def exit? : Frame (Site V) H → Option MachineStatus
  | .tickDrain old | .restoreStatus old | .endHandler old => some old
  | .user .oneTick | .user .endException => some .userMode
  | .user .oneInstruction | .finish | .notReached => none
  | _ => some .systemMode

def Sane : Frame (Site V) H → Prop
  | .tickDrain old => old ≠ .idleMode
  | .threadRoot func | .fork func => ∃ v, func = .kernel v
  | _ => True

end Frame

namespace Stack

def Fits : List (Frame (Site V) H) → MachineStatus → Prop
  | [], _ => True
  | frame :: rest, status =>
    frame.entry = status ∧ frame.Sane ∧ ∀ status', frame.exit? = some status' → Fits rest status'

end Stack

section

variable {k : Kernel G V H} {arrivals : List (Arrival H)} {s s' : State G (Site V) H}
  {frame : Frame (Site V) H} {frames rest : List (Frame (Site V) H)} {site : Site V} {t : Nat}

def State.statusOf (s : State G (Site V) H) (t : Nat) : MachineStatus :=
  if t = s.currentThread then s.status else .systemMode

theorem fits_frames (call : Call V H) (v : V) (hrest : Stack.Fits rest .systemMode)
    : Stack.Fits ((call.rename Kernel.names).frames (.kernel v) ++ rest) .systemMode := by
  cases call <;>
    simp [Call.rename, Call.frames, Kernel.names, Stack.Fits, Frame.entry, Frame.Sane, Frame.exit?, hrest]

theorem Outcome.fits {prog : Program G (Site V) H} (h : Outcome prog s frame frames s')
    (hframe : ∀ site, frame ≠ .user site) (hfits : Stack.Fits (frame :: rest) s.status)
    : Stack.Fits (frames ++ rest) (s'.statusOf s.currentThread) := by
  obtain ⟨hentry, hsane, hrest⟩ := hfits
  cases h with
  | user site => exact absurd rfl (hframe site)
  | threadRoot func =>
    obtain ⟨v, rfl⟩ := hsane
    simp_all [Stack.Fits, Frame.entry, Frame.Sane, Frame.exit?, State.statusOf]
  | oneTick =>
    -- nothing but `Idle` sets the status to `IdleMode`
    have hidle : s.status ≠ .idleMode := by
      rw [← hentry]
      exact MachineStatus.noConfusion
    simp_all [Stack.Fits, Frame.entry, Frame.Sane, Frame.exit?, State.statusOf]
  | _ => simp_all [Stack.Fits, Frame.entry, Frame.Sane, Frame.exit?, State.statusOf]

theorem Kernel.Outcome.fits (h : k.Outcome arrivals s frame frames s')
    (hfits : Stack.Fits (frame :: rest) s.status)
    : Stack.Fits (frames ++ rest) (s'.statusOf s.currentThread) := by
  cases h with
  | kernel _ _ _ hframe hexec => exact (Nachos.outcome_of_exec hexec).fits hframe hfits
  | runTick _ _ hexec =>
    obtain ⟨hentry, -, hrest⟩ := hfits
    cases Nachos.outcome_of_exec hexec with
    | oneTick =>
      have hidle : s.status ≠ .idleMode := by
        rw [← hentry]
        exact MachineStatus.noConfusion
      simp_all [Stack.Fits, Frame.entry, Frame.Sane, Frame.exit?, State.statusOf]
  | call v shared call next =>
    obtain ⟨hentry, -, hrest⟩ := hfits
    have hstatus : s.status = .systemMode := hentry.symm
    simpa [State.statusOf, hstatus] using fits_frames call next (hrest _ rfl)
  | _ =>
    obtain ⟨hentry, -, hrest⟩ := hfits
    simp_all [Stack.Fits, Frame.entry, Frame.Sane, Frame.exit?, State.statusOf]

theorem Kernel.Outcome.status_of_ne (h : k.Outcome arrivals s frame frames s')
    (hfits : Stack.Fits (frame :: rest) s.status) (hne : s'.currentThread ≠ s.currentThread)
    : s'.status = .systemMode := by
  obtain ⟨hentry, -, -⟩ := hfits
  cases h with
  | kernel _ _ _ hframe hexec =>
    cases Nachos.outcome_of_exec hexec with
    | yieldSwitch => exact hentry.symm
    | sleepRun => exact hentry.symm
    | _ => contradiction
  | runTick _ _ hexec =>
    cases Nachos.outcome_of_exec hexec with
    | oneTick => contradiction
  | _ => contradiction

theorem Kernel.Outcome.stack_cases (h : k.Outcome arrivals s frame frames s') (hsane : frame.Sane) (t : Nat)
    : s'.stack t = s.stack t ∨ ∃ v, s'.stack t = [.threadRoot (.kernel v)] := by
  cases h with
  | kernel _ _ _ hframe hexec =>
    cases Nachos.outcome_of_exec hexec with
    | fork func =>
      obtain ⟨v, rfl⟩ := hsane
      by_cases ht : t = s.numThreads
      . exact .inr ⟨v, by simp [ht]⟩
      . exact .inl (by simp [ht])
    | _ => exact .inl rfl
  | runTick _ _ hexec =>
    cases Nachos.outcome_of_exec hexec with
    | oneTick => exact .inl rfl
  | _ => exact .inl rfl

theorem Kernel.Boot.fits {l : Logged G V H} (h : k.Boot l) (t : Nat)
    : Stack.Fits (l.state.stack t) (l.state.statusOf t) := by
  obtain ⟨arrivals, s, hsched, rfl⟩ := h
  obtain ⟨pending, rfl⟩ := State.scheduleAll_eq_ok hsched
  by_cases ht : t = 0
  . simp [ht, boot, system, Stack.Fits, Frame.entry, Frame.Sane, Frame.exit?, State.statusOf]
  . simp [ht, boot, Stack.Fits]

theorem Kernel.Reachable.fits {l : Logged G V H} (h : k.Reachable l)
    : ∀ t, Stack.Fits (l.state.stack t) (l.state.statusOf t) := by
  refine Transition.Reachable.invariant
    (P := fun l : Logged G V H => ∀ t, Stack.Fits (l.state.stack t) (l.state.statusOf t)) ?_ ?_ h
  . intro l hboot t
    exact hboot.fits t
  . intro l l' _ hfits hstep t
    obtain ⟨arrivals, frame, rest, frames, s', hstack, hexec, rfl⟩ := Kernel.step_cases hstep
    have hout := Kernel.outcome_of_exec hexec
    have hself : Stack.Fits (frame :: rest) l.state.status := by
      simpa [hstack, State.statusOf] using hfits l.state.currentThread
    dsimp only
    by_cases ht : t = l.state.currentThread
    . subst ht
      rw [State.setStack_stack, Function.update_self]
      exact hout.fits hself
    . rw [State.setStack_stack, Function.update_of_ne ht]
      have hstatus : State.statusOf (s'.setStack l.state.currentThread (frames ++ rest)) t =
          .systemMode := by
        unfold State.statusOf
        split
        next hcurrent =>
          apply hout.status_of_ne hself
          rintro heq
          exact ht (hcurrent.trans heq)
        next => rfl
      rw [hstatus]
      obtain hsame | ⟨v, hnew⟩ := hout.stack_cases hself.2.1 t
      . rw [hsame]
        simpa [State.statusOf, ht] using hfits t
      . rw [hnew]
        simp [Stack.Fits, Frame.entry, Frame.Sane]

theorem Kernel.Reachable.status_eq {l : Logged G V H} (h : k.Reachable l)
    (hstack : l.state.stack l.state.currentThread = frame :: rest)
    : l.state.status = frame.entry ∧ frame.Sane := by
  have hfits := h.fits l.state.currentThread
  rw [hstack] at hfits
  obtain ⟨hentry, hsane, _⟩ := hfits
  rw [hentry]
  exact ⟨by simp [State.statusOf], hsane⟩

end

end Nachos
