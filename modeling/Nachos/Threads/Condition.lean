import Nachos.Threads.Activation

/-!
This module contains the results about `Condition::Wait`. It is the only one of the synchronization
operations that does not disable interrupts.
-/

namespace Nachos

open Function (update)

def Frame.Internal : Frame U H → Prop
  | .yield | .setLevel _ | .oneTick | .tickDrain _ | .restoreStatus _ | .idle | .idleDrain
  | .handler _ | .endHandler _ | .sleepLoop | .runTail | .p _ | .pWhile _ _ | .v _ => True
  | _ => False

section Internal

variable {prog : Program G U H} {s s' : State G U H} {frame : Frame U H}
  {frames : List (Frame U H)}

theorem Outcome.internal (h : Outcome prog s frame frames s') (hframe : frame.Internal)
    : (∀ f ∈ frames, f.Internal) ∧ s'.owner = s.owner := by
  cases h <;> first | exact hframe.elim | simp [Frame.Internal]

theorem Fault.of_internal {a : Assertion} (h : Fault s frame a) (hframe : frame.Internal)
    : a ≠ .acquire ∧ a ≠ .release ∧ a ≠ .wait ∧ a ≠ .signal ∧ a ≠ .broadcast := by
  cases h <;> first | exact hframe.elim | simp

theorem Fault.eq_schedule {a : Assertion} {rest : List (Frame U H)} (h : Fault s frame a)
    (hframe : frame.Internal) (hinv : Inv s) (hhist : Hist s)
    (hstack : s.stack s.currentThread = frame :: rest)
    : a = .schedule := by
  obtain ⟨h1, h2, h3, hsleep⟩ := h.of_ok (hinv.moded.current hinv.placed.current_lt hstack)
  have h4 := hhist.deleteThread_ne hinv.placed hstack h
  have h5 := h.of_internal hframe
  cases a <;> simp_all
  obtain ⟨_, _, rfl⟩ := hsleep
  exact hframe

theorem Outcome.owner_of_ne (h : Outcome prog s frame frames s') {l t : Nat}
    (ht : s.currentThread ≠ t) (howner : s.owner l ≠ some t)
    : s'.owner l ≠ some t := by
  cases h with
  | setOwner l' =>
    by_cases hl : l = l'
    . subst hl
      simpa using ht
    . simpa [hl] using howner
  | release l' =>
    by_cases hl : l = l'
    . subst hl
      simp
    . simpa [hl] using howner
  | _ => exact howner

end Internal

/-! ### The phases of `Wait` -/

/--
`Wait` of thread `t` on condition `c` and lock `l`, called at `level`, has the frames `above` left.
-/
inductive WaitPhase (t c l : Nat) (level : IntStatus) (s : State G U H)
    : List (Frame U H) → Prop where
  | call (hcurrent : s.currentThread = t) (howner : s.owner l = some t)
      (hmode : s.mode = .kernel level)
    : WaitPhase t c l level s [.wait c l]
  | release (hcurrent : s.currentThread = t) (howner : s.owner l = some t)
      (hmode : s.mode = .kernel level)
    : WaitPhase t c l level s [.release l, .waitSleep c l]
  | released (above : List (Frame U H)) (hinternal : ∀ f ∈ above, f.Internal)
      (howner : s.owner l ≠ some t) (htriple : Stack.Triple above (s.modeOf t) (.kernel level))
    : WaitPhase t c l level s (above ++ [.waitSleep c l])
  | waiting (above : List (Frame U H)) (last : Frame U H) (hinternal : ∀ f ∈ above, f.Internal)
      (howner : s.owner l ≠ some t)
      (hlast : last = .waitAcquire c l ∨ last = .acquire l ∨ last = .setOwner l)
    : WaitPhase t c l level s (above ++ [last])
  | returned (hcurrent : s.currentThread = t) (howner : s.owner l = some t)
    : WaitPhase t c l level s []

namespace WaitPhase

variable {prog : Program G U H} {s s' : State G U H} {t c l : Nat} {level : IntStatus}
  {base above : List (Frame U H)}

theorem setStack {thread : Nat} {frames : List (Frame U H)} (hp : WaitPhase t c l level s above)
    : WaitPhase t c l level (s.setStack thread frames) above := by
  cases hp with
  | call hcurrent howner hmode => exact .call hcurrent howner hmode
  | release hcurrent howner hmode => exact .release hcurrent howner hmode
  | released above hinternal howner htriple => exact .released above hinternal howner htriple
  | waiting above last hinternal howner hlast => exact .waiting above last hinternal howner hlast
  | returned hcurrent howner => exact .returned hcurrent howner

theorem other (hp : WaitPhase t c l level s above) (hne : s.currentThread ≠ t)
    {frame : Frame U H} {frames : List (Frame U H)} (hout : Outcome prog s frame frames s')
    (hmode : s'.modeOf t = s.modeOf t)
    : WaitPhase t c l level s' above := by
  cases hp with
  | call hcurrent => exact absurd hcurrent hne
  | release hcurrent => exact absurd hcurrent hne
  | released above hinternal howner htriple =>
    rw [← hmode] at htriple
    exact .released above hinternal (hout.owner_of_ne hne howner) htriple
  | waiting above last hinternal howner hlast =>
    exact .waiting above last hinternal (hout.owner_of_ne hne howner) hlast
  | returned hcurrent => exact absurd hcurrent hne

theorem own {frame : Frame U H} {rest frames : List (Frame U H)}
    (hp : WaitPhase s.currentThread c l level s (frame :: rest))
    (hout : Outcome prog s frame frames s')
    : WaitPhase s.currentThread c l level s' (frames ++ rest) := by
  generalize habove : frame :: rest = above at hp
  cases hp with
  | call hcurrent howner hmode =>
    injection habove with hframe hrest
    subst hframe hrest
    cases hout
    exact .release rfl howner hmode
  | release hcurrent howner hmode =>
    injection habove with hframe hrest
    subst hframe hrest
    cases hout
    refine .released [.v (.lock l)] (by simp [Frame.Internal]) (by simp) ?_
    rw [State.modeOf, if_pos rfl]
    have hmode' : State.mode { s with
        owner := update s.owner l none
        syncLog := s.syncLog ++ [.released l s.currentThread] } = .kernel level :=
      hmode
    rw [hmode']
    exact ⟨_, ⟨Mode.isKernel_kernel level, rfl⟩, rfl⟩
  | released above hinternal howner htriple =>
    cases above with
    | nil =>
      injection habove with hframe hrest
      subst hframe hrest
      cases hout
      exact .waiting [.sleepLoop] _ (by simp [Frame.Internal]) howner (.inl rfl)
    | cons f above =>
      rw [List.cons_append] at habove
      injection habove with hframe hrest
      subst hframe hrest
      obtain ⟨hf, habove⟩ := List.forall_mem_cons.mp hinternal
      obtain ⟨hframes, howner'⟩ := hout.internal hf
      rw [← List.append_assoc]
      refine .released (frames ++ above) ?_ (by rw [howner']; exact howner) ?_
      . exact List.forall_mem_append.mpr ⟨hframes, habove⟩
      . obtain ⟨m₁, hframe, hrest⟩ := htriple
        rw [State.modeOf, if_pos rfl] at hframe
        exact Stack.triple_append.mpr ⟨m₁, hout.triple hframe, hrest⟩
  | waiting above last hinternal howner hlast =>
    cases above with
    | nil =>
      injection habove with hframe hrest
      subst hframe hrest
      rcases hlast with rfl | rfl | rfl
      . cases hout
        exact .waiting [] _ (by simp) howner (.inr (.inl rfl))
      . cases hout
        exact .waiting [.p (.lock l)] _ (by simp [Frame.Internal]) howner (.inr (.inr rfl))
      . cases hout
        exact .returned rfl (by simp)
    | cons f above =>
      rw [List.cons_append] at habove
      injection habove with hframe hrest
      subst hframe hrest
      obtain ⟨hf, habove⟩ := List.forall_mem_cons.mp hinternal
      obtain ⟨hframes, howner'⟩ := hout.internal hf
      rw [← List.append_assoc]
      refine .waiting (frames ++ above) last ?_ (by rw [howner']; exact howner) hlast
      exact List.forall_mem_append.mpr ⟨hframes, habove⟩
  | returned => contradiction

theorem step (hp : WaitPhase t c l level s above) (hstep : StepAbove prog t base s s')
    (hinv : Inv s) (ht : t < s.numThreads) (hstack : s.stack t = above ++ base)
    : ∃ above', s'.stack t = above' ++ base ∧ WaitPhase t c l level s' above' := by
  rcases hstep.cases ht hstack with ⟨rfl, frame, rest, frames, s₁, rfl, hout, rfl⟩ | ⟨hne, hstack'⟩
  . refine ⟨frames ++ rest, by simp, ?_⟩
    exact (hp.own hout).setStack
  . refine ⟨above, hstack', ?_⟩
    obtain ⟨frame, rest, frames, s₁, htop, hout, rfl⟩ := step_cases hstep.1
    have hok := hinv.moded.current hinv.placed.current_lt htop
    exact (hp.other hne hout (hout.modeOf_of_ne hok (Ne.symm hne))).setStack

theorem fault (hp : WaitPhase s.currentThread c l level s above) (hinv : Inv s) (hhist : Hist s)
    (hlevel : level = .intOff) {frame : Frame U H} {rest : List (Frame U H)}
    (habove : above = frame :: rest) (hstack : s.stack s.currentThread = above ++ base)
    {a : Assertion} (hfault : Fault s frame a)
    : a = .schedule := by
  rw [habove, List.cons_append] at hstack
  cases hp with
  | call hcurrent howner hmode =>
    injection habove with hframe
    subst hframe
    cases hfault with
    | wait _ _ hne => exact absurd howner hne
  | release hcurrent howner hmode =>
    injection habove with hframe
    subst hframe
    cases hfault with
    | release _ hne => exact absurd howner hne
  | released above hinternal howner htriple =>
    cases above with
    | nil =>
      injection habove with hframe
      subst hframe
      cases hfault with
      | waitSleep _ _ hon =>
        rw [State.modeOf, if_pos rfl] at htriple
        have := congrArg Mode.level htriple
        rw [State.mode, hon, hlevel] at this
        contradiction
    | cons f above =>
      rw [List.cons_append] at habove
      injection habove with hframe
      subst hframe
      exact hfault.eq_schedule (List.forall_mem_cons.mp hinternal).1 hinv hhist hstack
  | waiting above last hinternal howner hlast =>
    cases above with
    | nil =>
      injection habove with hframe
      subst hframe
      rcases hlast with rfl | rfl | rfl
      . cases hfault
      . cases hfault with
        | acquire _ heq => exact absurd heq howner
      . cases hfault
    | cons f above =>
      rw [List.cons_append] at habove
      injection habove with hframe
      subst hframe
      exact hfault.eq_schedule (List.forall_mem_cons.mp hinternal).1 hinv hhist hstack
  | returned => contradiction

end WaitPhase

theorem Activation.waitPhase {sys : System G U H} {s s' : State G U H} {c l : Nat}
    {base : List (Frame U H)} (h : Activation sys.toProgram s.currentThread base s s')
    (hs : sys.Reachable s) (hstack : s.stack s.currentThread = .wait c l :: base)
    (howner : s.owner l = some s.currentThread)
    : s.currentThread < s'.numThreads ∧
      ∃ above, s'.stack s.currentThread = above ++ base ∧
        WaitPhase s.currentThread c l s.level s' above := by
  induction h with
  | refl =>
    have hcur := hs.inv.placed.current_lt
    obtain ⟨m₁, ⟨hkernel, _⟩, _⟩ := hs.inv.moded.current hcur hstack
    exact ⟨hcur, [.wait c l], hstack, .call rfl howner hkernel.eq⟩
  | tail hrun hstep ih =>
    obtain ⟨ht, above, hstack', hphase⟩ := ih
    have hinv := (Activation.reachable hrun hs).inv
    exact ⟨Nat.lt_of_lt_of_le ht hstep.1.numThreads_le, hphase.step hstep hinv ht hstack'⟩

/--
What the callers of `Wait` rely on, for a call in state `s` with the stack `base` below it.
-/
structure MonitorWait (prog : Program G U H) (s : State G U H) (c l : Nat)
    (base : List (Frame U H)) : Prop where
  reaches_sleep : ∃ s', Activation prog s.currentThread base s s' ∧
    s'.currentThread = s.currentThread ∧ s'.stack s.currentThread = .waitSleep c l :: base ∧
    s'.level = .intOff
  sleep_intOff : ∀ s', Activation prog s.currentThread base s s' →
    s'.currentThread = s.currentThread → s'.stack s.currentThread = .waitSleep c l :: base →
    s'.level = .intOff
  assertions : ∀ s' frame rest arrivals a, Activation prog s.currentThread base s s' →
    s'.currentThread = s.currentThread → s'.stack s.currentThread = frame :: rest ++ base →
    step prog arrivals s' = .error (.assertion a) → a = .schedule
  returns : ∀ s', Activation prog s.currentThread base s s' →
    s'.currentThread = s.currentThread → s'.stack s.currentThread = base →
    s'.owner l = some s.currentThread ∧ s'.level = s.level

section MonitorWait

variable {sys : System G U H} {s s' : State G U H} {c l : Nat} {base : List (Frame U H)}

theorem Activation.level_of_waitSleep (h : Activation sys.toProgram s.currentThread base s s')
    (hs : sys.Reachable s) (hstack : s.stack s.currentThread = .wait c l :: base)
    (howner : s.owner l = some s.currentThread) (hcurrent : s'.currentThread = s.currentThread)
    (hsleep : s'.stack s.currentThread = .waitSleep c l :: base)
    : s'.level = s.level := by
  obtain ⟨_, above, hstack', hphase⟩ := h.waitPhase hs hstack howner
  have habove : above = [.waitSleep c l] := by
    rw [hsleep] at hstack'
    exact (List.append_cancel_right (show [.waitSleep c l] ++ base = above ++ base from hstack')).symm
  generalize hlevel : s.level = level at hphase
  cases hphase with
  | call => simp at habove
  | release => simp at habove
  | released above hinternal howner' htriple =>
    have hnil : above = [] := by simpa using habove
    subst hnil
    rw [State.modeOf, if_pos hcurrent.symm] at htriple
    exact congrArg Mode.level htriple
  | waiting above last hinternal howner' hlast =>
    have hsame : last = .waitSleep c l := by
      have := congrArg List.getLast? habove
      simpa using this
    rcases hlast with rfl | rfl | rfl <;> contradiction
  | returned => contradiction

theorem Activation.exec {prog : Program G U H} {t : Nat} {s₀ : State G U H} {frame : Frame U H}
    {frames rest : List (Frame U H)} (h : Activation prog t base s₀ s) (hcurrent : s.currentThread = t)
    (hstack : s.stack t = frame :: rest ++ base)
    (hexec : Nachos.exec prog [] s frame = .ok (frames, s'))
    : Activation prog t base s₀ (s'.setStack t (frames ++ (rest ++ base))) := by
  subst hcurrent
  refine .tail h ⟨⟨[], ?_⟩, frame :: rest, by simp, hstack⟩
  unfold step
  rw [hstack, List.cons_append]
  simp [hexec]

theorem State.semV_currentThread (sem : SemId) : (s.semV sem).currentThread = s.currentThread := by
  unfold State.semV State.semWake
  dsimp
  split <;> rfl

theorem waitSleep_reached {prog : Program G U H}
    (hstack : s.stack s.currentThread = .wait c l :: base)
    (howner : s.owner l = some s.currentThread) (hlevel : s.level = .intOff)
    : ∃ s', Activation prog s.currentThread base s s' ∧ s'.currentThread = s.currentThread ∧
        s'.stack s.currentThread = .waitSleep c l :: base ∧ s'.level = .intOff := by
  have hwait : Nachos.exec prog [] s (.wait c l) = .ok ([.release l, .waitSleep c l], s) := by
    simp [Nachos.exec, State.isHeldByCurrentThread, howner]
  have h1 := Activation.exec .refl rfl (show _ = [.wait c l] ++ base from hstack) hwait
  generalize hs₁ : s.setStack s.currentThread _ = s₁ at h1
  have hrelease : Nachos.exec prog [] s₁ (.release l) = .ok ([.v (.lock l)],
      { s₁ with
        owner := update s₁.owner l none
        syncLog := s₁.syncLog ++ [.released l s₁.currentThread] }) := by
    simp [Nachos.exec, State.isHeldByCurrentThread, ← hs₁, howner]
  have hstack₁ : s₁.stack s.currentThread = .release l :: [.waitSleep c l] ++ base := by
    simp [← hs₁]
  have h2 := h1.exec (by simp [← hs₁]) hstack₁ hrelease
  generalize hs₂ : State.setStack _ s.currentThread _ = s₂ at h2
  have hv : Nachos.exec prog [] s₂ (.v (.lock l)) =
      .ok ([.setLevel s₂.level], State.semV { s₂ with level := .intOff } (.lock l)) := by
    simp [Nachos.exec, bind, Except.bind, pure, Except.pure]
  have hstack₂ : s₂.stack s.currentThread = .v (.lock l) :: [.waitSleep c l] ++ base := by
    simp [← hs₂]
  have h3 := h2.exec (by simp [← hs₂, ← hs₁]) hstack₂ hv
  generalize hs₃ : State.setStack _ s.currentThread _ = s₃ at h3
  have hlevel₂ : s₂.level = .intOff := by simp [← hs₂, ← hs₁, hlevel]
  have hset : Nachos.exec prog [] s₃ (.setLevel .intOff) = .ok ([], { s₃ with level := .intOff }) := by
    simp [Nachos.exec, bind, Except.bind, pure, Except.pure]
  have hcurrent₃ : s₃.currentThread = s.currentThread := by
    simp [← hs₃, ← hs₂, ← hs₁, State.semV_currentThread]
  have hstack₃ : s₃.stack s.currentThread = .setLevel .intOff :: [.waitSleep c l] ++ base := by
    simp [← hs₃, hlevel₂]
  have h4 := h3.exec hcurrent₃ hstack₃ hset
  exact ⟨_, h4, by simpa using hcurrent₃, by simp, by simp⟩

theorem monitorWait_iff (h : sys.Reachable s)
    (hstack : s.stack s.currentThread = .wait c l :: base)
    (howner : s.owner l = some s.currentThread)
    : MonitorWait sys.toProgram s c l base ↔ s.level = .intOff := by
  constructor
  . intro hwait
    obtain ⟨s', hact, hcurrent, hsleep, hlevel⟩ := hwait.reaches_sleep
    rw [← hact.level_of_waitSleep h hstack howner hcurrent hsleep]
    exact hlevel
  . intro hlevel
    constructor
    . exact waitSleep_reached hstack howner hlevel
    . intro s' hact hcurrent hsleep
      rw [hact.level_of_waitSleep h hstack howner hcurrent hsleep]
      exact hlevel
    . intro s' frame rest arrivals a hact hcurrent hstack' hfail
      obtain ⟨_, above, habove, hphase⟩ := hact.waitPhase h hstack howner
      rw [← hcurrent] at hphase hstack' habove
      obtain ⟨frame', rest', htop, hfault⟩ := step_fault hfail
      have heq : above = frame :: rest := by
        rw [hstack'] at habove
        exact (List.append_cancel_right habove).symm
      have hframe : frame' = frame := by
        rw [hstack', List.cons_append] at htop
        injection htop with htop
        exact htop.symm
      subst hframe
      have hreach := hact.reachable h
      exact hphase.fault hreach.inv hreach.hist hlevel heq habove hfault
    . intro s' hact hcurrent hreturn
      obtain ⟨_, above, habove, hphase⟩ := hact.waitPhase h hstack howner
      have hnil : above = [] := by
        rw [hreturn] at habove
        simpa using habove
      obtain ⟨m₁, ⟨hkernel, _⟩, _⟩ := h.inv.moded.current h.inv.placed.current_lt hstack
      have htriple : Frame.Triple (.wait c l : Frame U H) s.mode s.mode := ⟨hkernel, fun _ => rfl⟩
      refine ⟨?_, congrArg Mode.level (hact.mode_of_return h hstack htriple hcurrent hreturn)⟩
      generalize s.level = level at hphase
      cases hphase with
      | call => contradiction
      | release => contradiction
      | released => simp at hnil
      | waiting => simp at hnil
      | returned hcurrent howner' => exact howner'

end MonitorWait

theorem monitorWait_intOff
    : (scriptRun [] [.setLevel .intOff, .acquire 0, .wait 0 0] [] 11).stack 0 =
        [.wait 0 0, .user [], .finish] ∧
      MonitorWait (script timeSlicing [] [.setLevel .intOff, .acquire 0, .wait 0 0]).toProgram
        (scriptRun [] [.setLevel .intOff, .acquire 0, .wait 0 0] [] 11) 0 0 [.user [], .finish] := by
  have hcurrent : (scriptRun [] [.setLevel .intOff, .acquire 0, .wait 0 0] [] 11).currentThread = 0 := by
    decide +kernel
  have hstack : (scriptRun [] [.setLevel .intOff, .acquire 0, .wait 0 0] [] 11).stack 0 =
      [.wait 0 0, .user [], .finish] := by
    decide +kernel
  refine ⟨hstack, (monitorWait_iff (reachable_scriptRun _ _ _ _) ?_ ?_).mpr ?_⟩
  . rw [hcurrent, hstack]
  . rw [hcurrent]
    decide +kernel
  . decide +kernel

theorem wait_fails_sleep_assertion
    : ∃ s : State Unit (List Op) Unit, (script timeSlicing [] [.acquire 0, .wait 0 0]).Reachable s ∧
        s.stack s.currentThread = [.waitSleep 0 0, .user [], .finish] ∧
        step (script timeSlicing [] [.acquire 0, .wait 0 0]).toProgram [] s =
          .error (.assertion .sleep) := by
  refine ⟨_, reachable_scriptRun [] [.acquire 0, .wait 0 0] [] 17, by decide +kernel, ?_⟩
  have hstack : (scriptRun [] [.acquire 0, .wait 0 0] [] 17).stack
      (scriptRun [] [.acquire 0, .wait 0 0] [] 17).currentThread =
        [.waitSleep 0 0, .user [], .finish] := by
    decide +kernel
  have hlevel : (scriptRun [] [.acquire 0, .wait 0 0] [] 17).level = .intOn := by
    decide +kernel
  simp [step, hstack, exec, State.sleep, hlevel, bind, Except.bind]

/-! ### The window between `Release` and `Append` -/

def Frame.InRelease : Frame U H → Prop
  | .release _ | .v _ | .setLevel _ | .oneTick | .tickDrain _ | .restoreStatus _ | .yield | .runTail
  | .handler _ | .endHandler _ => True
  | _ => False

def Frame.InSleep : Frame U H → Prop
  | .sleepLoop | .idle | .idleDrain | .runTail | .handler _ | .endHandler _ | .setLevel .intOff => True
  | _ => False

def Frame.AboveWait (frame below : Frame U H) : Prop :=
  match below with
  | .waitSleep _ _ => frame.InRelease
  | .waitAcquire _ _ => frame.InSleep
  | _ => True

section Nested

variable {prog : Program G U H} {s s' : State G U H} {frame : Frame U H}
  {frames rest : List (Frame U H)}

theorem Outcome.inRelease (h : Outcome prog s frame frames s') (hframe : frame.InRelease)
    : ∀ f ∈ frames, f.InRelease := by
  cases h <;> first | exact hframe.elim | simp [Frame.InRelease]

theorem Outcome.inSleep (h : Outcome prog s frame frames s') (hframe : frame.InSleep)
    (hlevel : ∀ calls, frame = .handler calls → s.level = .intOff)
    : ∀ f ∈ frames, f.InSleep := by
  cases h with
  | handlerVQuiet | handlerVWake => simp [Frame.InSleep, hlevel _ rfl]
  | _ => first | exact hframe.elim | simp [Frame.InSleep]

theorem Outcome.pairwise (h : Outcome prog s frame frames s')
    : frames.Pairwise Frame.AboveWait := by
  cases h with
  | user u => cases (prog.code u s.shared).2.1 <;> simp [Call.frames, Frame.AboveWait]
  | _ => simp [Frame.AboveWait, Frame.InRelease, Frame.InSleep]

theorem Outcome.nested (h : Outcome prog s frame frames s')
    (hlevel : ∀ calls, frame = .handler calls → s.level = .intOff)
    (hnested : (frame :: rest).Pairwise Frame.AboveWait)
    : (frames ++ rest).Pairwise Frame.AboveWait := by
  obtain ⟨hframe, hrest⟩ := List.pairwise_cons.mp hnested
  refine List.pairwise_append.mpr ⟨h.pairwise, hrest, ?_⟩
  intro f hf below hbelow
  have := hframe below hbelow
  cases below with
  | waitSleep => exact h.inRelease this f hf
  | waitAcquire => exact h.inSleep this hlevel f hf
  | _ => trivial

theorem nested_of_reachable {sys : System G U H} (h : sys.Reachable s)
    : ∀ t, t < s.numThreads → (s.stack t).Pairwise Frame.AboveWait := by
  refine h.stack_invariant (by simp [Frame.AboveWait]) (by simp) ?_
  intro s s' frame frames rest hinv hstack hout hnested
  refine hout.nested ?_ hnested
  rintro calls rfl
  obtain ⟨m₁, ⟨hm, _⟩, _⟩ := hinv.moded.current hinv.placed.current_lt hstack
  exact congrArg Mode.level hm

theorem waitPoint_of_inSleep {above base : List (Frame U H)} {c l : Nat}
    (h : ∀ f ∈ above, f.InSleep)
    : Stack.waitPoint (above ++ .waitAcquire c l :: base) = some (.cond c) := by
  induction above with
  | nil => rfl
  | cons f above ih =>
    obtain ⟨hf, habove⟩ := List.forall_mem_cons.mp h
    cases f with
    | setLevel | sleepLoop | idle | idleDrain | runTail | handler | endHandler => exact ih habove
    | _ => exact hf.elim

end Nested

def Frame.isWaitSleep : Frame U H → Bool
  | .waitSleep _ _ => true
  | _ => false

namespace State

variable (s : State G U H)

def switchesInWait : Bool :=
  match s.stack s.currentThread with
  | .yield :: rest => !s.readyList.isEmpty && rest.any Frame.isWaitSleep
  | _ => false

def HasReleased (w c l : Nat) : Prop :=
  (∃ above base, s.stack w = above ++ .waitSleep c l :: base ∧ .release l ∉ above ∧
    .v (.lock l) ∉ above) ∨
  (.waitAcquire c l ∈ s.stack w ∧ s.threadStatus w = .blocked)

end State

/--
Runs in which no thread is switched out between the `Release` and the `Append` of `Wait`.
-/
def System.AtomicWait (sys : System G U H) (s : State G U H) : Prop :=
  Transition.Reachable sys.Boot (fun s s' => Step sys.toProgram s s' ∧ s.switchesInWait = false) s

section AtomicWait

variable {sys : System G U H} {s : State G U H}

theorem System.AtomicWait.reachable (h : sys.AtomicWait s) : sys.Reachable s :=
  Transition.Reachable.mono (fun _ _ hstep => hstep.1) h

theorem System.AtomicWait.waitSleep_not_mem (h : sys.AtomicWait s)
    : ∀ t, t < s.numThreads → t ≠ s.currentThread → ∀ f ∈ s.stack t, f.isWaitSleep = false := by
  refine Transition.Reachable.invariant (P := fun s : State G U H => ∀ t, t < s.numThreads →
    t ≠ s.currentThread → ∀ f ∈ s.stack t, f.isWaitSleep = false) ?_ ?_ h
  . rintro s ⟨pending, rfl⟩ t ht htc
    simp [boot] at ht htc
    omega
  . rintro s s' hs ih ⟨hstep, hwait⟩ t ht htc
    have hreach : sys.Reachable s := System.AtomicWait.reachable hs
    obtain ⟨frame, rest, frames, s₁, hstack, hout, rfl⟩ := step_cases hstep
    rw [State.setStack_stack]
    by_cases htold : t = s.currentThread
    . subst htold
      rw [Function.update_self]
      have hnested := nested_of_reachable hreach _ hreach.inv.placed.current_lt
      rw [hstack, List.pairwise_cons] at hnested
      cases hout with
      | yieldSwitch next ready hready =>
        have hrest : ∀ f ∈ rest, f.isWaitSleep = false := by
          simpa [State.switchesInWait, hstack, hready] using hwait
        simpa [Frame.isWaitSleep] using hrest
      | sleepRun next ready hready =>
        -- no frame of `Release` sleeps
        have hrest : ∀ f ∈ rest, f.isWaitSleep = false := by
          intro f hf
          have := hnested.1 f hf
          cases f with
          | waitSleep => exact this.elim
          | _ => rfl
        simpa [Frame.isWaitSleep] using hrest
      | _ => exact absurd rfl htc
    . rw [Function.update_of_ne htold]
      by_cases htn : t < s.numThreads
      . rw [hout.stack_of_lt htn]
        exact ih t htn htold
      . obtain ⟨func, hnew⟩ := hout.stack_of_not_lt ht htn
        simp [hnew, Frame.isWaitSleep]

theorem System.AtomicWait.mem_condQueue (h : sys.AtomicWait s) {w c l : Nat}
    (hlt : w < s.numThreads) (hne : w ≠ s.currentThread) (hreleased : s.HasReleased w c l)
    : w ∈ s.condQueue c := by
  rcases hreleased with ⟨above, base, hstack, _⟩ | ⟨hmem, hblocked⟩
  . have := h.waitSleep_not_mem w hlt hne (.waitSleep c l) (by simp [hstack])
    contradiction
  . rw [h.reachable.inv.placed.mem_cond]
    refine ⟨hlt, hblocked, ?_⟩
    obtain ⟨above, base, hstack⟩ := List.append_of_mem hmem
    have hnested := nested_of_reachable h.reachable w hlt
    rw [hstack, List.pairwise_append] at hnested
    rw [hstack]
    apply waitPoint_of_inSleep
    intro f hf
    exact hnested.2.2 f hf (.waitAcquire c l) (by simp)

theorem signal_finds_waiter (h : sys.AtomicWait s) {w c l : Nat} {rest : List (Frame U H)}
    (hsignal : s.stack s.currentThread = .signal c l :: rest ∨
      s.stack s.currentThread = .broadcast c l :: rest)
    (hlt : w < s.numThreads) (hne : w ≠ s.currentThread) (hreleased : s.HasReleased w c l)
    : w ∈ s.condQueue c ∧
      ∀ s', Step sys.toProgram s s' →
        (∃ first queue, s.condQueue c = first :: queue ∧ first ∈ s'.readyList) ∧
        (s.stack s.currentThread = .broadcast c l :: rest → w ∈ s'.readyList) := by
  have hmem := h.mem_condQueue hlt hne hreleased
  refine ⟨hmem, fun s' hstep => ?_⟩
  obtain ⟨frame, rest', frames, s₁, hstack, hout, rfl⟩ := step_cases hstep
  rw [State.setStack_readyList]
  obtain ⟨first, queue, hqueue⟩ := List.exists_cons_of_ne_nil (List.ne_nil_of_mem hmem)
  rcases hsignal with hsignal | hsignal
  . rw [hstack] at hsignal
    injection hsignal with hframe
    subst hframe
    cases hout with
    | signalQuiet _ _ _ hempty => simp [hempty] at hmem
    | signalWake _ _ _ first' queue' hqueue' =>
      exact ⟨⟨first', queue', hqueue', by simp⟩, by simp [hstack]⟩
  . rw [hstack] at hsignal
    injection hsignal with hframe
    subst hframe
    cases hout with
    | broadcast =>
      refine ⟨⟨first, queue, hqueue, ?_⟩, fun _ => ?_⟩
      . simp [hqueue]
      . exact List.mem_append_right _ hmem

end AtomicWait

theorem signal_finds_waiter_intOff
    : 1 ∈ (scriptRun [[.setLevel .intOff, .acquire 0, .wait 0 0]]
        [.fork 0, .yield, .acquire 0, .signal 0 0] [] 40).condQueue 0 := by
  have hatomic : (script timeSlicing [[.setLevel .intOff, .acquire 0, .wait 0 0]]
      [.fork 0, .yield, .acquire 0, .signal 0 0]).AtomicWait
      (scriptRun [[.setLevel .intOff, .acquire 0, .wait 0 0]]
        [.fork 0, .yield, .acquire 0, .signal 0 0] [] 40) :=
    reachable_runFor (.init ⟨_, rfl⟩) 40 (by decide +kernel)
  have hsignal : (scriptRun [[.setLevel .intOff, .acquire 0, .wait 0 0]]
      [.fork 0, .yield, .acquire 0, .signal 0 0] [] 40).stack
      (scriptRun [[.setLevel .intOff, .acquire 0, .wait 0 0]]
        [.fork 0, .yield, .acquire 0, .signal 0 0] [] 40).currentThread =
        [.signal 0 0, .user [], .finish] := by
    decide +kernel
  refine (signal_finds_waiter hatomic (.inl hsignal) (w := 1) ?_ ?_ (.inr ?_)).1
  . decide +kernel
  . decide +kernel
  . decide +kernel

theorem signal_misses_waiter
    : ∃ s : State Unit (List Op) Unit,
        (script timeSlicing [[.acquire 0, .wait 0 0]]
          [.fork 0, .yield, .acquire 0, .signal 0 0]).Reachable s ∧
        s.stack s.currentThread = [.signal 0 0, .user [], .finish] ∧
        s.owner 0 = some s.currentThread ∧ 1 ≠ s.currentThread ∧ s.HasReleased 1 0 0 ∧
        1 ∉ s.condQueue 0 := by
  -- The timer expires in the `SetLevel` at the end of the `Release` in `Wait`. The other thread takes the
  -- lock and signals, and the queue is still empty.
  refine ⟨_, reachable_scriptRun [[.acquire 0, .wait 0 0]] [.fork 0, .yield, .acquire 0, .signal 0 0]
    [45] 45, by decide +kernel, by decide +kernel, by decide +kernel, .inl ?_, by decide +kernel⟩
  exact ⟨[.runTail, .setLevel .intOn, .restoreStatus .systemMode], [.user [], .finish],
    by decide +kernel⟩

end Nachos
