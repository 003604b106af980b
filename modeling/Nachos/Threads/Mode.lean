import Nachos.Threads.Outcome

/-!
This module contains the discipline on the global interrupt state. `level`, `status` and `inHandler`
are shared by all threads, but every frame assumes something about them when it gets executed and
promises something to the frames below it. `Frame.Triple` are these pre- and postconditions, and a
stack is well formed if they fit together.
-/

namespace Nachos

open Function (update)

structure Mode where
  level : IntStatus
  status : MachineStatus
  inHandler : Bool
  deriving DecidableEq, Repr

namespace Mode

def IsKernel (m : Mode) : Prop :=
  m.status = .systemMode ∧ m.inHandler = false

def switched : Mode := ⟨.intOff, .systemMode, false⟩

def interrupted : Mode := ⟨.intOff, .systemMode, true⟩

def kernel (level : IntStatus) : Mode := ⟨level, .systemMode, false⟩

@[simp]
theorem isKernel_kernel (level : IntStatus) : (kernel level).IsKernel :=
  ⟨rfl, rfl⟩

theorem IsKernel.eq {m : Mode} (h : m.IsKernel) : m = kernel m.level := by
  cases m
  simp_all [IsKernel, kernel]

end Mode

namespace State

def mode (s : State G U H) : Mode := ⟨s.level, s.status, s.inHandler⟩

/--
The mode in which thread `t` goes on, `Run` has to establish it for a suspended thread.
-/
def modeOf (s : State G U H) (t : Nat) : Mode :=
  if t = s.currentThread then s.mode else .switched

end State

/--
If `frame` gets executed in mode `m`, then the frames below it go on in mode `m'`. `Wait` at level `intOn` fails the
assertion in `Sleep`, so it may promise anything. The frames at the bottom of a stack never return, `Stack.Ok` deals
with them.
-/
def Frame.Triple (frame : Frame U H) (m m' : Mode) : Prop :=
  match frame with
  | .threadRoot _ | .user _ | .finish | .notReached => False
  | .setLevel now => (now = .intOff ∨ m.IsKernel) ∧ m' = { m with level := now }
  | .oneTick => m = .kernel .intOn ∧ m' = m
  | .tickDrain old => m = .switched ∧ old = .systemMode ∧ m' = .kernel .intOn
  | .restoreStatus old => m.IsKernel ∧ old = .systemMode ∧ m' = m
  | .idle | .sleepLoop | .runTail => m = .switched ∧ m' = m
  | .idleDrain => m = ⟨.intOff, .idleMode, false⟩ ∧ m' = .switched
  | .handler _ => m = .interrupted ∧ m' = m
  | .endHandler old => m = .interrupted ∧ m' = ⟨.intOff, old, false⟩
  | .pWhile _ oldLevel => m = .switched ∧ m' = .kernel oldLevel
  | .wait _ _ | .waitSleep _ _ => m.IsKernel ∧ (m.level = .intOff → m' = m)
  | .yield | .p _ | .v _ | .acquire _ | .setOwner _ | .release _ | .waitAcquire _ _ | .signal _ _
  | .broadcast _ _ | .fork _ | .schedule _ _ _ => m.IsKernel ∧ m' = m

namespace Stack

def Triple : List (Frame U H) → Mode → Mode → Prop
  | [], m, m' => m = m'
  | frame :: rest, m, m' => ∃ m₁, frame.Triple m m₁ ∧ Triple rest m₁ m'

def Ok : List (Frame U H) → Mode → Prop
  | [], _ => False
  | .threadRoot _ :: rest, m => m = .switched ∧ rest = []
  | .user _ :: rest, m => m.IsKernel ∧ rest = [.finish]
  | .finish :: _, m => m.IsKernel
  | .notReached :: _, _ => True
  | frame :: rest, m => ∃ m₁, frame.Triple m m₁ ∧ Ok rest m₁

theorem triple_append {l₁ l₂ : List (Frame U H)} {m m' : Mode}
    : Triple (l₁ ++ l₂) m m' ↔ ∃ m₁, Triple l₁ m m₁ ∧ Triple l₂ m₁ m' := by
  induction l₁ generalizing m with
  | nil => simp [Triple]
  | cons frame rest ih =>
    simp only [List.cons_append, Triple, ih]
    constructor
    . rintro ⟨m₁, h1, m₂, h2, h3⟩
      exact ⟨m₂, ⟨m₁, h1, h2⟩, h3⟩
    . rintro ⟨m₂, ⟨m₁, h1, h2⟩, h3⟩
      exact ⟨m₁, h1, m₂, h2, h3⟩

theorem ok_append {frames rest : List (Frame U H)} {m m' : Mode} (h : Triple frames m m')
    (hrest : Ok rest m')
    : Ok (frames ++ rest) m := by
  induction frames generalizing m with
  | nil =>
    simp only [Triple] at h
    subst h
    exact hrest
  | cons frame frames ih =>
    obtain ⟨m₁, h1, h2⟩ := h
    have := ih h2
    cases frame <;> first | exact ⟨m₁, h1, this⟩ | exact h1.elim

theorem Ok.cases {frame : Frame U H} {rest : List (Frame U H)} {m : Mode}
    (h : Ok (frame :: rest) m)
    : (∃ func, frame = .threadRoot func ∧ m = .switched ∧ rest = []) ∨
      (∃ u, frame = .user u ∧ m.IsKernel ∧ rest = [.finish]) ∨
      (frame = .finish ∧ m.IsKernel) ∨ frame = .notReached ∨
      ∃ m₁, frame.Triple m m₁ ∧ Ok rest m₁ := by
  cases frame with
  | threadRoot func => exact .inl ⟨func, rfl, h⟩
  | user u => exact .inr (.inl ⟨u, rfl, h⟩)
  | finish => exact .inr (.inr (.inl ⟨rfl, h⟩))
  | notReached => exact .inr (.inr (.inr (.inl rfl)))
  | _ => exact .inr (.inr (.inr (.inr h)))

end Stack

variable {prog : Program G U H} {s s' : State G U H} {frame : Frame U H}
  {frames rest : List (Frame U H)} {m : Mode}

theorem Outcome.triple (h : Outcome prog s frame frames s') (hframe : frame.Triple s.mode m)
    : Stack.Triple frames (s'.modeOf s.currentThread) m := by
  cases h with
  | threadRoot func => exact hframe.elim
  | user u => exact hframe.elim
  | finish => exact hframe.elim
  | setLevelTick hhandler hlevel =>
    obtain ⟨h1, rfl⟩ := hframe
    have h1 := h1.resolve_left (by simp)
    simp_all [Stack.Triple, Frame.Triple, State.modeOf, State.mode, Mode.kernel, Mode.IsKernel]
  | _ =>
    -- every other frame is executed in a mode that its triple determines
    simp_all [Stack.Triple, Frame.Triple, State.modeOf, State.mode, Mode.switched,
      Mode.interrupted, Mode.kernel, Mode.IsKernel]

theorem ok_frames (call : Call U H) (u : U) (hm : m.IsKernel)
    : Stack.Ok (call.frames u ++ [.finish]) m := by
  have hok : ∀ level, (Mode.mk level m.status m.inHandler).IsKernel := fun _ => hm
  cases call <;> simp [Call.frames, Stack.Ok, Frame.Triple, hm, hok]
  all_goals exact ⟨m, fun _ => rfl, hm⟩

theorem Outcome.ok (h : Outcome prog s frame frames s') (hok : Stack.Ok (frame :: rest) s.mode)
    : Stack.Ok (frames ++ rest) (s'.modeOf s.currentThread) := by
  rcases hok.cases with ⟨func, rfl, hm, rfl⟩ | ⟨u, rfl, hm, rfl⟩ | ⟨rfl, hm⟩ | rfl | ⟨m₁, hf, hrest⟩
  . cases h
    simp [Stack.Ok, Frame.Triple, State.modeOf, hm, Mode.switched, Mode.IsKernel]
  . cases h
    have : (State.modeOf { s with shared := (prog.code u s.shared).1 } s.currentThread).IsKernel := by
      simpa [State.modeOf, State.mode] using hm
    exact ok_frames _ _ this
  . cases h
    simp_all [Stack.Ok, Frame.Triple, State.modeOf, State.mode, Mode.switched, Mode.IsKernel]
  . cases h
  . exact Stack.ok_append (h.triple hf) hrest

theorem Outcome.mode_of_ne (h : Outcome prog s frame frames s')
    (hok : Stack.Ok (frame :: rest) s.mode) (hne : s'.currentThread ≠ s.currentThread)
    : s'.mode = .switched := by
  cases h with
  | yieldSwitch next ready hready =>
    obtain ⟨m₁, ⟨⟨h1, h2⟩, _⟩, _⟩ := hok
    simp_all [State.mode, Mode.switched]
  | sleepRun next ready hready =>
    obtain ⟨m₁, ⟨h1, _⟩, _⟩ := hok
    exact h1
  | _ => contradiction

theorem Outcome.stack_of_lt (h : Outcome prog s frame frames s') {t : Nat} (ht : t < s.numThreads)
    : s'.stack t = s.stack t := by
  cases h with
  | fork func =>
    have : t ≠ s.numThreads := by omega
    simp [this]
  | _ => rfl

theorem Outcome.stack_of_not_lt (h : Outcome prog s frame frames s') {t : Nat}
    (ht : t < s'.numThreads) (hnew : ¬t < s.numThreads)
    : ∃ func, s'.stack t = [.threadRoot func] := by
  cases h with
  | fork func =>
    have heq : t = s.numThreads := by
      have : t < s.numThreads + 1 := ht
      omega
    exact ⟨func, by simp [heq]⟩
  | _ => exact absurd ht hnew

theorem Outcome.modeOf_of_ne (h : Outcome prog s frame frames s')
    (hok : Stack.Ok (frame :: rest) s.mode) {t : Nat} (ht : t ≠ s.currentThread)
    : s'.modeOf t = s.modeOf t := by
  simp only [State.modeOf, ht, if_false]
  split
  . next heq => exact h.mode_of_ne hok (by rw [← heq]; exact ht)
  . rfl

def Moded (s : State G U H) : Prop :=
  ∀ t, t < s.numThreads → Stack.Ok (s.stack t) (s.modeOf t)

theorem moded_boot (sys : System G U H) (pending : List (PendingInterrupt H))
    : Moded (boot sys pending) := by
  intro t ht
  have : t = 0 := by simpa [boot] using ht
  subst this
  simp [boot, State.modeOf, State.mode, Stack.Ok, Frame.Triple, Mode.IsKernel]

theorem Moded.current (hm : Moded s) (hcur : s.currentThread < s.numThreads)
    (hstack : s.stack s.currentThread = frame :: rest)
    : Stack.Ok (frame :: rest) s.mode := by
  have := hm s.currentThread hcur
  rwa [hstack, State.modeOf, if_pos rfl] at this

theorem Moded.outcome (hm : Moded s) (hcur : s.currentThread < s.numThreads)
    (hstack : s.stack s.currentThread = frame :: rest) (h : Outcome prog s frame frames s')
    : Moded (s'.setStack s.currentThread (frames ++ rest)) := by
  have hok := hm.current hcur hstack
  intro t ht
  show Stack.Ok (update s'.stack s.currentThread (frames ++ rest) t) (s'.modeOf t)
  by_cases htc : t = s.currentThread
  . subst htc
    rw [Function.update_self]
    exact h.ok hok
  . rw [Function.update_of_ne htc, h.modeOf_of_ne hok htc]
    by_cases htn : t < s.numThreads
    . rw [h.stack_of_lt htn]
      exact hm t htn
    . -- the thread was forked by this step
      obtain ⟨func, hnew⟩ := h.stack_of_not_lt ht htn
      rw [hnew, State.modeOf, if_neg htc]
      exact ⟨rfl, rfl⟩

end Nachos
