import Nachos.Threads.Mode
import Mathlib.Data.List.Nodup

/-!
This module contains the invariant on where the threads are: every thread is either the one that
runs, or on the ready list, or on the queue of the synchronization object that it waits for, or
finished, and its status says which of these it is.
-/

namespace Nachos

open Function (update)

inductive WaitPoint where
  | sem (s : SemId)
  | cond (c : Nat)
  | finished
  deriving DecidableEq, Repr

namespace Stack

/--
The thread is in the loop of `Sleep`, possibly below it in `Idle` and the interrupt handlers that `Idle` calls.
-/
def Asleep : List (Frame U H) → Prop
  | .sleepLoop :: rest => .sleepLoop ∉ rest
  | .idle :: rest => Asleep rest
  | .idleDrain :: rest => Asleep rest
  | .handler _ :: rest => Asleep rest
  | .endHandler _ :: rest => Asleep rest
  | .setLevel .intOff :: rest => Asleep rest
  | _ => False

def waitPoint : List (Frame U H) → Option WaitPoint
  | .pWhile s _ :: _ => some (.sem s)
  | .waitAcquire c _ :: _ => some (.cond c)
  | .notReached :: _ => some .finished
  | .sleepLoop :: rest => waitPoint rest
  | .runTail :: rest => waitPoint rest
  | .idle :: rest => waitPoint rest
  | .idleDrain :: rest => waitPoint rest
  | .handler _ :: rest => waitPoint rest
  | .endHandler _ :: rest => waitPoint rest
  | .setLevel _ :: rest => waitPoint rest
  | _ => none

structure Quiet (frame : Frame U H) (frames : List (Frame U H)) : Prop where
  awake : ∀ rest, .sleepLoop ∉ frame :: rest → .sleepLoop ∉ frames ++ rest
  asleep : ∀ rest, Asleep (frame :: rest) →
    Asleep (frames ++ rest) ∧ waitPoint (frames ++ rest) = waitPoint (frame :: rest)
  notReached : .notReached ∉ frames

theorem quiet_frames (u : U) (call : Call U H) (u' : U) : Quiet (.user u) (call.frames u') := by
  constructor
  . intro rest
    cases call <;> simp [Call.frames]
  . intro rest h
    simp [Asleep] at h
  . cases call <;> simp [Call.frames]

theorem notReached_mem {stack : List (Frame U H)} (h : waitPoint stack = some .finished)
    : .notReached ∈ stack := by
  fun_induction waitPoint stack <;> simp_all

end Stack

structure Placed (s : State G U H) : Prop where
  current_lt : s.currentThread < s.numThreads
  current : (s.threadStatus s.currentThread = .running ∧
      .sleepLoop ∉ s.stack s.currentThread) ∨
    (s.threadStatus s.currentThread ≠ .running ∧ Stack.Asleep (s.stack s.currentThread))
  status : ∀ t, t < s.numThreads → s.threadStatus t ≠ .justCreated
  running : ∀ t, t < s.numThreads → s.threadStatus t = .running → t = s.currentThread
  suspended : ∀ t, t < s.numThreads → t ≠ s.currentThread → .sleepLoop ∉ s.stack t
  blocked : ∀ t, t < s.numThreads → s.threadStatus t = .blocked →
    Stack.waitPoint (s.stack t) ≠ none
  finished : ∀ t, t < s.numThreads → .notReached ∈ s.stack t →
    s.threadStatus t = .blocked ∧ Stack.waitPoint (s.stack t) = some .finished
  ready_nodup : s.readyList.Nodup
  mem_ready : ∀ t, t ∈ s.readyList ↔ t < s.numThreads ∧ s.threadStatus t = .ready
  sem_nodup : ∀ q, (s.sem q).queue.Nodup
  mem_sem : ∀ q t, t ∈ (s.sem q).queue ↔
    t < s.numThreads ∧ s.threadStatus t = .blocked ∧ Stack.waitPoint (s.stack t) = some (.sem q)
  cond_nodup : ∀ c, (s.condQueue c).Nodup
  mem_cond : ∀ c t, t ∈ s.condQueue c ↔
    t < s.numThreads ∧ s.threadStatus t = .blocked ∧ Stack.waitPoint (s.stack t) = some (.cond c)

theorem Placed.blocked_of_idle {s : State G U H} (h : Placed s) (hready : s.readyList = [])
    (hrunning : ∀ t, t < s.numThreads → s.threadStatus t ≠ .running) {t : Nat} (ht : t < s.numThreads)
    : s.threadStatus t = .blocked := by
  cases hstatus : s.threadStatus t with
  | blocked => rfl
  | justCreated => exact absurd hstatus (h.status t ht)
  | running => exact absurd hstatus (hrunning t ht)
  | ready =>
    have := (h.mem_ready t).mpr ⟨ht, hstatus⟩
    simp [hready] at this

theorem placed_boot (sys : System G U H) (pending : List (PendingInterrupt H))
    : Placed (boot sys pending) := by
  constructor
  case sem_nodup => intro q; cases q <;> simp [boot]
  case mem_sem => intro q t; cases q <;> simp [boot] <;> grind
  all_goals simp [boot]

structure SameSched (s s' : State G U H) : Prop where
  currentThread : s'.currentThread = s.currentThread
  numThreads : s'.numThreads = s.numThreads
  threadStatus : s'.threadStatus = s.threadStatus
  readyList : s'.readyList = s.readyList
  stack : s'.stack = s.stack
  sem : ∀ q, (s'.sem q).queue = (s.sem q).queue
  condQueue : s'.condQueue = s.condQueue

theorem SameSched.refl (s : State G U H) : SameSched s s :=
  ⟨rfl, rfl, rfl, rfl, rfl, fun _ => rfl, rfl⟩

structure Woken (woken : List Nat) (s s' : State G U H) : Prop where
  currentThread : s'.currentThread = s.currentThread
  numThreads : s'.numThreads = s.numThreads
  stack : s'.stack = s.stack
  threadStatus : ∀ t, s'.threadStatus t = if t ∈ woken then .ready else s.threadStatus t
  readyList : s'.readyList = s.readyList ++ woken
  nodup : woken.Nodup
  waiting : ∀ t, t ∈ woken → (∃ q, t ∈ (s.sem q).queue) ∨ ∃ c, t ∈ s.condQueue c
  sem_sublist : ∀ q, (s'.sem q).queue.Sublist (s.sem q).queue
  mem_sem : ∀ q t, t ∈ (s'.sem q).queue ↔ t ∈ (s.sem q).queue ∧ t ∉ woken
  cond_sublist : ∀ c, (s'.condQueue c).Sublist (s.condQueue c)
  mem_cond : ∀ c t, t ∈ s'.condQueue c ↔ t ∈ s.condQueue c ∧ t ∉ woken

structure Blocks (point : WaitPoint) (s s' : State G U H) : Prop where
  currentThread : s'.currentThread = s.currentThread
  numThreads : s'.numThreads = s.numThreads
  stack : s'.stack = s.stack
  threadStatus : s'.threadStatus = update s.threadStatus s.currentThread .blocked
  readyList : s'.readyList = s.readyList
  sem : ∀ q, (s'.sem q).queue =
    if point = .sem q then (s.sem q).queue ++ [s.currentThread] else (s.sem q).queue
  condQueue : ∀ c, s'.condQueue c =
    if point = .cond c then s.condQueue c ++ [s.currentThread] else s.condQueue c

namespace Placed

variable {s s' : State G U H} {frame : Frame U H} {frames rest : List (Frame U H)}

theorem quiet (hp : Placed s) (hstack : s.stack s.currentThread = frame :: rest)
    (hq : Stack.Quiet frame frames) (hs : SameSched s s')
    : Placed (s'.setStack s.currentThread (frames ++ rest)) := by
  have hcur := hp.current
  rw [hstack] at hcur
  -- a blocked thread is either suspended, or it is asleep and the step keeps its wait point
  have hwait : ∀ t, s.threadStatus t = .blocked →
      Stack.waitPoint (update s.stack s.currentThread (frames ++ rest) t)
        = Stack.waitPoint (s.stack t) := by
    intro t ht
    by_cases htc : t = s.currentThread
    . subst htc
      rcases hcur with ⟨h1, h2⟩ | ⟨h1, h2⟩
      . rw [h1] at ht
        contradiction
      . rw [Function.update_self, (hq.asleep rest h2).2, hstack]
    . rw [Function.update_of_ne htc]
  unfold State.setStack
  constructor
  case current_lt => simpa [hs.currentThread, hs.numThreads] using hp.current_lt
  case current =>
    simp only [hs.currentThread, hs.threadStatus, Function.update_self]
    rcases hcur with ⟨h1, h2⟩ | ⟨h1, h2⟩
    . exact .inl ⟨h1, hq.awake rest h2⟩
    . exact .inr ⟨h1, (hq.asleep rest h2).1⟩
  case status => simpa [hs.threadStatus, hs.numThreads] using hp.status
  case running => simpa [hs.threadStatus, hs.numThreads, hs.currentThread] using hp.running
  case suspended =>
    simp only [hs.currentThread, hs.numThreads, hs.stack]
    intro t ht htc
    rw [Function.update_of_ne htc]
    exact hp.suspended t ht htc
  case blocked =>
    simp only [hs.numThreads, hs.stack, hs.threadStatus]
    intro t ht hb
    rw [hwait t hb]
    exact hp.blocked t ht hb
  case finished =>
    simp only [hs.numThreads, hs.stack, hs.threadStatus]
    intro t ht hfin
    have hold : .notReached ∈ s.stack t := by
      by_cases htc : t = s.currentThread
      . subst htc
        rw [Function.update_self, List.mem_append] at hfin
        rw [hstack]
        exact List.mem_cons_of_mem _ (hfin.resolve_left hq.notReached)
      . rwa [Function.update_of_ne htc] at hfin
    obtain ⟨hb, hw⟩ := hp.finished t ht hold
    exact ⟨hb, by rw [hwait t hb, hw]⟩
  case ready_nodup => simpa [hs.readyList] using hp.ready_nodup
  case mem_ready => simpa [hs.readyList, hs.numThreads, hs.threadStatus] using hp.mem_ready
  case sem_nodup => simpa [hs.sem] using hp.sem_nodup
  case mem_sem =>
    simp only [hs.sem, hs.numThreads, hs.threadStatus, hs.stack]
    intro q t
    rw [hp.mem_sem q t]
    constructor
    . rintro ⟨ht, hb, hw⟩
      exact ⟨ht, hb, by rw [hwait t hb, hw]⟩
    . rintro ⟨ht, hb, hw⟩
      exact ⟨ht, hb, by rw [← hwait t hb, hw]⟩
  case cond_nodup => simpa [hs.condQueue] using hp.cond_nodup
  case mem_cond =>
    simp only [hs.condQueue, hs.numThreads, hs.threadStatus, hs.stack]
    intro c t
    rw [hp.mem_cond c t]
    constructor
    . rintro ⟨ht, hb, hw⟩
      exact ⟨ht, hb, by rw [hwait t hb, hw]⟩
    . rintro ⟨ht, hb, hw⟩
      exact ⟨ht, hb, by rw [← hwait t hb, hw]⟩

theorem awake (hp : Placed s) (hstack : s.stack s.currentThread = frame :: rest)
    (hframe : ¬ Stack.Asleep (frame :: rest))
    : s.threadStatus s.currentThread = .running ∧ .sleepLoop ∉ frame :: rest := by
  have hcur := hp.current
  rw [hstack] at hcur
  rcases hcur with h | ⟨_, h⟩
  . exact h
  . contradiction

theorem waiting (hp : Placed s) {t : Nat}
    (h : (∃ q, t ∈ (s.sem q).queue) ∨ ∃ c, t ∈ s.condQueue c)
    : t < s.numThreads ∧ s.threadStatus t = .blocked ∧ .notReached ∉ s.stack t := by
  rcases h with ⟨q, h⟩ | ⟨c, h⟩
  . obtain ⟨ht, hb, hw⟩ := (hp.mem_sem q t).mp h
    refine ⟨ht, hb, fun hfin => ?_⟩
    simp [(hp.finished t ht hfin).2] at hw
  . obtain ⟨ht, hb, hw⟩ := (hp.mem_cond c t).mp h
    refine ⟨ht, hb, fun hfin => ?_⟩
    simp [(hp.finished t ht hfin).2] at hw

theorem sem_unique (hp : Placed s) (q q' : SemId) (t : Nat) (h : t ∈ (s.sem q).queue)
    (h' : t ∈ (s.sem q').queue)
    : q = q' := by
  have h := ((hp.mem_sem q t).mp h).2.2
  rw [((hp.mem_sem q' t).mp h').2.2] at h
  simpa using h.symm

theorem cond_unique (hp : Placed s) (c c' t : Nat) (h : t ∈ s.condQueue c)
    (h' : t ∈ s.condQueue c')
    : c = c' := by
  have h := ((hp.mem_cond c t).mp h).2.2
  rw [((hp.mem_cond c' t).mp h').2.2] at h
  simpa using h.symm

theorem not_mem_cond (hp : Placed s) (q : SemId) (c t : Nat) (h : t ∈ (s.sem q).queue)
    : t ∉ s.condQueue c := by
  intro h'
  have h := ((hp.mem_sem q t).mp h).2.2
  rw [((hp.mem_cond c t).mp h').2.2] at h
  simp at h

theorem woken_sem (hp : Placed s) {sem : SemId} {first : Nat} {rest : List Nat}
    (hqueue : (s.sem sem).queue = first :: rest)
    (value : Int) (level : IntStatus) (schedLog : List SchedEvent) (syncLog : List SyncEvent)
    : Woken [first] s
        { s with
          level := level
          sem := update s.sem sem ⟨value, rest⟩
          threadStatus := update s.threadStatus first .ready
          readyList := s.readyList ++ [first]
          schedLog := schedLog
          syncLog := syncLog } := by
  have hfirst : first ∈ (s.sem sem).queue := by simp [hqueue]
  have hrest : first ∉ rest := by
    have := hp.sem_nodup sem
    rw [hqueue] at this
    exact (List.nodup_cons.mp this).1
  constructor <;> try rfl
  case threadStatus =>
    intro t
    by_cases ht : t = first <;> simp [ht]
  case nodup => simp
  case waiting =>
    intro t ht
    rw [List.mem_singleton.mp ht]
    exact .inl ⟨sem, hfirst⟩
  case sem_sublist =>
    intro q
    by_cases hq : q = sem
    . simp [hq, hqueue]
    . simp [hq]
  case mem_sem =>
    intro q t
    by_cases hq : q = sem
    . subst hq
      by_cases ht : t = first <;> simp [ht, hqueue, hrest]
    . by_cases ht : t = first
      . have : first ∉ (s.sem q).queue := fun h => hq (hp.sem_unique q sem first h hfirst)
        simp [hq, ht, this]
      . simp [hq, ht]
  case cond_sublist => exact fun c => List.Sublist.refl _
  case mem_cond =>
    intro c t
    by_cases ht : t = first
    . simp [ht, hp.not_mem_cond sem c first hfirst]
    . simp [ht]

theorem woken_cond (hp : Placed s) {c : Nat} {woken rest : List Nat}
    (hqueue : s.condQueue c = woken ++ rest) (level : IntStatus) {status : Nat → ThreadStatus}
    (hstatus : ∀ t, status t = if t ∈ woken then .ready else s.threadStatus t)
    (schedLog : List SchedEvent)
    : Woken woken s
        { s with
          level := level
          condQueue := update s.condQueue c rest
          threadStatus := status
          readyList := s.readyList ++ woken
          schedLog := schedLog } := by
  have hnodup := hp.cond_nodup c
  rw [hqueue, List.nodup_append'] at hnodup
  obtain ⟨hwoken, _, hdisjoint⟩ := hnodup
  have hmem : ∀ t, t ∈ woken → t ∈ s.condQueue c := by
    intro t ht
    rw [hqueue]
    exact List.mem_append_left _ ht
  constructor <;> try rfl
  case threadStatus => exact hstatus
  case nodup => exact hwoken
  case waiting => exact fun t ht => .inr ⟨c, hmem t ht⟩
  case sem_sublist => exact fun q => List.Sublist.refl _
  case mem_sem =>
    intro q t
    refine ⟨fun h => ⟨h, fun ht => ?_⟩, fun h => h.1⟩
    exact hp.not_mem_cond q c t h (hmem t ht)
  case cond_sublist =>
    intro c'
    by_cases hc : c' = c
    . simp [hc, hqueue]
    . simp [hc]
  case mem_cond =>
    intro c' t
    by_cases hc : c' = c
    . subst hc
      simp only [Function.update_self, hqueue, List.mem_append]
      refine ⟨fun h => ⟨.inr h, fun ht => hdisjoint ht h⟩, fun h => h.1.resolve_left h.2⟩
    . simp only [Function.update_of_ne hc]
      refine ⟨fun h => ⟨h, fun ht => ?_⟩, fun h => h.1⟩
      exact hc (hp.cond_unique c' c t h (hmem t ht))

theorem wake {woken : List Nat} (hp : Placed s) (hs : Woken woken s s') : Placed s' := by
  have hwoken : ∀ t, t ∈ woken →
      t < s.numThreads ∧ s.threadStatus t = .blocked ∧ .notReached ∉ s.stack t := by
    intro t ht
    exact hp.waiting (hs.waiting t ht)
  constructor
  case current_lt => simpa [hs.currentThread, hs.numThreads] using hp.current_lt
  case current =>
    simp only [hs.currentThread, hs.threadStatus, hs.stack]
    rcases hp.current with ⟨h1, h2⟩ | ⟨h1, h2⟩
    . have hnot : s.currentThread ∉ woken := by
        intro hmem
        rw [(hwoken _ hmem).2.1] at h1
        contradiction
      simp [hnot, h1, h2]
    . right
      refine ⟨?_, h2⟩
      split
      . simp
      . exact h1
  case status =>
    simp only [hs.numThreads, hs.threadStatus]
    intro t ht
    split
    . simp
    . exact hp.status t ht
  case running =>
    simp only [hs.numThreads, hs.threadStatus, hs.currentThread]
    intro t ht
    split
    . simp
    . exact hp.running t ht
  case suspended => simpa [hs.currentThread, hs.numThreads, hs.stack] using hp.suspended
  case blocked =>
    simp only [hs.numThreads, hs.threadStatus, hs.stack]
    intro t ht
    split
    . simp
    . exact hp.blocked t ht
  case finished =>
    simp only [hs.numThreads, hs.threadStatus, hs.stack]
    intro t ht hfin
    have hnot : t ∉ woken := fun hmem => (hwoken t hmem).2.2 hfin
    simpa [hnot] using hp.finished t ht hfin
  case ready_nodup =>
    rw [hs.readyList, List.nodup_append']
    refine ⟨hp.ready_nodup, hs.nodup, ?_⟩
    intro t hready hmem
    rw [hp.mem_ready, (hwoken t hmem).2.1] at hready
    simp at hready
  case mem_ready =>
    intro t
    rw [hs.readyList, List.mem_append, hp.mem_ready, hs.numThreads, hs.threadStatus]
    by_cases hmem : t ∈ woken
    . simp [hmem, (hwoken t hmem).1]
    . simp [hmem]
  case sem_nodup => exact fun q => (hp.sem_nodup q).sublist (hs.sem_sublist q)
  case mem_sem =>
    intro q t
    rw [hs.mem_sem, hp.mem_sem, hs.numThreads, hs.threadStatus, hs.stack]
    by_cases hmem : t ∈ woken <;> simp [hmem]
  case cond_nodup => exact fun c => (hp.cond_nodup c).sublist (hs.cond_sublist c)
  case mem_cond =>
    intro c t
    rw [hs.mem_cond, hp.mem_cond, hs.numThreads, hs.threadStatus, hs.stack]
    by_cases hmem : t ∈ woken <;> simp [hmem]

theorem wakeQuiet {woken : List Nat} (hp : Placed s)
    (hstack : s.stack s.currentThread = frame :: rest) (hq : Stack.Quiet frame frames)
    (hs : Woken woken s s')
    : Placed (s'.setStack s.currentThread (frames ++ rest)) := by
  rw [← hs.currentThread]
  refine (hp.wake hs).quiet ?_ hq (.refl _)
  rw [hs.stack, hs.currentThread, hstack]

theorem block (hp : Placed s) (point : WaitPoint) {next : Frame U H}
    (hstack : s.stack s.currentThread = frame :: rest) (hframe : ¬ Stack.Asleep (frame :: rest))
    (hs : Blocks point s s')
    (hpoint : Stack.waitPoint (next :: rest) = some point) (hnext : next ≠ .sleepLoop)
    (hfinished : next = .notReached → point = .finished)
    : Placed (s'.setStack s.currentThread ([.sleepLoop, next] ++ rest)) := by
  obtain ⟨hrunning, hawake⟩ := hp.awake hstack hframe
  have hlt := hp.current_lt
  -- the thread was running, so it was not on any list
  have hready : s.currentThread ∉ s.readyList := by simp [hp.mem_ready, hrunning]
  have hsem : ∀ q, s.currentThread ∉ (s.sem q).queue := by simp [hp.mem_sem, hrunning]
  have hcond : ∀ c, s.currentThread ∉ s.condQueue c := by simp [hp.mem_cond, hrunning]
  have hrest : .notReached ∉ rest := by
    intro hfin
    have := (hp.finished _ hlt (by rw [hstack]; exact List.mem_cons_of_mem _ hfin)).1
    rw [hrunning] at this
    contradiction
  have hsleep : .sleepLoop ∉ rest := fun h => hawake (List.mem_cons_of_mem _ h)
  have hwait : Stack.waitPoint (.sleepLoop :: next :: rest) = some point := by
    rw [← hpoint]
    rfl
  unfold State.setStack
  constructor
  case current_lt => simpa [hs.currentThread, hs.numThreads] using hlt
  case current =>
    simp only [hs.currentThread, hs.threadStatus, Function.update_self]
    right
    simp [Stack.Asleep, hsleep, hnext.symm]
  case status =>
    simp only [hs.numThreads, hs.threadStatus]
    intro t ht
    by_cases htc : t = s.currentThread
    . simp [htc]
    . simpa [htc] using hp.status t ht
  case running =>
    simp only [hs.numThreads, hs.threadStatus, hs.currentThread]
    intro t ht
    by_cases htc : t = s.currentThread
    . simp [htc]
    . simpa [htc] using hp.running t ht
  case suspended =>
    simp only [hs.numThreads, hs.stack, hs.currentThread]
    intro t ht htc
    simpa [htc] using hp.suspended t ht htc
  case blocked =>
    simp only [hs.numThreads, hs.threadStatus, hs.stack]
    intro t ht
    by_cases htc : t = s.currentThread
    . simp [htc, hwait]
    . simpa [htc] using hp.blocked t ht
  case finished =>
    simp only [hs.numThreads, hs.threadStatus, hs.stack]
    intro t ht
    by_cases htc : t = s.currentThread
    . subst htc
      intro hfin
      have : next = .notReached := by simpa [hrest, eq_comm] using hfin
      simp [hwait, hfinished this]
    . simpa [htc] using hp.finished t ht
  case ready_nodup => simpa [hs.readyList] using hp.ready_nodup
  case mem_ready =>
    simp only [hs.numThreads, hs.threadStatus, hs.readyList]
    intro t
    by_cases htc : t = s.currentThread
    . subst htc
      simp [hready]
    . simpa [htc] using hp.mem_ready t
  case sem_nodup =>
    intro q
    simp only [hs.sem]
    split
    . exact (hp.sem_nodup q).append (by simp) (by simpa using hsem q)
    . exact hp.sem_nodup q
  case mem_sem =>
    intro q t
    simp only [hs.sem, hs.numThreads, hs.threadStatus, hs.stack]
    by_cases htc : t = s.currentThread
    . subst htc
      by_cases hq : point = .sem q <;> simp [hwait, hlt, hsem, hq]
    . split
      . simpa [htc] using hp.mem_sem q t
      . simpa [htc] using hp.mem_sem q t
  case cond_nodup =>
    intro c
    simp only [hs.condQueue]
    split
    . exact (hp.cond_nodup c).append (by simp) (by simpa using hcond c)
    . exact hp.cond_nodup c
  case mem_cond =>
    intro c t
    simp only [hs.condQueue, hs.numThreads, hs.threadStatus, hs.stack]
    by_cases htc : t = s.currentThread
    . subst htc
      by_cases hc : point = .cond c <;> simp [hwait, hlt, hcond, hc]
    . split
      . simpa [htc] using hp.mem_cond c t
      . simpa [htc] using hp.mem_cond c t

theorem sleepRun {next : Nat} {ready : List Nat} (hp : Placed s)
    (hstack : s.stack s.currentThread = .sleepLoop :: rest) (hready : s.readyList = next :: ready)
    (log : List SchedEvent)
    : Placed
        (State.setStack
          { s with
            currentThread := next
            readyList := ready
            threadStatus := update s.threadStatus next .running
            schedLog := log }
          s.currentThread ([.runTail] ++ rest)) := by
  obtain ⟨hcur, hsleep⟩ : s.threadStatus s.currentThread ≠ .running ∧ .sleepLoop ∉ rest := by
    have hcur := hp.current
    rw [hstack] at hcur
    simpa [Stack.Asleep] using hcur
  obtain ⟨hlt, hnext⟩ := (hp.mem_ready next).mp (by simp [hready])
  obtain ⟨hnot, hnodup⟩ := List.nodup_cons.mp (hready ▸ hp.ready_nodup)
  have hwait : ∀ t, Stack.waitPoint (update s.stack s.currentThread ([.runTail] ++ rest) t)
      = Stack.waitPoint (s.stack t) := by
    intro t
    by_cases htc : t = s.currentThread
    . subst htc
      simp [Stack.waitPoint, hstack]
    . rw [Function.update_of_ne htc]
  have hawake : ∀ t, t < s.numThreads →
      .sleepLoop ∉ update s.stack s.currentThread ([.runTail] ++ rest) t := by
    intro t ht
    by_cases htc : t = s.currentThread
    . subst htc
      simp [hsleep]
    . rw [Function.update_of_ne htc]
      exact hp.suspended t ht htc
  have hblocked : ∀ t, update s.threadStatus next .running t = .blocked ↔
      s.threadStatus t = .blocked := by
    intro t
    by_cases htn : t = next
    . simp [htn, hnext]
    . simp [htn]
  unfold State.setStack
  constructor
  case current_lt => exact hlt
  case current =>
    left
    exact ⟨by simp, hawake next hlt⟩
  case status =>
    intro t ht
    by_cases htn : t = next
    . simp [htn]
    . simpa [htn] using hp.status t ht
  case running =>
    intro t ht hrun
    by_contra htn
    simp only [Function.update_of_ne htn] at hrun
    rw [hp.running t ht hrun] at hrun
    exact hcur hrun
  case suspended => exact fun t ht _ => hawake t ht
  case blocked =>
    intro t ht hb
    simp only [hblocked] at hb
    simpa only [hwait] using hp.blocked t ht hb
  case finished =>
    intro t ht hfin
    simp only [hblocked, hwait]
    apply hp.finished t ht
    by_cases htc : t = s.currentThread
    . subst htc
      rw [hstack]
      simpa using hfin
    . simpa [htc] using hfin
  case ready_nodup => exact hnodup
  case mem_ready =>
    intro t
    have hmem := hp.mem_ready t
    rw [hready, List.mem_cons] at hmem
    by_cases htn : t = next
    . simp [htn, hnot]
    . simpa [htn] using hmem
  case sem_nodup => exact hp.sem_nodup
  case mem_sem =>
    intro q t
    simp only [hblocked, hwait]
    exact hp.mem_sem q t
  case cond_nodup => exact hp.cond_nodup
  case mem_cond =>
    intro c t
    simp only [hblocked, hwait]
    exact hp.mem_cond c t

theorem yieldSwitch {next : Nat} {ready : List Nat} (hp : Placed s)
    (hstack : s.stack s.currentThread = .yield :: rest) (hready : s.readyList = next :: ready)
    (level : IntStatus) (log : List SchedEvent)
    : Placed
        (State.setStack
          { s with
            level := level
            currentThread := next
            readyList := ready ++ [s.currentThread]
            threadStatus := update (update s.threadStatus s.currentThread .ready) next .running
            schedLog := log }
          s.currentThread ([.runTail, .setLevel s.level] ++ rest)) := by
  obtain ⟨hrunning, hawake⟩ := hp.awake hstack (by simp [Stack.Asleep])
  have hltc := hp.current_lt
  obtain ⟨hlt, hnext⟩ := (hp.mem_ready next).mp (by simp [hready])
  obtain ⟨hnot, hnodup⟩ := List.nodup_cons.mp (hready ▸ hp.ready_nodup)
  have hne : next ≠ s.currentThread := by
    intro heq
    rw [heq, hrunning] at hnext
    contradiction
  have hcready : s.currentThread ∉ s.readyList := by simp [hp.mem_ready, hrunning]
  have hfin : .notReached ∉ s.stack s.currentThread := by
    intro hfin
    have := (hp.finished _ hltc hfin).1
    rw [hrunning] at this
    contradiction
  rw [hstack] at hfin
  unfold State.setStack
  constructor
  case current_lt => exact hlt
  case current =>
    left
    simpa [hne] using hp.suspended next hlt hne
  case status =>
    intro t ht
    by_cases htn : t = next
    . simp [htn]
    . by_cases htc : t = s.currentThread
      . simp [htc, hne.symm]
      . simpa [htn, htc] using hp.status t ht
  case running =>
    intro t ht hrun
    by_contra htn
    by_cases htc : t = s.currentThread
    . simp [htc, hne.symm] at hrun
    . dsimp only at htn hrun
      rw [Function.update_of_ne htn, Function.update_of_ne htc] at hrun
      exact htc (hp.running t ht hrun)
  case suspended =>
    intro t ht htn
    by_cases htc : t = s.currentThread
    . subst htc
      simpa using hawake
    . simpa [htc] using hp.suspended t ht htc
  case blocked =>
    intro t ht
    by_cases htn : t = next
    . simp [htn]
    . by_cases htc : t = s.currentThread
      . simp [htc, hne.symm]
      . simpa [htn, htc] using hp.blocked t ht
  case finished =>
    intro t ht
    by_cases htc : t = s.currentThread
    . subst htc
      intro h
      exact absurd (by simpa using h) hfin
    . by_cases htn : t = next
      . subst htn
        intro h
        have := (hp.finished t ht (by simpa [htc] using h)).1
        rw [hnext] at this
        contradiction
      . simpa [htn, htc] using hp.finished t ht
  case ready_nodup =>
    refine hnodup.append (by simp) ?_
    rw [hready, List.mem_cons] at hcready
    simpa using fun h => hcready (.inr h)
  case mem_ready =>
    intro t
    have hmem := hp.mem_ready t
    rw [hready, List.mem_cons] at hmem
    by_cases htn : t = next
    . subst htn
      simp [hnot, hne]
    . by_cases htc : t = s.currentThread
      . subst htc
        simp [htn, hltc]
      . simpa [htn, htc] using hmem
  case sem_nodup => exact hp.sem_nodup
  case mem_sem =>
    intro q t
    by_cases htn : t = next
    . subst htn
      simp [hp.mem_sem, hnext]
    . by_cases htc : t = s.currentThread
      . subst htc
        simp [hp.mem_sem, hrunning, htn]
      . simpa [htn, htc] using hp.mem_sem q t
  case cond_nodup => exact hp.cond_nodup
  case mem_cond =>
    intro c t
    by_cases htn : t = next
    . subst htn
      simp [hp.mem_cond, hnext]
    . by_cases htc : t = s.currentThread
      . subst htc
        simp [hp.mem_cond, hrunning, htn]
      . simpa [htn, htc] using hp.mem_cond c t

theorem fork (hp : Placed s) (func : U) (level : IntStatus) (log : List SchedEvent)
    : Placed
        { s with
          level := level
          numThreads := s.numThreads + 1
          threadStatus := update s.threadStatus s.numThreads .ready
          stack := update s.stack s.numThreads [.threadRoot func]
          readyList := s.readyList ++ [s.numThreads]
          schedLog := log } := by
  have hltc := hp.current_lt
  have hne : s.currentThread ≠ s.numThreads := by omega
  have hlt : ∀ t, t < s.numThreads + 1 → t ≠ s.numThreads → t < s.numThreads := by omega
  have hnew : s.numThreads ∉ s.readyList := by simp [hp.mem_ready]
  constructor
  case current_lt =>
    dsimp
    omega
  case current => simpa [hne] using hp.current
  case status =>
    intro t ht
    by_cases htn : t = s.numThreads
    . simp [htn]
    . simpa [htn] using hp.status t (hlt t ht htn)
  case running =>
    intro t ht
    by_cases htn : t = s.numThreads
    . simp [htn]
    . simpa [htn] using hp.running t (hlt t ht htn)
  case suspended =>
    intro t ht htc
    by_cases htn : t = s.numThreads
    . simp [htn]
    . simpa [htn] using hp.suspended t (hlt t ht htn) htc
  case blocked =>
    intro t ht
    by_cases htn : t = s.numThreads
    . simp [htn]
    . simpa [htn] using hp.blocked t (hlt t ht htn)
  case finished =>
    intro t ht
    by_cases htn : t = s.numThreads
    . simp [htn]
    . simpa [htn] using hp.finished t (hlt t ht htn)
  case ready_nodup => exact hp.ready_nodup.append (by simp) (by simpa using hnew)
  case mem_ready =>
    intro t
    by_cases htn : t = s.numThreads
    . simp [htn]
    . have := hp.mem_ready t
      simp [htn, this]
      omega
  case sem_nodup => exact hp.sem_nodup
  case mem_sem =>
    intro q t
    by_cases htn : t = s.numThreads
    . simp [htn, hp.mem_sem]
    . have := hp.mem_sem q t
      simp [htn, this]
      omega
  case cond_nodup => exact hp.cond_nodup
  case mem_cond =>
    intro c t
    by_cases htn : t = s.numThreads
    . simp [htn, hp.mem_cond]
    . have := hp.mem_cond c t
      simp [htn, this]
      omega

theorem outcome (hp : Placed s) (hstack : s.stack s.currentThread = frame :: rest)
    (hlevel : ∀ calls, frame = .handler calls → s.level = .intOff)
    {prog : Program G U H} (h : Outcome prog s frame frames s')
    : Placed (s'.setStack s.currentThread (frames ++ rest)) := by
  cases h with
  | finish =>
    apply hp.block .finished hstack (by simp [Stack.Asleep])
    . constructor <;> simp
    . rfl
    . simp
    . simp
  | pBlock sem =>
    apply hp.block (.sem sem) hstack (by simp [Stack.Asleep])
    . constructor <;> simp
      intro q
      by_cases hq : sem = q <;> simp [hq, Ne.symm]
    . rfl
    . simp
    . simp
  | pWhileBlock sem oldLevel =>
    apply hp.block (.sem sem) hstack (by simp [Stack.Asleep])
    . constructor <;> simp
      intro q
      by_cases hq : sem = q <;> simp [hq, Ne.symm]
    . rfl
    . simp
    . simp
  | waitSleep c l =>
    apply hp.block (.cond c) hstack (by simp [Stack.Asleep])
    . constructor <;> simp
      intro c'
      by_cases hc : c = c' <;> simp [hc, Ne.symm]
    . rfl
    . simp
    . simp
  | yieldSwitch next ready hready => exact hp.yieldSwitch hstack hready _ _
  | sleepRun next ready hready => exact hp.sleepRun hstack hready _
  | fork func =>
    have hfork := hp.fork func .intOff (s.schedLog ++ [.readyToRun s.numThreads])
    have hne : s.currentThread ≠ s.numThreads := by have := hp.current_lt; omega
    have hstack' : update s.stack s.numThreads [.threadRoot func] s.currentThread
        = .fork func :: rest := by
      rw [Function.update_of_ne hne, hstack]
    apply hfork.quiet hstack' _ (.refl _)
    constructor <;> simp [Stack.Asleep]
  | vWake sem first queue hqueue =>
    apply hp.wakeQuiet hstack _ (hp.woken_sem hqueue _ _ _ _)
    constructor <;> simp [Stack.Asleep]
  | handlerVWake n calls first queue hqueue =>
    apply hp.wakeQuiet hstack _ (hp.woken_sem hqueue _ _ _ _)
    constructor <;> simp [Stack.Asleep, Stack.waitPoint, hlevel _ rfl]
  | signalWake c l howner first queue hqueue =>
    apply hp.wakeQuiet hstack _ 
      (hp.woken_cond (show s.condQueue c = [first] ++ queue from hqueue) _ _ _)
    . constructor <;> simp [Stack.Asleep]
    . intro t
      by_cases ht : t = first <;> simp [ht]
  | broadcast c l howner =>
    apply hp.wakeQuiet hstack _ (hp.woken_cond (by simp) _ (fun _ => rfl) _)
    constructor <;> simp [Stack.Asleep]
  | user u =>
    apply hp.quiet hstack (Stack.quiet_frames _ _ _)
    constructor <;> simp
  | pTake sem =>
    apply hp.quiet hstack
    . constructor <;> simp [Stack.Asleep]
    . constructor <;> simp
      intro q
      by_cases hq : q = sem <;> simp [hq]
  | pWhileTake sem =>
    apply hp.quiet hstack
    . constructor <;> simp [Stack.Asleep]
    . constructor <;> simp
      intro q
      by_cases hq : q = sem <;> simp [hq]
  | vQuiet sem hqueue =>
    apply hp.quiet hstack
    . constructor <;> simp [Stack.Asleep]
    . constructor <;> simp
      intro q
      by_cases hq : q = sem <;> simp [hq, hqueue]
  | handlerVQuiet n calls hqueue =>
    apply hp.quiet hstack
    . constructor <;> simp [Stack.Asleep, Stack.waitPoint, hlevel _ rfl]
    . constructor <;> simp
      intro q
      by_cases hq : q = .sem n <;> simp [hq, hqueue]
  | setLevelQuiet now =>
    apply hp.quiet hstack
    . cases now <;> constructor <;> simp [Stack.Asleep, Stack.waitPoint]
    . constructor <;> simp
  | _ =>
    apply hp.quiet hstack
    . constructor <;> simp [Stack.Asleep, Stack.waitPoint]
    . constructor <;> simp

end Placed

structure Inv (s : State G U H) : Prop where
  placed : Placed s
  moded : Moded s

theorem inv_boot (sys : System G U H) (pending : List (PendingInterrupt H))
    : Inv (boot sys pending) :=
  ⟨placed_boot sys pending, moded_boot sys pending⟩

theorem Inv.step {prog : Program G U H} {s s' : State G U H} (hinv : Inv s) (h : Step prog s s')
    : Inv s' := by
  obtain ⟨frame, rest, frames, s₁, hstack, hout, rfl⟩ := step_cases h
  have hok := hinv.moded.current hinv.placed.current_lt hstack
  constructor
  . refine hinv.placed.outcome hstack ?_ hout
    rintro calls rfl
    obtain ⟨m₁, ⟨hm, _⟩, _⟩ := hok
    exact congrArg Mode.level hm
  . exact hinv.moded.outcome hinv.placed.current_lt hstack hout

theorem System.Reachable.inv {sys : System G U H} {s : State G U H} (h : sys.Reachable s)
    : Inv s := by
  refine Transition.Reachable.invariant ?_ ?_ h
  . rintro s ⟨pending, rfl⟩
    exact inv_boot sys pending
  . intro s s' _ hinv hstep
    exact hinv.step hstep

theorem System.Reachable.stack_invariant {sys : System G U H} {Q : List (Frame U H) → Prop}
    (hmain : Q [.setLevel .intOn, .user sys.main, .finish]) (hroot : ∀ func, Q [.threadRoot func])
    (hstep : ∀ s s' frame frames rest, Inv s → s.stack s.currentThread = frame :: rest →
      Outcome sys.toProgram s frame frames s' → Q (frame :: rest) → Q (frames ++ rest))
    {s : State G U H} (h : sys.Reachable s)
    : ∀ t, t < s.numThreads → Q (s.stack t) := by
  refine Transition.Reachable.invariant (P := fun s => ∀ t, t < s.numThreads → Q (s.stack t))
    ?_ ?_ h
  . rintro s ⟨pending, rfl⟩ t ht
    have : t = 0 := by simpa [boot] using ht
    subst this
    exact hmain
  . intro s s' hreach hQ hs t ht
    have hinv : Inv s := System.Reachable.inv hreach
    obtain ⟨frame, rest, frames, s₁, hstack, hout, rfl⟩ := step_cases hs
    rw [State.setStack_numThreads] at ht
    rw [State.setStack_stack]
    by_cases htc : t = s.currentThread
    . subst htc
      rw [Function.update_self]
      apply hstep s s₁ frame frames rest hinv hstack hout
      rw [← hstack]
      exact hQ _ hinv.placed.current_lt
    . rw [Function.update_of_ne htc]
      by_cases htn : t < s.numThreads
      . rw [hout.stack_of_lt htn]
        exact hQ t htn
      . obtain ⟨func, hnew⟩ := hout.stack_of_not_lt ht htn
        rw [hnew]
        exact hroot func

end Nachos
