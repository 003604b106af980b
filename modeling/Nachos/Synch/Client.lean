import Nachos.Lib.Count
import Nachos.Threads.Script
import Nachos.Threads.Placement

/-!
This module contains the synchronization operations as the code that calls them sees them: every
thread that is not on a queue may take the next step, and interrupts, the scheduler and the
interrupt level are gone. `System.Reachable.client` says that every run of the kernel is such a run,
so what is proved about the operations here holds for every interleaving that the kernel has.
-/

namespace Nachos

open Function (update)

inductive Point (U : Type) where
  | threadRoot (func : U)
  | user (u : U)
  | finish
  | notReached
  | p (q : SemId)
  | pWhile (q : SemId)
  | v (q : SemId)
  | acquire (l : Nat)
  | setOwner (l : Nat)
  | release (l : Nat)
  | wait (c l : Nat)
  | waitSleep (c l : Nat)
  | waitAcquire (c l : Nat)
  | signal (c l : Nat)
  | broadcast (c l : Nat)
  | fork (func : U)
  deriving DecidableEq, Repr

def Frame.point? : Frame U H → Option (Point U)
  | .threadRoot func => some (.threadRoot func)
  | .user u => some (.user u)
  | .finish => some .finish
  | .notReached => some .notReached
  | .p q => some (.p q)
  | .pWhile q _ => some (.pWhile q)
  | .v q => some (.v q)
  | .acquire l => some (.acquire l)
  | .setOwner l => some (.setOwner l)
  | .release l => some (.release l)
  | .wait c l => some (.wait c l)
  | .waitSleep c l => some (.waitSleep c l)
  | .waitAcquire c l => some (.waitAcquire c l)
  | .signal c l => some (.signal c l)
  | .broadcast c l => some (.broadcast c l)
  | .fork func => some (.fork func)
  | _ => none

def Call.points (call : Call U H) (u : U) : List (Point U) :=
  (call.frames u).filterMap Frame.point?

structure Client (G U : Type) where
  numThreads : Nat
  points : Nat → List (Point U)
  sem : SemId → Semaphore
  owner : Nat → Option Nat
  condQueue : Nat → List Nat
  shared : G
  syncLog : List SyncEvent

def State.client (s : State G U H) : Client G U where
  numThreads := s.numThreads
  points t := (s.stack t).filterMap Frame.point?
  sem := s.sem
  owner := s.owner
  condQueue := s.condQueue
  shared := s.shared
  syncLog := s.syncLog

namespace Client

variable (a : Client G U)

@[simps]
def setPoints (t : Nat) (points : List (Point U)) : Client G U :=
  { a with points := update a.points t points }

@[simps]
def take (q : SemId) (t : Nat) : Client G U :=
  { a with
    sem := update a.sem q { a.sem q with value := (a.sem q).value - 1 }
    syncLog := a.syncLog ++ [.p q t] }

@[simps]
def enqueue (q : SemId) (t : Nat) : Client G U :=
  { a with sem := update a.sem q { a.sem q with queue := (a.sem q).queue ++ [t] } }

@[simps]
def post (q : SemId) (t : Nat) : Client G U :=
  { a with
    sem := update a.sem q ⟨(a.sem q).value + 1, (a.sem q).queue.tail⟩
    syncLog := a.syncLog ++ [.v q t] }

def Awake (t : Nat) : Prop :=
  (∀ q, t ∉ (a.sem q).queue) ∧ ∀ c, t ∉ a.condQueue c

/--
`Act prog a t point points a'`: thread `t` goes on at `point`, and has `points` to do instead.
-/
inductive Act (prog : Program G U H) (a : Client G U) (t : Nat)
    : Point U → List (Point U) → Client G U → Prop where
  | threadRoot (func : U)
    : Act prog a t (.threadRoot func) [.user func, .finish] a
  | user (u : U)
    : Act prog a t (.user u) ((prog.code u a.shared).2.1.points (prog.code u a.shared).2.2)
        { a with shared := (prog.code u a.shared).1 }
  | finish
    : Act prog a t .finish [.notReached] a
  | pTake (q : SemId) (hvalue : (a.sem q).value ≠ 0)
    : Act prog a t (.p q) [] (a.take q t)
  | pBlock (q : SemId) (hvalue : (a.sem q).value = 0)
    : Act prog a t (.p q) [.pWhile q] (a.enqueue q t)
  | pWhileTake (q : SemId) (hvalue : (a.sem q).value ≠ 0)
    : Act prog a t (.pWhile q) [] (a.take q t)
  | pWhileBlock (q : SemId) (hvalue : (a.sem q).value = 0)
    : Act prog a t (.pWhile q) [.pWhile q] (a.enqueue q t)
  | v (q : SemId)
    : Act prog a t (.v q) [] (a.post q t)
  | acquire (l : Nat) (howner : a.owner l ≠ some t)
    : Act prog a t (.acquire l) [.p (.lock l), .setOwner l] a
  | setOwner (l : Nat)
    : Act prog a t (.setOwner l) []
        { a with owner := update a.owner l (some t), syncLog := a.syncLog ++ [.acquired l t] }
  | release (l : Nat) (howner : a.owner l = some t)
    : Act prog a t (.release l) [.v (.lock l)]
        { a with owner := update a.owner l none, syncLog := a.syncLog ++ [.released l t] }
  | wait (c l : Nat) (howner : a.owner l = some t)
    : Act prog a t (.wait c l) [.release l, .waitSleep c l] a
  | waitSleep (c l : Nat)
    : Act prog a t (.waitSleep c l) [.waitAcquire c l]
        { a with condQueue := update a.condQueue c (a.condQueue c ++ [t]) }
  | waitAcquire (c l : Nat)
    : Act prog a t (.waitAcquire c l) [.acquire l] a
  | signal (c l : Nat) (howner : a.owner l = some t)
    : Act prog a t (.signal c l) []
        { a with condQueue := update a.condQueue c (a.condQueue c).tail }
  | broadcast (c l : Nat) (howner : a.owner l = some t)
    : Act prog a t (.broadcast c l) [] { a with condQueue := update a.condQueue c [] }
  | fork (func : U)
    : Act prog a t (.fork func) []
        { a with
          numThreads := a.numThreads + 1
          points := update a.points a.numThreads [.threadRoot func] }

inductive Step (prog : Program G U H) (a : Client G U) : Client G U → Prop where
  | thread (t : Nat) (point : Point U) (points rest : List (Point U)) (a' : Client G U)
      (ht : t < a.numThreads) (hawake : a.Awake t) (hpoints : a.points t = point :: rest)
      (hact : Act prog a t point points a')
    : Step prog a (a'.setPoints t (points ++ rest))
  | interrupt (handler : H)
    : Step prog a { a with shared := (prog.handler handler a.shared).1 }
  | interruptV (t n : Nat) (handler : H) (g : G) (hcall : .v n ∈ (prog.handler handler g).2)
    : Step prog a (a.post (.sem n) t)

end Client

def System.clientBoot (sys : System G U H) : Client G U where
  numThreads := 1
  points := update (fun _ => []) 0 [.user sys.main, .finish]
  sem
    | .sem n => ⟨sys.value n, []⟩
    | .lock _ => ⟨1, []⟩
  owner := fun _ => none
  condQueue := fun _ => []
  shared := sys.globals
  syncLog := []

def System.ClientReachable (sys : System G U H) (a : Client G U) : Prop :=
  Transition.Reachable (· = sys.clientBoot) (Client.Step sys.toProgram) a

/-! ### Every run of the kernel is a run of its clients -/

section Simulation

variable {prog : Program G U H} {s s' : State G U H} {frame : Frame U H}
  {frames rest : List (Frame U H)}

theorem State.client_setStack (s : State G U H) (t : Nat) (frames : List (Frame U H))
    : (s.setStack t frames).client = s.client.setPoints t (frames.filterMap Frame.point?) := by
  unfold State.client Client.setPoints
  rw [Client.mk.injEq]
  refine ⟨rfl, ?_, rfl, rfl, rfl, rfl, rfl⟩
  funext t'
  by_cases ht : t' = t <;> simp [ht]

def WaitPoint.IsAt : WaitPoint → List (Point U) → Prop
  | .sem q, points => ∃ rest, points = .pWhile q :: rest
  | .cond c, points => ∃ l rest, points = .waitAcquire c l :: rest
  | .finished, points => ∃ rest, points = .notReached :: rest

theorem Stack.waitPoint_isAt {stack : List (Frame U H)} {wait : WaitPoint}
    (h : Stack.waitPoint stack = some wait)
    : wait.IsAt (stack.filterMap Frame.point?) := by
  fun_induction Stack.waitPoint stack with
  | case1 q _ rest =>
    injection h with h
    subst h
    exact ⟨_, rfl⟩
  | case2 c l rest =>
    injection h with h
    subst h
    exact ⟨l, _, rfl⟩
  | case3 rest =>
    injection h with h
    subst h
    exact ⟨_, rfl⟩
  | case11 => contradiction
  | _ => 
    rename_i ih
    exact ih h

theorem client_silent (hstack : s.stack s.currentThread = frame :: rest)
    (hframe : frame.point? = none) (hframes : frames.filterMap Frame.point? = [])
    (hst : s'.stack = s.stack)
    : (s'.setStack s.currentThread (frames ++ rest)).client = s'.client := by
  rw [State.client_setStack, List.filterMap_append, hframes, List.nil_append]
  have hsame : s'.client.points s.currentThread = rest.filterMap Frame.point? := by
    simp [State.client, hst, hstack, hframe]
  unfold Client.setPoints
  rw [← hsame, Function.update_eq_self]

theorem not_asleep_of_point {point : Point U} (hframe : frame.point? = some point)
    : ¬Stack.Asleep (frame :: rest) := by
  cases frame <;> first | contradiction | simp [Stack.Asleep]

theorem client_awake (hp : Placed s) (hstack : s.stack s.currentThread = frame :: rest)
    {point : Point U} (hframe : frame.point? = some point)
    : s.client.Awake s.currentThread := by
  have hrun := (hp.awake hstack (not_asleep_of_point hframe)).1
  constructor
  . intro q hmem
    have := ((hp.mem_sem q _).mp hmem).2.1
    rw [hrun] at this
    contradiction
  . intro c hmem
    have := ((hp.mem_cond c _).mp hmem).2.1
    rw [hrun] at this
    contradiction

theorem Client.Act.of_eq {a b c : Client G U} {t : Nat} {point : Point U} {points : List (Point U)}
    (h : Client.Act prog a t point points b) (heq : c = b)
    : Client.Act prog a t point points c :=
  heq ▸ h

theorem Outcome.act (hout : Outcome prog s frame frames s') {point : Point U}
    (hframe : frame.point? = some point)
    : Client.Act prog s.client s.currentThread point (frames.filterMap Frame.point?) s'.client := by
  cases hout <;> cases hframe
  case threadRoot func => exact .threadRoot func
  case user u => exact .user u
  case finish => exact .finish
  case pTake q hvalue => exact .pTake q hvalue
  case pWhileTake q _ hvalue => exact .pWhileTake q hvalue
  case pBlock q hvalue => exact .pBlock q hvalue
  case pWhileBlock q _ _ hvalue => exact .pWhileBlock q hvalue
  case vQuiet q hqueue =>
    refine Client.Act.of_eq (.v q) ?_
    simp [State.client, Client.post, hqueue]
  case vWake q first queue hqueue =>
    refine Client.Act.of_eq (.v q) ?_
    simp [State.client, Client.post, hqueue]
  case acquire l howner => exact .acquire l howner
  case setOwner l => exact .setOwner l
  case release l howner => exact .release l howner
  case wait c l howner => exact .wait c l howner
  case waitSleep c l _ => exact .waitSleep c l
  case waitAcquire c l => exact .waitAcquire c l
  case signalQuiet c l howner hqueue =>
    refine Client.Act.of_eq (.signal c l howner) ?_
    simp [State.client, hqueue]
  case signalWake c l howner first queue hqueue =>
    refine Client.Act.of_eq (.signal c l howner) ?_
    simp [State.client, hqueue]
  case broadcast c l howner => exact .broadcast c l howner
  case fork func =>
    refine Client.Act.of_eq (.fork func) ?_
    unfold State.client
    rw [Client.mk.injEq]
    refine ⟨rfl, ?_, rfl, rfl, rfl, rfl, rfl⟩
    funext t
    by_cases ht : t = s.numThreads <;> simp [ht, Frame.point?]

theorem Outcome.silent (hout : Outcome prog s frame frames s') (hframe : frame.point? = none)
    : frames.filterMap Frame.point? = [] ∧ s'.stack = s.stack ∧
      (s'.client = s.client ∨
        (∃ handler, s'.client = { s.client with shared := (prog.handler handler s.shared).1 }) ∨
        ∃ n calls, frame = .handler (.v n :: calls) ∧
          s'.client = s.client.post (.sem n) s.currentThread) := by
  cases hout with
  | tickFire _ handler | idleFire handler | idleDrainFire handler =>
    exact ⟨rfl, rfl, .inr (.inl ⟨handler, rfl⟩)⟩
  | handlerVQuiet n calls hqueue | handlerVWake n calls _ _ hqueue =>
    refine ⟨rfl, rfl, .inr (.inr ⟨n, calls, rfl, ?_⟩)⟩
    simp [State.client, Client.post, hqueue]
  | _ => first | contradiction | exact ⟨rfl, rfl, .inl rfl⟩

theorem handler_calls {sys : System G U H} (h : sys.Reachable s)
    : ∀ t, t < s.numThreads → ∀ calls, .handler calls ∈ s.stack t →
        ∃ handler g, calls <:+ (sys.handler handler g).2 := by
  refine h.stack_invariant (Q := fun stack => ∀ calls, .handler calls ∈ stack →
    ∃ handler g, calls <:+ (sys.handler handler g).2) (by simp) (by simp) ?_
  intro s s' frame frames rest _ _ hout hcalls calls hmem
  rw [List.mem_append] at hmem
  cases hmem with
  | inr hrest => exact hcalls calls (List.mem_cons_of_mem _ hrest)
  | inl hframes =>
    cases hout with
    | tickFire _ handler | idleFire handler | idleDrainFire handler =>
      have heq : calls = (sys.handler handler s.shared).2 := by simpa using hframes
      exact ⟨handler, s.shared, heq ▸ List.suffix_rfl⟩
    | handlerTimerIdle calls' | handlerTimer calls' | handlerVQuiet _ calls' | handlerVWake _ calls'
    | handlerSchedule _ _ _ calls' =>
      obtain rfl : calls = calls' := by simpa using hframes
      obtain ⟨handler, g, hsuffix⟩ := hcalls _ (List.mem_cons_self ..)
      exact ⟨handler, g, (List.suffix_cons _ _).trans hsuffix⟩
    | user u => cases hcall : (sys.code u s.shared).2.1 <;> simp [hcall, Call.frames] at hframes
    | _ => simp at hframes

theorem Outcome.client (hout : Outcome prog s frame frames s') (hp : Placed s)
    (hstack : s.stack s.currentThread = frame :: rest)
    (hcalls : ∀ calls, frame = .handler calls → ∀ n, .v n ∈ calls →
      ∃ handler g, .v n ∈ (prog.handler handler g).2)
    : (s'.setStack s.currentThread (frames ++ rest)).client = s.client ∨
      Client.Step prog s.client (s'.setStack s.currentThread (frames ++ rest)).client := by
  cases hframe : frame.point? with
  | some point =>
    right
    rw [State.client_setStack, List.filterMap_append]
    exact .thread s.currentThread point _ _ _ hp.current_lt (client_awake hp hstack hframe)
      (by simp [State.client, hstack, hframe]) (hout.act hframe)
  | none =>
    obtain ⟨hframes, hst, heq | ⟨handler, heq⟩ | ⟨n, calls, hcall, heq⟩⟩ := hout.silent hframe
    . left
      rw [client_silent hstack hframe hframes hst, heq]
    . right
      rw [client_silent hstack hframe hframes hst, heq]
      exact .interrupt handler
    . right
      rw [client_silent hstack hframe hframes hst, heq]
      obtain ⟨handler, g, hv⟩ := hcalls _ hcall n (List.mem_cons_self ..)
      exact .interruptV s.currentThread n handler g hv

theorem System.Reachable.client_step {sys : System G U H} (h : sys.Reachable s)
    (hstep : Nachos.Step sys.toProgram s s')
    : s'.client = s.client ∨ Client.Step sys.toProgram s.client s'.client := by
  obtain ⟨frame, rest, frames, s₁, hstack, hout, rfl⟩ := step_cases hstep
  refine hout.client h.inv.placed hstack ?_
  rintro calls rfl n hn
  obtain ⟨handler, g, hsuffix⟩ := handler_calls h _ h.inv.placed.current_lt calls (by simp [hstack])
  exact ⟨handler, g, hsuffix.subset hn⟩

theorem System.Boot.client {sys : System G U H} (h : sys.Boot s) : s.client = sys.clientBoot := by
  obtain ⟨pending, rfl⟩ := h
  unfold State.client System.clientBoot boot
  rw [Client.mk.injEq]
  refine ⟨rfl, ?_, rfl, rfl, rfl, rfl, rfl⟩
  funext t
  by_cases ht : t = 0
  . subst ht
    rfl
  . simp [ht]

theorem System.Reachable.client {sys : System G U H} (h : sys.Reachable s)
    : sys.ClientReachable s.client :=
  Transition.Reachable.simulation (fun _ => System.Boot.client)
    (fun _ _ hreach => client_step hreach) h

end Simulation

namespace Point

def IsCall : Point U → Prop
  | .threadRoot _ | .user _ | .finish | .notReached | .p (.lock _) | .pWhile (.lock _) => False
  | _ => True

def isPWhile (q : SemId) : Point U → Bool
  | .pWhile q' => q' = q
  | _ => false

end Point

inductive Shape : List (Point U) → Prop where
  | threadRoot (func : U) : Shape [.threadRoot func]
  | user (u : U) : Shape [.user u, .finish]
  | finish : Shape [.finish]
  | exit (u : U) : Shape [.finish, .user u, .finish]
  | finished : Shape [.notReached]
  | exited (u : U) : Shape [.notReached, .user u, .finish]
  | call (point : Point U) (u : U) (hcall : point.IsCall) : Shape [point, .user u, .finish]
  | lockP (l : Nat) (u : U) : Shape [.p (.lock l), .setOwner l, .user u, .finish]
  | lockPWhile (l : Nat) (u : U) : Shape [.pWhile (.lock l), .setOwner l, .user u, .finish]
  | waitRelease (c l : Nat) (u : U) : Shape [.release l, .waitSleep c l, .user u, .finish]
  | waitV (c l : Nat) (u : U) : Shape [.v (.lock l), .waitSleep c l, .user u, .finish]

theorem Shape.tail_isPWhile {point : Point U} {rest : List (Point U)} (h : Shape (point :: rest))
    (q : SemId)
    : rest.any (Point.isPWhile q) = false := by
  cases h <;> rfl

namespace Client

variable {prog : Program G U H} {a a' : Client G U} {t : Nat} {point : Point U}
  {points rest : List (Point U)}

theorem shape_of_call (call : Call U H) (u : U) : Shape (call.points u ++ [.finish]) := by
  cases call with
  | yield => exact .user u
  | setLevel => exact .user u
  | schedule => exact .user u
  | finish => exact .exit u
  | ret => exact .finish
  | p | v | acquire | release | wait | signal | broadcast | fork => exact .call _ u trivial

theorem Act.shape (h : Act prog a t point points a') (hshape : Shape (point :: rest))
    : Shape (points ++ rest) := by
  cases h with
  | threadRoot func =>
    cases hshape with
    | threadRoot => exact .user func
    | call _ _ hcall => exact hcall.elim
  | user u =>
    cases hshape with
    | user => exact shape_of_call _ _
    | call _ _ hcall => exact hcall.elim
  | finish =>
    cases hshape with
    | finish => exact .finished
    | exit u => exact .exited u
    | call _ _ hcall => exact hcall.elim
  | pTake q =>
    cases hshape with
    | call _ u => exact .user u
    | lockP l u => exact .call _ u trivial
  | pWhileTake q =>
    cases hshape with
    | call _ u => exact .user u
    | lockPWhile l u => exact .call _ u trivial
  | pBlock q =>
    cases hshape with
    | call _ u hcall =>
      cases q with
      | sem => exact .call _ u trivial
      | lock => exact hcall.elim
    | lockP l u => exact .lockPWhile l u
  | pWhileBlock q =>
    cases hshape with
    | call _ u hcall => exact .call _ u hcall
    | lockPWhile l u => exact .lockPWhile l u
  | v q =>
    cases hshape with
    | call _ u => exact .user u
    | waitV c l u => exact .call _ u trivial
  | release l =>
    cases hshape with
    | call _ u => exact .call _ u trivial
    | waitRelease c _ u => exact .waitV c l u
  | acquire l =>
    cases hshape with
    | call _ u => exact .lockP l u
  | wait c l =>
    cases hshape with
    | call _ u => exact .waitRelease c l u
  | setOwner | signal | broadcast | fork =>
    cases hshape with
    | call _ u => exact .user u
  | waitSleep | waitAcquire =>
    cases hshape with
    | call _ u => exact .call _ u trivial

theorem Act.numThreads_le (h : Act prog a t point points a') : a.numThreads ≤ a'.numThreads := by
  cases h with
  | fork => exact Nat.le_succ _
  | _ => exact Nat.le_refl _

theorem Act.points_of_lt (h : Act prog a t point points a') {t' : Nat} (ht : t' < a.numThreads)
    : a'.points t' = a.points t' := by
  cases h with
  | fork func => exact Function.update_of_ne (Nat.ne_of_lt ht) ..
  | _ => rfl

theorem Act.points_of_not_lt (h : Act prog a t point points a') {t' : Nat}
    (ht : t' < a'.numThreads) (hnew : ¬t' < a.numThreads)
    : ∃ func, a'.points t' = [.threadRoot func] := by
  cases h with
  | fork func =>
    have heq : t' = a.numThreads := by
      have : t' < a.numThreads + 1 := ht
      omega
    exact ⟨func, by simp [heq]⟩
  | _ => exact absurd ht hnew

theorem Act.count (h : Act prog a t point points a') (ht : t < a.numThreads) {P Q : Nat → Prop}
    [DecidablePred P] [DecidablePred Q] (hother : ∀ t', t' < a.numThreads → t' ≠ t → (Q t' ↔ P t'))
    (hnew : ∀ t' func, a.numThreads ≤ t' → a'.points t' = [.threadRoot func] → ¬Q t')
    : Nat.count Q a'.numThreads + (if P t then 1 else 0) =
        Nat.count P a.numThreads + (if Q t then 1 else 0) := by
  rw [Nat.count_of_new h.numThreads_le]
  . exact Nat.count_of_agree ht hother
  . intro t' hle hlt
    obtain ⟨func, hpoints⟩ := h.points_of_not_lt hlt (by omega)
    exact hnew t' func hle hpoints

theorem Act.forall_threads {Q : Nat → List (Point U) → Prop} (h : Act prog a t point points a')
    (hself : Q t (points ++ rest)) (hothers : ∀ t', t' ≠ t → t' < a.numThreads → Q t' (a.points t'))
    (hnew : ∀ func, point = .fork func → Q a.numThreads [.threadRoot func])
    : ∀ t', t' < (a'.setPoints t (points ++ rest)).numThreads →
        Q t' ((a'.setPoints t (points ++ rest)).points t') := by
  intro t' ht'
  rw [setPoints_numThreads] at ht'
  rw [setPoints_points]
  by_cases hne : t' = t
  . subst hne
    rw [Function.update_self]
    exact hself
  . rw [Function.update_of_ne hne]
    by_cases hold : t' < a.numThreads
    . rw [h.points_of_lt hold]
      exact hothers t' hne hold
    . cases h with
      | fork func =>
        obtain rfl : t' = a.numThreads := by
          have : t' < a.numThreads + 1 := ht'
          omega
        simp only [Function.update_self]
        exact hnew func rfl
      | _ => exact absurd ht' hold

end Client

theorem System.ClientReachable.thread_invariant {sys : System G U H}
    {Q : Client G U → Nat → List (Point U) → Prop}
    (hmain : Q sys.clientBoot 0 [.user sys.main, .finish])
    (hinterrupt : ∀ a handler t points, Q a t points →
      Q { a with shared := (sys.handler handler a.shared).1 } t points)
    (hinterruptV : ∀ a n t t' points, Q a t points → Q (a.post (.sem n) t') t points)
    (hact : ∀ a a' t point points rest, sys.ClientReachable a → t < a.numThreads →
      a.points t = point :: rest → Client.Act sys.toProgram a t point points a' →
      Q a t (point :: rest) →
      Q (a'.setPoints t (points ++ rest)) t (points ++ rest) ∧
      (∀ t' points', t' ≠ t → t' < a.numThreads → a.points t' = points' → Q a t' points' →
        Q (a'.setPoints t (points ++ rest)) t' points') ∧
      ∀ func, point = .fork func →
        Q (a'.setPoints t (points ++ rest)) a.numThreads [.threadRoot func])
    {a : Client G U} (h : sys.ClientReachable a)
    : ∀ t, t < a.numThreads → Q a t (a.points t) := by
  refine Transition.Reachable.invariant (P := fun a => ∀ t, t < a.numThreads → Q a t (a.points t))
    ?_ ?_ h
  . rintro a rfl t ht
    obtain rfl : t = 0 := by simpa [System.clientBoot] using ht
    exact hmain
  . intro a a' hreach hQ hstep
    cases hstep with
    | interrupt handler => exact fun t ht => hinterrupt a handler t _ (hQ t ht)
    | interruptV t' n => exact fun t ht => hinterruptV a n t t' _ (hQ t ht)
    | thread t₀ point points rest a' hlt hawake hpoints hact' =>
      have hself := hQ t₀ hlt
      rw [hpoints] at hself
      obtain ⟨hsame, hother, hnew⟩ := hact a a' t₀ point points rest hreach hlt hpoints hact' hself
      exact hact'.forall_threads hsame (fun t hne ht => hother t _ hne ht rfl (hQ t ht)) hnew

theorem System.ClientReachable.points_invariant {sys : System G U H} {Q : List (Point U) → Prop}
    (hmain : Q [.user sys.main, .finish]) (hroot : ∀ func, Q [.threadRoot func])
    (hstep : ∀ a a' t point points rest, Client.Act sys.toProgram a t point points a' →
      Q (point :: rest) → Q (points ++ rest))
    {a : Client G U} (h : sys.ClientReachable a)
    : ∀ t, t < a.numThreads → Q (a.points t) := by
  refine h.thread_invariant (Q := fun _ _ points => Q points) hmain (fun _ _ _ _ => id)
    (fun _ _ _ _ _ => id) ?_
  intro a a' t point points rest _ _ _ hact hself
  exact ⟨hstep a a' t point points rest hact hself, fun _ _ _ _ _ => id, fun func _ => hroot func⟩

theorem System.ClientReachable.shape {sys : System G U H} {a : Client G U}
    (h : sys.ClientReachable a)
    : ∀ t, t < a.numThreads → Shape (a.points t) := by
  refine h.points_invariant (.user _) .threadRoot ?_
  intro a a' t point points rest hact hshape
  exact hact.shape hshape

end Nachos
