import Mathlib.Algebra.BigOperators.Group.Finset.Piecewise
import Mathlib.Algebra.Order.Group.Multiset
import Nachos.Synch.Client

/-!
This module contains the interrupts that a program schedules itself, like the drivers of the disk and
of the network do. To what the clients of the kernel see, it adds the handlers that will run in the
future, and the calls of `V` that a running handler still has to make. `System.ReachableBy.rig` says
that every run of the kernel is a run at this level.
-/

namespace Nachos

open Function (update)

def HandlerCall.schedules : List (HandlerCall H) → Multiset H
  | [] => 0
  | .schedule handler _ _ :: calls => handler ::ₘ schedules calls
  | .timerInterruptHandler :: calls | .v _ :: calls => schedules calls

def HandlerCall.posts : List (HandlerCall H) → Multiset Nat
  | [] => 0
  | .v n :: calls => n ::ₘ posts calls
  | .timerInterruptHandler :: calls | .schedule _ _ _ :: calls => posts calls

theorem HandlerCall.mem_schedules {calls : List (HandlerCall H)} {handler : H}
    : handler ∈ schedules calls ↔ ∃ fromNow type, .schedule handler fromNow type ∈ calls := by
  induction calls with
  | nil => simp [schedules]
  | cons call calls ih =>
    cases call with
    | schedule toOccur fromNow type =>
      simp only [schedules, Multiset.mem_cons, ih, List.mem_cons, schedule.injEq]
      constructor
      . rintro (rfl | ⟨fromNow', type', hmem⟩)
        . exact ⟨fromNow, type, .inl ⟨rfl, rfl, rfl⟩⟩
        . exact ⟨fromNow', type', .inr hmem⟩
      . rintro ⟨fromNow', type', ⟨rfl, _⟩ | hmem⟩
        . exact .inl rfl
        . exact .inr ⟨fromNow', type', hmem⟩
    | timerInterruptHandler | v => simpa [schedules] using ih

theorem HandlerCall.mem_posts {calls : List (HandlerCall H)} {n : Nat} (h : n ∈ posts calls)
    : .v n ∈ calls := by
  fun_induction posts calls with
  | case1 => simp at h
  | case2 n' calls ih =>
    obtain rfl | h := Multiset.mem_cons.mp h
    . exact List.mem_cons_self ..
    . exact List.mem_cons_of_mem _ (ih h)
  | case3 calls ih | case4 _ _ _ calls ih => exact List.mem_cons_of_mem _ (ih h)

def Call.schedules : Call U H → Multiset H
  | .schedule handler _ _ => {handler}
  | _ => 0

def Frame.due : Frame U H → Multiset H
  | .schedule toOccur _ _ => {toOccur}
  | .handler calls => HandlerCall.schedules calls
  | _ => 0

def Frame.posts : Frame U H → Multiset Nat
  | .handler calls => HandlerCall.posts calls
  | _ => 0

def handlers (pending : List (PendingInterrupt H)) : Multiset H :=
  ↑(pending.map fun toOccur => toOccur.handler)

def State.weigh {M : Type} [AddCommMonoid M] (w : Frame U H → M) (s : State G U H) : M :=
  ∑ t ∈ Finset.range s.numThreads, ((s.stack t).map w).sum

theorem State.mem_weigh {β : Type} {w : Frame U H → Multiset β} {s : State G U H} {x : β}
    : x ∈ s.weigh w ↔ ∃ t, t < s.numThreads ∧ ∃ frame ∈ s.stack t, x ∈ w frame := by
  have hlist : ∀ stack : List (Frame U H), x ∈ (stack.map w).sum ↔ ∃ frame ∈ stack, x ∈ w frame := by
    intro stack
    induction stack with
    | nil => simp
    | cons frame rest ih => simp [ih]
  simp [State.weigh, Multiset.mem_sum, hlist]

structure Rig (G U H : Type) where
  client : Client G U
  due : Multiset H
  posts : Multiset Nat

def State.rig (s : State G U H) : Rig G U H where
  client := s.client
  due := handlers s.pending + s.weigh Frame.due
  posts := s.weigh Frame.posts

def Point.schedules (prog : Program G U H) (g : G) : Point U → Multiset H
  | .user u => (prog.code u g).2.1.schedules
  | _ => 0

/--
`ext` are the handlers that are scheduled by other devices than those of the program.
-/
inductive Rig.Step (ext : H → Prop) (prog : Program G U H) (r : Rig G U H) : Rig G U H → Prop where
  | thread (t : Nat) (point : Point U) (points rest : List (Point U)) (a' : Client G U)
      (ht : t < r.client.numThreads) (hawake : r.client.Awake t)
      (hpoints : r.client.points t = point :: rest)
      (hact : Client.Act prog r.client t point points a')
    : Step ext prog r
        { r with
          client := a'.setPoints t (points ++ rest)
          due := r.due + point.schedules prog r.client.shared }
  | fire (handler : H) (due : Multiset H) (hdue : r.due = handler ::ₘ due)
    : Step ext prog r
        { client := { r.client with shared := (prog.handler handler r.client.shared).1 }
          due := due + HandlerCall.schedules (prog.handler handler r.client.shared).2
          posts := r.posts + HandlerCall.posts (prog.handler handler r.client.shared).2 }
  | post (t n : Nat) (posts : Multiset Nat) (hposts : r.posts = n ::ₘ posts)
    : Step ext prog r { r with client := r.client.post (.sem n) t, posts := posts }
  | arrive (arrived : Multiset H) (hext : ∀ handler ∈ arrived, ext handler)
    : Step ext prog r { r with due := r.due + arrived }

/-! ### The machine on which only some handlers are scheduled from outside -/

def StepBy (ext : H → Prop) (prog : Program G U H) (s s' : State G U H) : Prop :=
  ∃ arrivals, (∀ a ∈ arrivals, ext a.handler) ∧ step prog arrivals s = .ok s'

def System.BootBy (ext : H → Prop) (sys : System G U H) (s : State G U H) : Prop :=
  ∃ pending, (∀ toOccur ∈ pending, ext toOccur.handler) ∧ s = boot sys pending

def System.ReachableBy (ext : H → Prop) (sys : System G U H) (s : State G U H) : Prop :=
  Transition.Reachable (sys.BootBy ext) (StepBy ext sys.toProgram) s

def System.RigBoot (ext : H → Prop) (sys : System G U H) (r : Rig G U H) : Prop :=
  r.client = sys.clientBoot ∧ (∀ handler ∈ r.due, ext handler) ∧ r.posts = 0

def System.RigReachable (ext : H → Prop) (sys : System G U H) (r : Rig G U H) : Prop :=
  Transition.Reachable (sys.RigBoot ext) (Rig.Step ext sys.toProgram) r

theorem StepBy.step {ext : H → Prop} {prog : Program G U H} {s s' : State G U H}
    (h : StepBy ext prog s s') : Step prog s s' := by
  obtain ⟨arrivals, _, h⟩ := h
  exact ⟨arrivals, h⟩

theorem System.ReachableBy.reachable {ext : H → Prop} {sys : System G U H} {s : State G U H}
    (h : sys.ReachableBy ext s) : sys.Reachable s := by
  obtain ⟨s₀, ⟨pending, _, rfl⟩, hrun⟩ := h
  exact ⟨_, ⟨pending, rfl⟩, Relation.ReflTransGen.mono (fun _ _ hstep => hstep.step) _ _ hrun⟩

theorem System.ReachableBy.runFor {ext : H → Prop} {sys : System G U H} {s : State G U H}
    (h : sys.ReachableBy ext s) (n : Nat)
    : sys.ReachableBy ext (runFor sys.toProgram n s) :=
  reachable_runFor_step h n fun _ _ _ hs => ⟨[], by simp, hs⟩

/-! ### The pending list -/

section Pending

variable {prog : Program G U H} {arrivals : List (Arrival H)} {s s' : State G U H} {frame : Frame U H}
  {frames rest : List (Frame U H)}

@[simp]
theorem handlers_cons (toOccur : PendingInterrupt H) (pending : List (PendingInterrupt H))
    : handlers (toOccur :: pending) = toOccur.handler ::ₘ handlers pending := rfl

@[simp]
theorem handlers_sortedInsert (toOccur : PendingInterrupt H) (pending : List (PendingInterrupt H))
    : handlers (sortedInsert toOccur pending) = toOccur.handler ::ₘ handlers pending := by
  induction pending with
  | nil => rfl
  | cons first rest ih =>
    unfold sortedInsert
    split
    . rfl
    . rw [handlers_cons, handlers_cons, ih, Multiset.cons_swap]

theorem State.schedule_handlers {handler : H} {fromNow : Nat} {type : IntType}
    (h : s.schedule handler fromNow type = .ok s')
    : handlers s'.pending = handler ::ₘ handlers s.pending := by
  unfold State.schedule at h
  split at h
  . injection h with h
    subst h
    exact handlers_sortedInsert _ _
  . contradiction

theorem scheduleAll_handlers (h : Arrival.scheduleAll s arrivals = .ok s')
    : handlers s'.pending = handlers s.pending + ↑(arrivals.map fun a => a.handler) := by
  induction arrivals generalizing s with
  | nil =>
    injection h with h
    subst h
    simp
  | cons a rest ih =>
    unfold Arrival.scheduleAll at h
    generalize hs : s.schedule a.handler a.fromNow a.type = res at h
    cases res with
    | error => contradiction
    | ok s₁ =>
      rw [ih h, State.schedule_handlers hs, List.map_cons, ← Multiset.cons_coe, Multiset.cons_add,
        Multiset.add_cons]

theorem State.checkIfDue_handlers {advanceClock : Bool} {res : Option (List (Frame U H))}
    (h : s.checkIfDue prog advanceClock = .ok (res, s'))
    : (res = none ∧ handlers s'.pending = handlers s.pending ∧ s'.shared = s.shared) ∨
      ∃ handler, handlers s.pending = handler ::ₘ handlers s'.pending ∧
        res = some [.handler (prog.handler handler s.shared).2, .endHandler s.status] ∧
        s'.shared = (prog.handler handler s.shared).1 := by
  obtain ⟨_, hdue⟩ := State.due_of_checkIfDue h
  cases hdue with
  | none => exact .inl ⟨rfl, rfl, rfl⟩
  | early _ _ hpending => exact .inl ⟨rfl, by simp [hpending], rfl⟩
  | timer _ hpending => exact .inl ⟨rfl, by simp [hpending], rfl⟩
  | fire toOccur rest hpending => exact .inr ⟨toOccur.handler, by simp [hpending], rfl, rfl⟩

end Pending

/-! ### Every run of the kernel is a run with its interrupts -/

section Simulation

variable {prog : Program G U H} {ext : H → Prop} {arrivals : List (Arrival H)} {s s' : State G U H}
  {frame : Frame U H} {frames rest : List (Frame U H)}

theorem State.weigh_setStack {M : Type} [AddCommMonoid M] (w : Frame U H → M) {t : Nat}
    (ht : t < s.numThreads) (stack : List (Frame U H))
    : (s.setStack t stack).weigh w + ((s.stack t).map w).sum = s.weigh w + (stack.map w).sum := by
  have hmem : t ∈ Finset.range s.numThreads := Finset.mem_range.mpr ht
  have hbefore := Finset.add_sum_erase _ (fun i => ((s.stack i).map w).sum) hmem
  have hafter := Finset.add_sum_erase _ (fun i => ((update s.stack t stack i).map w).sum) hmem
  have hothers : ∑ i ∈ (Finset.range s.numThreads).erase t, ((update s.stack t stack i).map w).sum =
      ∑ i ∈ (Finset.range s.numThreads).erase t, ((s.stack i).map w).sum := by
    apply Finset.sum_congr rfl
    intro i hi
    rw [Function.update_of_ne (Finset.ne_of_mem_erase hi)]
  rw [hothers, Function.update_self] at hafter
  simp only [State.weigh, State.setStack_stack, State.setStack_numThreads]
  rw [← hbefore, ← hafter]
  ac_rfl

theorem Outcome.weigh {M : Type} [AddCancelCommMonoid M] (w : Frame U H → M)
    (hw : ∀ func, w (.threadRoot func) = 0) (hout : Outcome prog s frame frames s')
    (hp : Placed s) (hstack : s.stack s.currentThread = frame :: rest)
    : (s'.setStack s.currentThread (frames ++ rest)).weigh w + w frame =
        s.weigh w + (frames.map w).sum := by
  have hsame : s'.stack s.currentThread = frame :: rest ∧ s.currentThread < s'.numThreads ∧
      s'.weigh w = s.weigh w := by
    have hlt := hp.current_lt
    cases hout with
    | fork func =>
      refine ⟨?_, Nat.lt_succ_of_lt hlt, ?_⟩
      . simp [Function.update_of_ne (Nat.ne_of_lt hlt), hstack]
      . unfold State.weigh
        rw [Finset.sum_range_succ]
        simp only [Function.update_self, List.map_cons, hw, List.map_nil, List.sum_cons, List.sum_nil,
          add_zero]
        apply Finset.sum_congr rfl
        intro i hi
        rw [Function.update_of_ne (Nat.ne_of_lt (Finset.mem_range.mp hi))]
    | _ => exact ⟨hstack, hlt, rfl⟩
  obtain ⟨hst, hlt, hweigh⟩ := hsame
  have h := State.weigh_setStack w hlt (frames ++ rest)
  rw [hst, hweigh, List.map_cons, List.sum_cons, List.map_append, List.sum_append, ← add_assoc,
    ← add_assoc] at h
  exact add_right_cancel h

theorem Outcome.rig_due (hout : Outcome prog s frame frames s') (hp : Placed s)
    (hstack : s.stack s.currentThread = frame :: rest)
    : (s'.setStack s.currentThread (frames ++ rest)).rig.due + (handlers s.pending + frame.due) =
        s.rig.due + (handlers s'.pending + (frames.map Frame.due).sum) := by
  have h := hout.weigh Frame.due (fun _ => rfl) hp hstack
  calc handlers s'.pending + (s'.setStack s.currentThread (frames ++ rest)).weigh Frame.due +
        (handlers s.pending + frame.due)
    _ = handlers s.pending + handlers s'.pending +
          ((s'.setStack s.currentThread (frames ++ rest)).weigh Frame.due + frame.due) := by ac_rfl
    _ = handlers s.pending + handlers s'.pending + (s.weigh Frame.due + (frames.map Frame.due).sum) := by
      rw [h]
    _ = handlers s.pending + s.weigh Frame.due + (handlers s'.pending + (frames.map Frame.due).sum) := by
      ac_rfl

theorem Outcome.rig_posts (hout : Outcome prog s frame frames s') (hp : Placed s)
    (hstack : s.stack s.currentThread = frame :: rest)
    : (s'.setStack s.currentThread (frames ++ rest)).rig.posts + frame.posts =
        s.rig.posts + (frames.map Frame.posts).sum :=
  hout.weigh Frame.posts (fun _ => rfl) hp hstack

theorem Call.frames_due (call : Call U H) (u : U)
    : ((call.frames u).map Frame.due).sum = call.schedules := by
  cases call <;> rfl

theorem Call.frames_posts (call : Call U H) (u : U) : ((call.frames u).map Frame.posts).sum = 0 := by
  cases call <;> rfl

theorem Outcome.act_due (hout : Outcome prog s frame frames s') {point : Point U}
    (hframe : frame.point? = some point)
    : handlers s'.pending = handlers s.pending ∧ frame.due = 0 ∧ frame.posts = 0 ∧
      (frames.map Frame.due).sum = point.schedules prog s.shared ∧
      (frames.map Frame.posts).sum = 0 := by
  cases hout with
  | user u =>
    cases hframe
    exact ⟨rfl, rfl, rfl, Call.frames_due _ _, Call.frames_posts _ _⟩
  | _ => first | contradiction | (cases hframe; exact ⟨rfl, rfl, rfl, rfl, rfl⟩)

theorem rig_thread (hout : Outcome prog s frame frames s') (hp : Placed s)
    (hstack : s.stack s.currentThread = frame :: rest) {point : Point U}
    (hframe : frame.point? = some point)
    : Rig.Step ext prog s.rig (s'.setStack s.currentThread (frames ++ rest)).rig := by
  obtain ⟨hpending, hdue, hposts, hdues, hpostss⟩ := hout.act_due hframe
  have hrig := hout.rig_due hp hstack
  have hrig' := hout.rig_posts hp hstack
  rw [hpending, hdue, hdues, add_zero, add_comm (handlers s.pending), ← add_assoc] at hrig
  rw [hposts, hpostss, add_zero, add_zero] at hrig'
  have hpoints : s.rig.client.points s.currentThread = point :: rest.filterMap Frame.point? := by
    simp [State.rig, State.client, hstack, hframe]
  convert Rig.Step.thread s.currentThread point _ _ s'.client hp.current_lt
    (client_awake hp hstack hframe) hpoints (hout.act hframe) using 1
  rw [Rig.mk.injEq]
  refine ⟨?_, add_right_cancel hrig, hrig'⟩
  change (s'.setStack s.currentThread (frames ++ rest)).client = _
  rw [State.client_setStack, List.filterMap_append]

theorem rig_silent (hout : Outcome prog s frame frames s') (hp : Placed s)
    (hstack : s.stack s.currentThread = frame :: rest) (hframe : frame.point? = none)
    (hclient : s'.client = s.client) (arrived : Multiset H)
    (hdue : handlers s'.pending + (frames.map Frame.due).sum = handlers s.pending + frame.due + arrived)
    (hposts : (frames.map Frame.posts).sum = frame.posts)
    : (s'.setStack s.currentThread (frames ++ rest)).rig = { s.rig with due := s.rig.due + arrived } := by
  have hrig := hout.rig_due hp hstack
  have hrig' := hout.rig_posts hp hstack
  obtain ⟨hframes, hst, _⟩ := hout.silent hframe
  rw [hdue, add_comm _ arrived, ← add_assoc s.rig.due] at hrig
  rw [hposts] at hrig'
  rw [State.rig, Rig.mk.injEq]
  refine ⟨?_, add_right_cancel hrig, add_right_cancel hrig'⟩
  rw [client_silent hstack hframe hframes hst, hclient]
  rfl

theorem rig_fire (hout : Outcome prog s frame frames s') (hp : Placed s)
    (hstack : s.stack s.currentThread = frame :: rest) (hframe : frame.point? = none)
    {handler : H} {old : MachineStatus} {after : Frame U H}
    (hframes : frames = [.handler (prog.handler handler s.shared).2, .endHandler old, after])
    (hpending : handlers s.pending = handler ::ₘ handlers s'.pending)
    (hclient : s'.client = { s.client with shared := (prog.handler handler s.shared).1 })
    (hdue : frame.due = 0) (hposts : frame.posts = 0) (hafter : after.due = 0) (hafter' : after.posts = 0)
    : Rig.Step ext prog s.rig (s'.setStack s.currentThread (frames ++ rest)).rig := by
  have hrig := hout.rig_due hp hstack
  have hrig' := hout.rig_posts hp hstack
  obtain ⟨hpoints, hst, _⟩ := hout.silent hframe
  have hdues : (frames.map Frame.due).sum = HandlerCall.schedules (prog.handler handler s.shared).2 := by
    rw [hframes]
    change _ + (0 + (after.due + 0)) = _
    rw [hafter, add_zero, add_zero, add_zero]
    rfl
  have hpostss : (frames.map Frame.posts).sum = HandlerCall.posts (prog.handler handler s.shared).2 := by
    rw [hframes]
    change _ + (0 + (after.posts + 0)) = _
    rw [hafter', add_zero, add_zero, add_zero]
    rfl
  have hbefore : s.rig.due = handler ::ₘ (handlers s'.pending + s.weigh Frame.due) := by
    simp [State.rig, hpending]
  convert Rig.Step.fire handler _ hbefore using 1
  rw [State.rig, Rig.mk.injEq]
  refine ⟨?_, ?_, ?_⟩
  . rw [client_silent hstack hframe hpoints hst, hclient]
    rfl
  . rw [hdue, add_zero, hdues, hbefore, hpending] at hrig
    apply add_right_cancel (b := handler ::ₘ handlers s'.pending)
    refine hrig.trans ?_
    change _ = handlers s'.pending + s.weigh Frame.due +
      HandlerCall.schedules (prog.handler handler s.shared).2 + _
    rw [Multiset.cons_add, Multiset.add_cons]
    congr 1
    ac_rfl
  . rw [hposts, add_zero, hpostss] at hrig'
    exact hrig'

theorem rig_post {n : Nat} {calls : List (HandlerCall H)}
    (hout : Outcome prog s (.handler (.v n :: calls)) frames s') (hp : Placed s)
    (hstack : s.stack s.currentThread = .handler (.v n :: calls) :: rest)
    : Rig.Step ext prog s.rig (s'.setStack s.currentThread (frames ++ rest)).rig := by
  have hrig := hout.rig_due hp hstack
  have hrig' := hout.rig_posts hp hstack
  obtain ⟨hpoints, hst, _⟩ := hout.silent rfl
  have hframes : handlers s'.pending = handlers s.pending ∧
      (frames.map Frame.due).sum = HandlerCall.schedules calls ∧
      (frames.map Frame.posts).sum = HandlerCall.posts calls ∧
      s'.client = s.client.post (.sem n) s.currentThread := by
    cases hout with
    | handlerVQuiet _ _ hqueue | handlerVWake _ _ _ _ hqueue =>
      refine ⟨rfl, by simp [Frame.due], by simp [Frame.posts], ?_⟩
      simp [State.client, Client.post, hqueue]
  obtain ⟨hpending, hdues, hpostss, hclient⟩ := hframes
  have hbefore : s.rig.posts = n ::ₘ (s'.setStack s.currentThread (frames ++ rest)).rig.posts := by
    rw [hpostss] at hrig'
    apply add_right_cancel (b := HandlerCall.posts calls)
    rw [← hrig', Multiset.cons_add, ← Multiset.add_cons]
    rfl
  convert Rig.Step.post s.currentThread n _ hbefore using 1
  rw [State.rig, Rig.mk.injEq]
  refine ⟨?_, ?_, rfl⟩
  . rw [client_silent hstack rfl hpoints hst, hclient]
    rfl
  . rw [hdues, hpending] at hrig
    exact add_right_cancel hrig

def Frame.isDrain : Frame U H → Bool
  | .tickDrain _ | .idle | .idleDrain => true
  | _ => false

theorem exec_drain (hexec : exec prog arrivals s frame = .ok (frames, s')) (hdrain : frame.isDrain = true)
    : (handlers s'.pending = handlers s.pending ∧ s'.shared = s.shared ∧
        (frames.map Frame.due).sum = 0 ∧ (frames.map Frame.posts).sum = 0) ∨
      ∃ handler old after,
        frames = [.handler (prog.handler handler s.shared).2, .endHandler old, after] ∧
        handlers s.pending = handler ::ₘ handlers s'.pending ∧
        s'.shared = (prog.handler handler s.shared).1 ∧ after.due = 0 ∧ after.posts = 0 := by
  cases frame with
  | tickDrain old =>
    simp only [exec, State.changeLevel, bind, Except.bind, pure, Except.pure] at hexec
    generalize hdue : s.checkIfDue prog false = due at hexec
    cases due with
    | error => contradiction
    | ok r =>
      obtain ⟨res, s₁⟩ := r
      obtain ⟨rfl, hpending, hshared⟩ | ⟨handler, hpending, rfl, hshared⟩ := State.checkIfDue_handlers hdue
      . left
        cases hyield : s₁.yieldOnReturn with
        | true =>
          simp only [hyield, ↓reduceIte, Except.ok.injEq, Prod.mk.injEq] at hexec
          obtain ⟨rfl, rfl⟩ := hexec
          exact ⟨hpending, hshared, rfl, rfl⟩
        | false =>
          simp only [hyield, Bool.false_eq_true, ↓reduceIte, Except.ok.injEq, Prod.mk.injEq] at hexec
          obtain ⟨rfl, rfl⟩ := hexec
          exact ⟨hpending, hshared, rfl, rfl⟩
      . right
        simp only [Except.ok.injEq, Prod.mk.injEq] at hexec
        obtain ⟨rfl, rfl⟩ := hexec
        exact ⟨handler, s.status, .tickDrain old, rfl, hpending, hshared, rfl, rfl⟩
  | idle =>
    simp only [exec, bind, Except.bind, pure, Except.pure] at hexec
    generalize hdue : State.checkIfDue { s with status := .idleMode } prog true = due at hexec
    cases due with
    | error => contradiction
    | ok r =>
      obtain ⟨res, s₁⟩ := r
      obtain ⟨rfl, hpending, hshared⟩ | ⟨handler, hpending, rfl, hshared⟩ := State.checkIfDue_handlers hdue
      . contradiction
      . right
        simp only [Except.ok.injEq, Prod.mk.injEq] at hexec
        obtain ⟨rfl, rfl⟩ := hexec
        exact ⟨handler, .idleMode, .idleDrain, rfl, hpending, hshared, rfl, rfl⟩
  | idleDrain =>
    simp only [exec, bind, Except.bind, pure, Except.pure] at hexec
    generalize hdue : s.checkIfDue prog false = due at hexec
    cases due with
    | error => contradiction
    | ok r =>
      obtain ⟨res, s₁⟩ := r
      obtain ⟨rfl, hpending, hshared⟩ | ⟨handler, hpending, rfl, hshared⟩ := State.checkIfDue_handlers hdue
      . left
        simp only [Except.ok.injEq, Prod.mk.injEq] at hexec
        obtain ⟨rfl, rfl⟩ := hexec
        exact ⟨hpending, hshared, rfl, rfl⟩
      . right
        simp only [Except.ok.injEq, Prod.mk.injEq] at hexec
        obtain ⟨rfl, rfl⟩ := hexec
        exact ⟨handler, s.status, .idleDrain, rfl, hpending, hshared, rfl, rfl⟩
  | _ => contradiction

theorem rig_drain (hexec : exec prog arrivals s frame = .ok (frames, s')) (hp : Placed s)
    (hstack : s.stack s.currentThread = frame :: rest) (hdrain : frame.isDrain = true)
    : (s'.setStack s.currentThread (frames ++ rest)).rig = s.rig ∨
      Rig.Step ext prog s.rig (s'.setStack s.currentThread (frames ++ rest)).rig := by
  have hout := outcome_of_exec hexec
  have hframe : frame.point? = none ∧ frame.due = 0 ∧ frame.posts = 0 := by
    cases frame <;> first | contradiction | exact ⟨rfl, rfl, rfl⟩
  obtain ⟨hpoint, hdue, hposts⟩ := hframe
  have hclient : s'.client = { s.client with shared := s'.shared } := by
    cases hout <;> first | contradiction | rfl
  obtain ⟨hpending, hshared, hdues, hpostss⟩ | ⟨handler, old, after, hframes, hpending, hshared, hafter⟩ :=
    exec_drain hexec hdrain
  . left
    rw [hshared] at hclient
    have := rig_silent hout hp hstack hpoint hclient 0
      (by rw [hpending, hdues, hdue, add_zero, add_zero]) (by rw [hpostss, hposts])
    rw [this, add_zero]
  . right
    rw [hshared] at hclient
    exact rig_fire hout hp hstack hpoint hframes hpending hclient hdue hposts hafter.1 hafter.2

theorem rig_schedule {handler : H} {fromNow : Nat} {type : IntType} {s₁ : State G U H}
    (hsched : s.schedule handler fromNow type = .ok s₁)
    : handlers s₁.pending = handler ::ₘ handlers s.pending ∧ s₁.client = s.client := by
  refine ⟨State.schedule_handlers hsched, ?_⟩
  obtain ⟨pending, rfl⟩ := State.schedule_eq_ok hsched
  rfl

theorem rig_step (hexec : exec prog arrivals s frame = .ok (frames, s')) (hp : Placed s)
    (hstack : s.stack s.currentThread = frame :: rest) (hext : ∀ a ∈ arrivals, ext a.handler)
    : (s'.setStack s.currentThread (frames ++ rest)).rig = s.rig ∨
      Rig.Step ext prog s.rig (s'.setStack s.currentThread (frames ++ rest)).rig := by
  have hout := outcome_of_exec hexec
  -- no interrupt is added or removed
  have hquiet : frame.point? = none → s'.client = s.client →
      handlers s'.pending + (frames.map Frame.due).sum = handlers s.pending + frame.due →
      (frames.map Frame.posts).sum = frame.posts →
      (s'.setStack s.currentThread (frames ++ rest)).rig = s.rig := by
    intro hpoint hclient hdue hposts
    rw [rig_silent hout hp hstack hpoint hclient 0 (by rw [hdue, add_zero]) hposts, add_zero]
  cases hframe : frame.point? with
  | some point => exact .inr (rig_thread hout hp hstack hframe)
  | none =>
    cases frame with
    | tickDrain | idle | idleDrain => exact rig_drain hexec hp hstack rfl
    | oneTick =>
      right
      simp only [exec, State.changeLevel, bind, Except.bind, pure, Except.pure] at hexec
      split at hexec
      . contradiction
      . next s₁ hall =>
        simp only [Except.ok.injEq, Prod.mk.injEq] at hexec
        obtain ⟨hframes, hs⟩ := hexec
        have harrived := scheduleAll_handlers hall
        have hpending : handlers s'.pending = handlers s₁.pending := by
          rw [← hs]
          obtain ⟨total, system, user, hadv⟩ := State.advanceTime_eq s₁
          rw [hadv]
        have hclient : s'.client = s.client := by
          cases hout
          rfl
        rw [rig_silent hout hp hstack rfl hclient ↑(arrivals.map fun a => a.handler)
          (by rw [hpending, harrived, ← hframes]; simp [Frame.due]) (by rw [← hframes]; rfl)]
        refine .arrive _ ?_
        intro handler hmem
        obtain ⟨a, ha, rfl⟩ := List.mem_map.mp (Multiset.mem_coe.mp hmem)
        exact hext a ha
    | handler calls =>
      cases calls with
      | nil =>
        cases hout
        exact .inl (hquiet rfl rfl rfl rfl)
      | cons call calls =>
        cases call with
        | timerInterruptHandler =>
          cases hout <;> exact .inl (hquiet rfl rfl (by simp [Frame.due, HandlerCall.schedules])
            (by simp [Frame.posts, HandlerCall.posts]))
        | v n => exact .inr (rig_post hout hp hstack)
        | schedule h fromNow type =>
          simp only [exec, bind, Except.bind, pure, Except.pure] at hexec
          split at hexec
          . contradiction
          . next s₁ hsched =>
            simp only [Except.ok.injEq, Prod.mk.injEq] at hexec
            obtain ⟨rfl, rfl⟩ := hexec
            obtain ⟨hpending, hclient⟩ := rig_schedule hsched
            refine .inl (hquiet rfl hclient ?_ ?_)
            . simp [hpending, Frame.due, HandlerCall.schedules]
            . simp [Frame.posts, HandlerCall.posts]
    | schedule h fromNow type =>
      simp only [exec, bind, Except.bind, pure, Except.pure] at hexec
      split at hexec
      . contradiction
      . next s₁ hsched =>
        simp only [Except.ok.injEq, Prod.mk.injEq] at hexec
        obtain ⟨rfl, rfl⟩ := hexec
        obtain ⟨hpending, hclient⟩ := rig_schedule hsched
        refine .inl (hquiet rfl hclient ?_ rfl)
        change handlers s₁.pending + 0 = handlers s.pending + {h}
        rw [hpending, ← Multiset.singleton_add, add_zero, add_comm]
    | _ =>
      first
      | contradiction
      | (cases hout <;> exact .inl (hquiet rfl rfl rfl rfl))

end Simulation

theorem System.ReachableBy.rig_step {ext : H → Prop} {sys : System G U H} {s s' : State G U H}
    (h : sys.ReachableBy ext s) (hstep : StepBy ext sys.toProgram s s')
    : s'.rig = s.rig ∨ Rig.Step ext sys.toProgram s.rig s'.rig := by
  obtain ⟨arrivals, hext, hstep⟩ := hstep
  unfold step at hstep
  split at hstep
  . contradiction
  . next frame rest hstack =>
    split at hstep
    . contradiction
    . next frames s₁ hexec =>
      injection hstep with hstep
      subst hstep
      exact Nachos.rig_step hexec h.reachable.inv.placed hstack hext

theorem System.ReachableBy.rig {ext : H → Prop} {sys : System G U H} {s : State G U H}
    (h : sys.ReachableBy ext s)
    : sys.RigReachable ext s.rig := by
  refine Transition.Reachable.simulation ?_ (fun s s' hreach hstep => rig_step hreach hstep) h
  rintro s ⟨pending, hext, rfl⟩
  have hclient : (boot sys pending).client = sys.clientBoot := System.Boot.client ⟨pending, rfl⟩
  refine ⟨hclient, ?_, ?_⟩
  . intro handler hmem
    have hdue : (boot sys pending).rig.due = handlers pending := by
      simp [State.rig, State.weigh, boot, Frame.due]
    rw [hdue] at hmem
    obtain ⟨toOccur, hpending, rfl⟩ := List.mem_map.mp (Multiset.mem_coe.mp hmem)
    exact hext toOccur hpending
  . simp [State.rig, State.weigh, boot, Frame.posts]

theorem System.RigReachable.posts {ext : H → Prop} {sys : System G U H} {r : Rig G U H}
    (h : sys.RigReachable ext r)
    : ∀ n ∈ r.posts, ∃ handler g, .v n ∈ (sys.handler handler g).2 := by
  refine Transition.Reachable.invariant
    (P := fun r : Rig G U H => ∀ n ∈ r.posts, ∃ handler g, .v n ∈ (sys.handler handler g).2) ?_ ?_ h
  . rintro r ⟨_, _, hposts⟩ n hn
    simp [hposts] at hn
  . intro r r' _ hcalls hstep n hn
    cases hstep with
    | thread | arrive => exact hcalls n hn
    | post t n' posts hposts => exact hcalls n (by rw [hposts]; exact Multiset.mem_cons_of_mem hn)
    | fire handler =>
      obtain hold | hnew := Multiset.mem_add.mp hn
      . exact hcalls n hold
      . exact ⟨handler, r.client.shared, HandlerCall.mem_posts hnew⟩

theorem System.RigReachable.client {ext : H → Prop} {sys : System G U H} {r : Rig G U H}
    (h : sys.RigReachable ext r)
    : sys.ClientReachable r.client := by
  refine Transition.Reachable.simulation (fun r hboot => hboot.1) ?_ h
  intro r r' hreach hstep
  cases hstep with
  | thread t point points rest a' ht hawake hpoints hact =>
    exact .inr (.thread t point points rest a' ht hawake hpoints hact)
  | fire handler => exact .inr (.interrupt handler)
  | post t n _ hposts =>
    obtain ⟨handler, g, hcall⟩ := posts hreach n (by rw [hposts]; exact Multiset.mem_cons_self ..)
    exact .inr (.interruptV t n handler g hcall)
  | arrive => exact .inl rfl

/-! ### Where the frames of interrupt handlers and of `Schedule` are -/

section Frames

variable {sys : System G U H} {s : State G U H}

def Stack.HandlerOnTop (stack : List (Frame U H)) : Prop :=
  ∀ calls, .handler calls ∈ stack →
    ∃ rest, (∀ calls', .handler calls' ∉ rest) ∧
      (stack = .handler calls :: rest ∨ ∃ now, stack = .setLevel now :: .handler calls :: rest)

theorem Stack.HandlerOnTop.setLevel {frame : Frame U H} {rest : List (Frame U H)}
    (h : HandlerOnTop (frame :: rest)) {calls : List (HandlerCall H)} (hmem : .handler calls ∈ rest)
    : ∃ now rest', frame = .setLevel now ∧ rest = .handler calls :: rest' ∧
        ∀ calls', .handler calls' ∉ rest' := by
  obtain ⟨rest', hnone, heq | ⟨now, heq⟩⟩ := h calls (List.mem_cons_of_mem _ hmem)
  . injection heq with _ heq
    subst heq
    exact absurd hmem (hnone calls)
  . injection heq with hframe heq
    exact ⟨now, rest', hframe, heq, hnone⟩

theorem Stack.HandlerOnTop.append {frame : Frame U H} {frames rest : List (Frame U H)}
    (h : HandlerOnTop (frame :: rest)) (hframe : ∀ now, frame ≠ .setLevel now)
    (hframes : ∀ calls, .handler calls ∈ frames → ∃ tail, (∀ calls', .handler calls' ∉ tail) ∧
      (frames = .handler calls :: tail ∨ ∃ now, frames = .setLevel now :: .handler calls :: tail))
    : HandlerOnTop (frames ++ rest) := by
  have hrest : ∀ calls, .handler calls ∉ rest := by
    intro calls hmem
    obtain ⟨now, _, heq, _⟩ := h.setLevel hmem
    exact hframe now heq
  intro calls hmem
  obtain hmem | hmem := List.mem_append.mp hmem
  . obtain ⟨tail, hnone, heq⟩ := hframes calls hmem
    refine ⟨tail ++ rest, ?_, ?_⟩
    . intro calls' hmem'
      obtain hmem' | hmem' := List.mem_append.mp hmem'
      . exact hnone calls' hmem'
      . exact hrest calls' hmem'
    . obtain rfl | ⟨now, rfl⟩ := heq
      . exact .inl rfl
      . exact .inr ⟨now, rfl⟩
  . exact absurd hmem (hrest calls)

theorem handlerOnTop (h : sys.Reachable s) : ∀ t, t < s.numThreads → Stack.HandlerOnTop (s.stack t) := by
  refine h.stack_invariant (Q := Stack.HandlerOnTop) (by simp [Stack.HandlerOnTop])
    (by simp [Stack.HandlerOnTop]) ?_
  intro s s' frame frames rest hinv hstack hout htop
  cases hout with
  | setLevelTick hhandler =>
    intro calls hmem
    -- the handler below would have to run with `inHandler`
    have hmem : .handler calls ∈ rest := by simpa using hmem
    obtain ⟨_, rest', _, rfl, _⟩ := htop.setLevel hmem
    obtain ⟨m, ⟨_, rfl⟩, m', ⟨hm, _⟩, _⟩ := hinv.moded.current hinv.placed.current_lt hstack
    have := congrArg Mode.inHandler hm
    rw [State.mode, hhandler] at this
    contradiction
  | setLevelQuiet now =>
    intro calls hmem
    obtain ⟨_, rest', _, heq, hnone⟩ := htop.setLevel hmem
    exact ⟨rest', hnone, .inl heq⟩
  | tickFire _ handler | idleFire handler | idleDrainFire handler =>
    refine htop.append (by simp) ?_
    intro calls hmem
    obtain rfl : calls = (sys.handler handler s.shared).2 := by simpa using hmem
    exact ⟨_, by simp, .inl rfl⟩
  | handlerTimerIdle calls' | handlerTimer calls' | handlerSchedule _ _ _ calls' =>
    refine htop.append (by simp) ?_
    intro calls hmem
    obtain rfl : calls = calls' := by simpa using hmem
    exact ⟨[], by simp, .inl rfl⟩
  | handlerVQuiet _ calls' | handlerVWake _ calls' =>
    refine htop.append (by simp) ?_
    intro calls hmem
    obtain rfl : calls = calls' := by simpa using hmem
    exact ⟨[], by simp, .inr ⟨s.level, rfl⟩⟩
  | user u =>
    refine htop.append (by simp) ?_
    intro calls hmem
    cases hcall : (sys.code u s.shared).2.1 <;> simp [hcall, Call.frames] at hmem
  | _ => exact htop.append (by simp) (by simp)

theorem inHandler_of_mem (h : sys.Reachable s) {t : Nat} (ht : t < s.numThreads)
    {calls : List (HandlerCall H)} (hmem : .handler calls ∈ s.stack t)
    : s.inHandler = true := by
  have hok := h.inv.moded t ht
  have hmode : (s.modeOf t).inHandler = true := by
    obtain ⟨rest, _, heq | ⟨now, heq⟩⟩ := handlerOnTop h t ht calls hmem
    . rw [heq] at hok
      obtain ⟨m, ⟨hm, _⟩, _⟩ := hok
      exact congrArg Mode.inHandler hm
    . rw [heq] at hok
      obtain ⟨m, ⟨_, rfl⟩, m', ⟨hm, _⟩, _⟩ := hok
      exact congrArg Mode.inHandler hm
  unfold State.modeOf at hmode
  split at hmode
  . exact hmode
  . contradiction

theorem posts_eq_zero (h : sys.Reachable s) (hhandler : s.inHandler = false) : s.rig.posts = 0 := by
  apply Multiset.eq_zero_of_forall_notMem
  intro n hmem
  obtain ⟨t, ht, frame, hframe, hmem⟩ := State.mem_weigh.mp hmem
  cases frame with
  | handler calls =>
    rw [inHandler_of_mem h ht hframe] at hhandler
    contradiction
  | _ => exact absurd hmem (Multiset.notMem_zero _)

theorem schedule_mem (h : sys.Reachable s)
    : ∀ t, t < s.numThreads → ∀ handler fromNow type, .schedule handler fromNow type ∈ s.stack t →
        ∃ u, s.stack t = [.schedule handler fromNow type, .user u, .finish] ∧
          ∃ u₀ g, (sys.code u₀ g).2 = (.schedule handler fromNow type, u) := by
  refine h.stack_invariant (Q := fun stack => ∀ handler fromNow type,
    .schedule handler fromNow type ∈ stack →
      ∃ u, stack = [.schedule handler fromNow type, .user u, .finish] ∧
        ∃ u₀ g, (sys.code u₀ g).2 = (.schedule handler fromNow type, u)) (by simp) (by simp) ?_
  intro s s' frame frames rest hinv hstack hout hcalls handler fromNow type hmem
  have hrest : .schedule handler fromNow type ∉ rest := by
    intro hmem
    obtain ⟨u, heq, _⟩ := hcalls handler fromNow type (List.mem_cons_of_mem _ hmem)
    injection heq with _ heq
    subst heq
    simp at hmem
  have hframes : .schedule handler fromNow type ∈ frames :=
    (List.mem_append.mp hmem).resolve_right hrest
  cases hout with
  | user u =>
    obtain ⟨_, rfl⟩ := hinv.moded.current hinv.placed.current_lt hstack
    generalize hcode : (sys.code u s.shared).2 = res at hframes
    obtain ⟨call, u'⟩ := res
    cases call with
    | schedule handler' fromNow' type' =>
      obtain ⟨rfl, rfl, rfl⟩ : handler = handler' ∧ fromNow = fromNow' ∧ type = type' := by
        simpa [Call.frames] using hframes
      exact ⟨u', rfl, u, s.shared, hcode⟩
    | _ => simp [Call.frames] at hframes
  | _ => simp at hframes

end Frames

end Nachos
