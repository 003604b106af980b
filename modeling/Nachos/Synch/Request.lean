import Nachos.Synch.Units

/-!
This module contains the use of a device that works on one request at a time: a thread takes a lock,
makes the request, and waits on a semaphore until the interrupt handler of the device signals it.
`SynchDisk` and `PostOffice::Send` do this. The unit of the semaphore that a thread takes is the one
for its own request.
-/

namespace Nachos

open Function (update)

def Call.isSchedule [DecidableEq H] (done : H) : Call U H → Bool
  | .schedule handler _ _ => handler = done
  | _ => false

/--
What a call has to do with the device. `done` is the handler for the completion of a request, and `sent` says
whether a thread has made a request and now calls `P` on semaphore `n`.
-/
structure Call.Sends [DecidableEq H] (n : Nat) (done : H) (sent : U → Bool) (before : Bool)
    (call : Call U H) (u : U) : Prop where
  wait : before = call.isP n
  request : sent u = call.isSchedule done
  not_v : call ≠ .v n
  fork : ∀ func, call = .fork func → sent func = false

theorem Call.rename_sends [DecidableEq K] {names : Rename U V H K} {n : Nat} {done : K} {sent : V → Bool}
    (call : Call U H) (hsem : ∀ n', names.sem n' ≠ n) (hhandler : ∀ handler, names.handler handler ≠ done)
    (hfunc : ∀ f, sent (names.func f) = false) {u : V} (hu : sent u = false)
    : (call.rename names).Sends n done sent false u where
  wait := by cases call <;> simp [Call.rename, Call.isP, hsem]
  request := by cases call <;> simp [Call.rename, Call.isSchedule, hhandler, hu]
  not_v := by cases call <;> simp [Call.rename, hsem]
  fork := by
    intro func heq
    cases call with
    | fork f =>
      injection heq with heq
      exact heq ▸ hfunc f
    | _ => contradiction

theorem HandlerCall.count_posts_rename {names : Rename U V H K} {n : Nat}
    (hsem : ∀ n', names.sem n' ≠ n) (calls : List (HandlerCall H))
    : (posts (calls.map (HandlerCall.rename names))).count n = 0 := by
  induction calls with
  | nil => rfl
  | cons call calls ih =>
    cases call with
    | v n' =>
      simp only [List.map_cons, HandlerCall.rename, posts, Multiset.count_cons_of_ne (Ne.symm (hsem n'))]
      exact ih
    | _ => exact ih

theorem HandlerCall.count_schedules_rename [DecidableEq K] {names : Rename U V H K} {done : K}
    (hhandler : ∀ handler, names.handler handler ≠ done) (calls : List (HandlerCall H))
    : (schedules (calls.map (HandlerCall.rename names))).count done = 0 := by
  induction calls with
  | nil => rfl
  | cons call calls ih =>
    cases call with
    | schedule handler =>
      simp only [List.map_cons, HandlerCall.rename, schedules,
        Multiset.count_cons_of_ne (Ne.symm (hhandler handler))]
      exact ih
    | _ => exact ih

structure Request [DecidableEq H] (sys : System G U H) (l n : Nat) (done : H) extends Holding sys l where
  sent : U → Bool
  held_of_sent : ∀ u, sent u = true → held u = true
  sent_main : sent sys.main = false
  sends : ∀ u g, (sys.code u g).2.1.Sends n done sent (sent u) (sys.code u g).2.2
  value : sys.value n = 0
  posts : ∀ handler g,
    (HandlerCall.posts (sys.handler handler g).2).count n = if handler = done then 1 else 0
  schedules : ∀ handler g, (HandlerCall.schedules (sys.handler handler g).2).count done = 0

namespace Request

variable [DecidableEq H] {sys : System G U H} {l n : Nat} {done : H} (d : Request sys l n done)

def flight (points : List (Point U)) : Bool :=
  match points with
  | .user u :: _ => d.sent u
  | .p (.sem n') :: _ | .pWhile (.sem n') :: _ => n' = n
  | _ => false

variable {d} {call : Call U H} {u : U} {a a' : Client G U} {t : Nat} {point : Point U}
  {points rest : List (Point U)}

theorem sends_of_calls (h : sys.Calls call u) : ∃ before, call.Sends n done d.sent before u := by
  obtain ⟨u₀, g, hcode⟩ := h
  have := d.sends u₀ g
  rw [hcode] at this
  exact ⟨d.sent u₀, this⟩

theorem sent_of_calls (h : sys.Calls call u) : d.sent u = call.isSchedule done := by
  obtain ⟨before, hsends⟩ := d.sends_of_calls h
  exact hsends.request

theorem sent_of_enters (h : sys.Enters n u) : d.sent u = false := by
  cases h with
  | call call hcall hreturns =>
    rw [d.sent_of_calls hcall]
    cases call <;> first | rfl | contradiction
  | fork next hcall =>
    obtain ⟨before, hsends⟩ := d.sends_of_calls hcall
    exact hsends.fork u rfl

theorem held_of_p (h : sys.Calls (.p n) u) : d.held u = true := by
  obtain ⟨u₀, g, hcode⟩ := h
  have hsends := d.sends u₀ g
  have hkeeps := d.code u₀ g
  rw [hcode] at hsends hkeeps
  have hsent : d.sent u₀ = true := by simp [hsends.wait, Call.isP]
  exact Eq.trans hkeeps (d.held_of_sent u₀ hsent)

theorem flight_eq (d : Request sys l n done) (points : List (Point U))
    : d.flight points = ((running points).any d.sent || waiting n points) := by
  unfold flight running waiting
  split <;> simp

theorem owns_of_flight (hruns : Runs sys points) (h : d.flight points = true)
    : d.owns points = true := by
  cases hruns with
  | user u => exact d.held_of_sent u h
  | p n' u hcall | pWhile n' u hcall =>
    obtain rfl : n' = n := by simpa [flight] using h
    exact d.held_of_p hcall
  | _ => contradiction

theorem flight_call {before : Bool} (h : call.Sends n done d.sent before u)
    : (d.flight (call.points u ++ [.finish])).toNat =
        before.toNat + (call.isSchedule done).toNat := by
  have hrequest := h.request
  have hwait := h.wait
  cases call with
  | schedule handler =>
    change (d.sent u).toNat = _
    simp [hrequest, hwait, Call.isP]
  | yield | setLevel =>
    change (d.sent u).toNat = _
    simp [hrequest, hwait, Call.isP, Call.isSchedule]
  | p n' =>
    change (decide (n' = n)).toNat = _
    simp [hwait, Call.isP, Call.isSchedule]
  | _ =>
    simp only [hwait, Call.isP, Call.isSchedule]
    rfl

theorem count_schedules (call : Call U H) : call.schedules.count done = (call.isSchedule done).toNat := by
  cases call with
  | schedule handler =>
    by_cases h : handler = done
    . simp [Call.schedules, Call.isSchedule, h]
    . simp [Call.schedules, Call.isSchedule, h, Ne.symm h]
  | _ => rfl

theorem ne_of_calls_v {n' : Nat} (d : Request sys l n done) (h : sys.Calls (.v n') u) : n' ≠ n := by
  obtain ⟨before, hsends⟩ := d.sends_of_calls h
  rintro rfl
  exact hsends.not_v rfl

theorem balance_act (hact : Client.Act sys.toProgram a t point points a')
    (hruns : Runs sys (point :: rest))
    : ((point.schedules sys.toProgram a.shared).count done : Int) + (a'.sem (.sem n)).value +
        (d.flight (point :: rest)).toNat =
      (a.sem (.sem n)).value + (d.flight (points ++ rest)).toNat := by
  have hflight := d.flight_eq (point :: rest)
  have hflight' := d.flight_eq (points ++ rest)
  have hunits := hact.units (n := n) hruns
  have hschedules : running (point :: rest) = none →
      (point.schedules sys.toProgram a.shared).count done = 0 := by
    intro hrunning
    cases point <;> first | rfl | contradiction
  generalize hbefore : point :: rest = before at hunits hflight hschedules ⊢
  generalize points ++ rest = after at hunits hflight' ⊢
  cases hunits with
  | call u _ hvalue =>
    obtain ⟨rfl, rfl⟩ := List.cons.inj hbefore
    have hcall := flight_call (d.sends u a.shared)
    change ((sys.code u a.shared).2.1.schedules.count done : Int) + _ + ((d.sent u).toNat : Int) = _
    rw [hcall, count_schedules, hvalue]
    omega
  | take _ u _ hcall hrunning hwaiting _ hvalue =>
    rw [hflight, hflight', hschedules hrunning, hrunning, hwaiting, hvalue]
    simp [d.sent_of_calls hcall, Call.isSchedule]
  | give _ u _ hcall => exact absurd rfl (d.ne_of_calls_v hcall)
  | enter _ u _ henters hrunning hwaiting _ hvalue =>
    rw [hflight, hflight', hschedules hrunning, hrunning, hwaiting, hvalue]
    simp [d.sent_of_enters henters]
  | inside _ _ _ hrunning hrunning' hwaiting _ hvalue =>
    rw [hflight, hflight', hschedules hrunning, hrunning, hrunning', hwaiting, hvalue]
    simp

/-! ### At most one request is outstanding -/

def numFlight (d : Request sys l n done) (a : Client G U) : Nat :=
  Nat.count (fun t => d.flight (a.points t) = true) a.numThreads

theorem owner_of_flight (d : Request sys l n done) (h : sys.ClientReachable a) (ht : t < a.numThreads)
    (hflight : d.flight (a.points t) = true)
    : a.owner l = some t := by
  have howns := d.owns_of_flight (h.runs t ht) hflight
  exact of_decide_eq_true ((d.owner_iff h t ht).trans howns)

theorem numFlight_le_one (d : Request sys l n done) (h : sys.ClientReachable a) : d.numFlight a ≤ 1 := by
  apply Nat.count_le_one_of_unique
  intro t t' ht ht' hflight hflight'
  have howner := d.owner_of_flight h ht hflight
  rw [d.owner_of_flight h ht' hflight'] at howner
  injection howner with heq
  exact heq.symm

theorem numFlight_act (hact : Client.Act sys.toProgram a t point points a') (ht : t < a.numThreads)
    (hpoints : a.points t = point :: rest)
    : d.numFlight (a'.setPoints t (points ++ rest)) + (d.flight (point :: rest)).toNat =
        d.numFlight a + (d.flight (points ++ rest)).toNat :=
  hact.num ht hpoints (fun _ => rfl)

section Rig

variable {ext : H → Prop} {r : Rig G U H}

theorem outstanding (d : Request sys l n done) (hext : ¬ext done) (h : sys.RigReachable ext r)
    : (r.due.count done : Int) + r.posts.count n + (r.client.sem (.sem n)).value =
        d.numFlight r.client := by
  refine Transition.Reachable.invariant (P := fun r : Rig G U H =>
    (r.due.count done : Int) + r.posts.count n + (r.client.sem (.sem n)).value = d.numFlight r.client)
    ?_ ?_ h
  . rintro r ⟨hclient, hdue, hposts⟩
    have hcount : r.due.count done = 0 := by
      rw [Multiset.count_eq_zero]
      exact fun hmem => hext (hdue done hmem)
    have hflight : d.numFlight sys.clientBoot = 0 := by
      by_contra hne
      obtain ⟨t, ht, hflight⟩ := Nat.count_ne_iff_exists.mp hne
      obtain rfl : t = 0 := by simpa [System.clientBoot] using ht
      change d.sent sys.main = true at hflight
      rw [d.sent_main] at hflight
      contradiction
    rw [hclient, hcount, hposts, hflight]
    simp [System.clientBoot, d.value]
  . intro r r' hreach hbalance hstep
    cases hstep with
    | thread t point points rest a' ht hawake hpoints hact =>
      have hruns := (System.RigReachable.client hreach).runs t ht
      rw [hpoints] at hruns
      have hact' := d.balance_act hact hruns
      have hflight := d.numFlight_act hact ht hpoints
      simp only [Multiset.count_add, Client.setPoints_sem]
      push_cast
      omega
    | fire handler due hdue =>
      have hposts := d.posts handler r.client.shared
      have hschedules := d.schedules handler r.client.shared
      rw [hdue] at hbalance
      simp only [Multiset.count_add, hposts, hschedules]
      change _ = (d.numFlight r.client : Int)
      by_cases hdone : handler = done
      . subst hdone
        simp only [Multiset.count_cons_self] at hbalance
        simp only [if_true]
        push_cast at hbalance ⊢
        omega
      . rw [Multiset.count_cons_of_ne (Ne.symm hdone)] at hbalance
        simpa [hdone] using hbalance
    | post t n' posts hposts =>
      rw [hposts] at hbalance
      change (r.due.count done : Int) + posts.count n + ((r.client.post (.sem n') t).sem (.sem n)).value =
        d.numFlight r.client
      by_cases hn : n' = n
      . subst hn
        simp only [Multiset.count_cons_self] at hbalance
        simp only [Client.post_sem, Function.update_self]
        push_cast at hbalance
        omega
      . rw [Multiset.count_cons_of_ne (Ne.symm hn)] at hbalance
        simpa [Ne.symm hn] using hbalance
    | arrive arrived harrived =>
      have hcount : arrived.count done = 0 := by
        rw [Multiset.count_eq_zero]
        exact fun hmem => hext (harrived done hmem)
      simp only [Multiset.count_add, hcount]
      exact hbalance

theorem due_le_one (d : Request sys l n done) (hext : ¬ext done) (h : sys.RigReachable ext r)
    : r.due.count done + r.posts.count n ≤ 1 := by
  have hbalance := d.outstanding hext h
  have hle := d.numFlight_le_one h.client
  have hvalue := h.client.semInv.nonneg (.sem n)
  omega

theorem idle (d : Request sys l n done) (hext : ¬ext done) (h : sys.RigReachable ext r)
    (ht : t < r.client.numThreads) (hpoints : r.client.points t = .user u :: rest)
    (hheld : d.held u = true) (hsent : d.sent u = false)
    : r.due.count done = 0 ∧ r.posts.count n = 0 ∧ (r.client.sem (.sem n)).value = 0 := by
  have hnone : d.numFlight r.client = 0 := by
    by_contra hne
    obtain ⟨t', ht', hflight⟩ := Nat.count_ne_iff_exists.mp hne
    have howner' := d.owner_of_flight h.client ht' hflight
    have howner := d.owner_iff h.client t ht
    rw [hpoints] at howner
    have heq : r.client.owner l = some t := of_decide_eq_true (howner.trans hheld)
    rw [heq] at howner'
    injection howner' with htt
    subst htt
    rw [hpoints] at hflight
    change d.sent u = true at hflight
    rw [hsent] at hflight
    contradiction
  have hbalance := d.outstanding hext h
  have hvalue := h.client.semInv.nonneg (.sem n)
  rw [hnone] at hbalance
  omega

theorem held_of_request {g : G} (d : Request sys l n done)
    (h : (sys.code u g).2.1.isSchedule done = true)
    : d.held u = true ∧ d.sent u = false := by
  have hsends := d.sends u g
  have hkeeps := d.code u g
  have hheld := d.held_of_sent _ (hsends.request.trans h)
  generalize (sys.code u g).2.1 = call at h hsends hkeeps
  cases call with
  | schedule handler => exact ⟨Eq.trans (Eq.symm hkeeps) hheld, hsends.wait⟩
  | _ => contradiction

structure Busy (sys : System G U H) (done : H) (busy : G → Bool) : Prop where
  init : busy sys.globals = false
  code : ∀ u g, busy (sys.code u g).1 = ((sys.code u g).2.1.isSchedule done || busy g)
  handler : ∀ handler g, busy (sys.handler handler g).1 = (busy g && decide (handler ≠ done))

theorem due_eq_busy (d : Request sys l n done) (hext : ¬ext done) {busy : G → Bool}
    (hbusy : Busy sys done busy) (h : sys.RigReachable ext r)
    : r.due.count done = (busy r.client.shared).toNat := by
  refine Transition.Reachable.invariant (P := fun r : Rig G U H =>
    r.due.count done = (busy r.client.shared).toNat) ?_ ?_ h
  . rintro r ⟨hclient, hdue, _⟩
    rw [hclient]
    change _ = (busy sys.globals).toNat
    rw [hbusy.init, Bool.toNat_false, Multiset.count_eq_zero]
    exact fun hmem => hext (hdue done hmem)
  . intro r r' hreach heq hstep
    cases hstep with
    | thread t point points rest a' ht hawake hpoints hact =>
      rw [Multiset.count_add]
      cases hact with
      | user u =>
        change _ + (sys.code u r.client.shared).2.1.schedules.count done =
          (busy (sys.code u r.client.shared).1).toNat
        rw [count_schedules, hbusy.code]
        cases hschedule : (sys.code u r.client.shared).2.1.isSchedule done with
        | false => simpa using heq
        | true =>
          obtain ⟨hheld, hsent⟩ := d.held_of_request hschedule
          obtain ⟨hdue, _⟩ := d.idle hext hreach ht hpoints hheld hsent
          simp [hdue]
      | _ => exact heq
    | fire handler due hdue =>
      have hle := d.due_le_one hext hreach
      have hschedules := d.schedules handler r.client.shared
      change _ = (busy (sys.handler handler r.client.shared).1).toNat
      rw [hbusy.handler, Multiset.count_add, hschedules]
      rw [hdue] at heq hle
      by_cases hdone : handler = done
      . subst hdone
        simp only [Multiset.count_cons_self] at hle
        simp only [ne_eq, not_true_eq_false, decide_false, Bool.and_false, Bool.toNat_false]
        omega
      . rw [Multiset.count_cons_of_ne (Ne.symm hdone)] at heq
        simpa [hdone] using heq
    | post => exact heq
    | arrive arrived harrived =>
      have hcount : arrived.count done = 0 := by
        rw [Multiset.count_eq_zero]
        exact fun hmem => hext (harrived done hmem)
      rw [Multiset.count_add, hcount]
      exact heq

theorem due_eq_pending (d : Request sys l n done) {s : State G U H} (h : sys.Reachable s)
    (hnone : ∀ t, t < s.numThreads → ∀ fromNow type, .schedule done fromNow type ∉ s.stack t)
    : s.rig.due.count done = (handlers s.pending).count done := by
  have hweigh : (s.weigh Frame.due).count done = 0 := by
    rw [Multiset.count_eq_zero]
    intro hmem
    obtain ⟨t, ht, frame, hframe, hmem⟩ := State.mem_weigh.mp hmem
    cases frame with
    | schedule handler fromNow type =>
      obtain rfl : done = handler := Multiset.mem_singleton.mp hmem
      exact hnone t ht fromNow type hframe
    | handler calls =>
      obtain ⟨handler, g, hsuffix⟩ := handler_calls h t ht calls hframe
      obtain ⟨fromNow, type, hcall⟩ := HandlerCall.mem_schedules.mp hmem
      have hschedules := d.schedules handler g
      rw [Multiset.count_eq_zero] at hschedules
      exact hschedules (HandlerCall.mem_schedules.mpr ⟨fromNow, type, hsuffix.subset hcall⟩)
    | _ => exact absurd hmem (Multiset.notMem_zero _)
  rw [State.rig, Multiset.count_add, hweigh, Nat.add_zero]

structure Waits (d : Request sys l n done) (s : State G U H) (t : Nat) : Prop where
  lt : t < s.numThreads
  flight : d.flight (s.client.points t) = true
  scheduled : ∀ fromNow type, .schedule done fromNow type ∉ s.stack t
  unposted : s.syncLog.countP (SyncEvent.isV (.sem n)) = s.syncLog.countP (SyncEvent.isP (.sem n))

theorem flight_of_schedule (d : Request sys l n done) {s : State G U H} (h : sys.Reachable s)
    (ht : t < s.numThreads) {fromNow : Nat} {type : IntType} (hmem : .schedule done fromNow type ∈ s.stack t)
    : d.flight (s.client.points t) = true := by
  obtain ⟨u, hstack, u₀, g, hcode⟩ := schedule_mem h t ht done fromNow type hmem
  have hsent : d.sent u = true := by
    rw [d.sent_of_calls ⟨u₀, g, hcode⟩]
    simp [Call.isSchedule]
  have hpoints : s.client.points t = [.user u, .finish] := by
    change (s.stack t).filterMap Frame.point? = _
    rw [hstack]
    rfl
  rw [hpoints]
  exact hsent

theorem unposted_iff (d : Request sys l n done) {s : State G U H} (h : sys.Reachable s)
    : s.syncLog.countP (SyncEvent.isV (.sem n)) = s.syncLog.countP (SyncEvent.isP (.sem n)) ↔
        (s.sem (.sem n)).value = 0 := by
  have hconserved := h.client.semInv.conserved (.sem n)
  change (s.sem (.sem n)).value + s.syncLog.countP (SyncEvent.isP (.sem n)) =
    sys.value n + s.syncLog.countP (SyncEvent.isV (.sem n)) at hconserved
  rw [d.value] at hconserved
  omega

theorem pending_iff (d : Request sys l n done) (hext : ¬ext done) {s : State G U H}
    (h : sys.ReachableBy ext s)
    : (handlers s.pending).count done + s.rig.posts.count n ≤ 1 ∧
      ((handlers s.pending).count done + s.rig.posts.count n = 1 ↔
        ∃ t, s.owner l = some t ∧ d.Waits s t) := by
  have hrig := h.rig
  have hs := h.reachable
  have hbalance := d.outstanding hext hrig
  have hle : d.numFlight s.client ≤ 1 := d.numFlight_le_one hrig.client
  have hnonneg := hrig.client.semInv.nonneg (.sem n)
  have hdue : s.rig.due.count done = (handlers s.pending).count done + (s.weigh Frame.due).count done :=
    Multiset.count_add _ _ _
  change (s.rig.due.count done : Int) + s.rig.posts.count n + (s.sem (.sem n)).value =
    d.numFlight s.client at hbalance
  change 0 ≤ (s.sem (.sem n)).value at hnonneg
  refine ⟨by omega, ?_, ?_⟩
  . intro hone
    have hflight : d.numFlight s.client ≠ 0 := by omega
    obtain ⟨t, ht, hflight⟩ := Nat.count_ne_iff_exists.mp hflight
    refine ⟨t, d.owner_of_flight hrig.client ht hflight, ht, hflight, ?_, ?_⟩
    . intro fromNow type hmem
      -- it would be due a second time
      have hpos : 0 < (s.weigh Frame.due).count done := by
        rw [Multiset.count_pos]
        exact State.mem_weigh.mpr ⟨t, ht, _, hmem, Multiset.mem_singleton_self done⟩
      omega
    . rw [d.unposted_iff hs]
      omega
  . rintro ⟨t, _, hwaits⟩
    have hpos : 0 < d.numFlight s.client := Nat.count_pos_of hwaits.lt hwaits.flight
    have hvalue := (d.unposted_iff hs).mp hwaits.unposted
    have hsame : s.rig.due.count done = (handlers s.pending).count done := by
      apply d.due_eq_pending hs
      intro t' ht' fromNow type hmem
      have hflight := d.flight_of_schedule hs ht' hmem
      have heq : t' = t := Nat.eq_of_count_le_one hle ht' hwaits.lt hflight hwaits.flight
      subst heq
      exact hwaits.scheduled fromNow type hmem
    omega

end Rig

end Request

end Nachos
