import Nachos.Network.Delivery

/-!
This module contains any number of machines on a network. Mail is delivered in the order in which it was
handed to the network, uncorrupted and at most once, and the two semaphores of a post office always agree
with the state of its network interface.
-/

namespace Nachos

open Function (update)

namespace PostOffice

variable {ι : Type} [DecidableEq ι] {numBoxes : Nat} {X C H : Type}

abbrev MachineState (numBoxes : Nat) (X C H : Type) :=
  State (Store numBoxes X) (Spot numBoxes C) (Handler H)

structure Net (ι : Type) (numBoxes : Nat) (X C H : Type) where
  machine : ι → Machine numBoxes X C H
  netAddr_inj : ∀ i j, (machine i).netAddr = (machine j).netAddr → i = j

/--
`wire` is what was handed to the sockets so far, and by which machine.
-/
structure NetState (ι : Type) (numBoxes : Nat) (X C H : Type) where
  machine : ι → MachineState numBoxes X C H
  wire : List (ι × Handed numBoxes)

namespace NetState

variable (n : NetState ι numBoxes X C H)

def socket (netAddr : Int32) : List (ι × Handed numBoxes) :=
  n.wire.filter fun entry => entry.2.socket = netAddr

def advance (i : ι) (s : MachineState numBoxes X C H) : NetState ι numBoxes X C H where
  machine := update n.machine i s
  wire := n.wire ++
    (s.shared.user.handed.drop (n.machine i).shared.user.handed.length).map fun entry => (i, entry)

end NetState

namespace Net

variable (net : Net ι numBoxes X C H)

def Boot (n : NetState ι numBoxes X C H) : Prop :=
  (∀ i, (net.machine i).system.BootBy (· ≠ .sendDone) (n.machine i)) ∧ n.wire = []

/--
One machine takes a step. Its socket is reliable and first in, first out.
-/
def Step (n n' : NetState ι numBoxes X C H) : Prop :=
  ∃ i s', StepBy (· ≠ .sendDone) (net.machine i).system.toProgram (n.machine i) s' ∧
    s'.shared.user.reads <+: (n.socket (net.machine i).netAddr).map (fun entry => entry.2.datagram) ∧
    n' = n.advance i s'

def Reachable (n : NetState ι numBoxes X C H) : Prop :=
  Transition.Reachable net.Boot net.Step n

def mail (entry : ι × Handed numBoxes) : Mail :=
  entry.2.letter.mail (net.machine entry.1).netAddr

variable {net} {n n' : NetState ι numBoxes X C H}

/-! ### What every machine knows about the wire -/

theorem machine_reachable (h : net.Reachable n) (i : ι)
    : (net.machine i).system.ReachableBy (· ≠ .sendDone) (n.machine i) := by
  refine Transition.Reachable.invariant (P := fun n : NetState ι numBoxes X C H =>
    ∀ i, (net.machine i).system.ReachableBy (· ≠ .sendDone) (n.machine i)) ?_ ?_ h i
  . intro n hboot i
    exact .init (hboot.1 i)
  . rintro n n' _ hmachine ⟨j, s', hstep, _, rfl⟩ i
    change (net.machine i).system.ReachableBy (· ≠ .sendDone) (update n.machine j s' i)
    by_cases hij : i = j
    . subst hij
      rw [Function.update_self]
      exact (hmachine i).tail hstep
    . rw [Function.update_of_ne hij]
      exact hmachine i

theorem wire_eq (h : net.Reachable n) (i : ι)
    : (n.wire.filter fun entry => entry.1 = i).map (fun entry => entry.2) =
        (n.machine i).shared.user.handed := by
  refine Transition.Reachable.invariant (P := fun n : NetState ι numBoxes X C H =>
    ∀ i, (n.wire.filter fun entry => entry.1 = i).map (fun entry => entry.2) =
      (n.machine i).shared.user.handed) ?_ ?_ h i
  . rintro n ⟨hboot, hwire⟩ i
    obtain ⟨pending, _, heq⟩ := hboot i
    rw [hwire, heq]
    rfl
  . rintro n n' hreach hwire ⟨j, s', hstep, _, rfl⟩ i
    obtain ⟨new, hnew⟩ := Machine.handed_mono (machine_reachable hreach j) hstep.step
    change ((n.wire ++ _).filter _).map _ = (update n.machine j s' i).shared.user.handed
    rw [List.filter_append, List.map_append, hwire i, ← hnew, List.drop_left]
    by_cases hij : i = j
    . subst hij
      rw [Function.update_self, ← hnew]
      simp [List.filter_map, Function.comp_def]
    . rw [Function.update_of_ne hij]
      simp [List.filter_map, Function.comp_def, Ne.symm hij]

structure Wired (net : Net ι numBoxes X C H) (n : NetState ι numBoxes X C H) : Prop where
  carries : ∀ entry ∈ n.wire, entry.2.socket = entry.2.letter.dest ∧
    Carries (net.machine entry.1).netAddr entry.2.letter entry.2.datagram
  reads : ∀ i, (n.machine i).shared.user.reads <+:
    (n.socket (net.machine i).netAddr).map fun entry => entry.2.datagram

theorem socket_advance (i : ι) (s : MachineState numBoxes X C H) (netAddr : Int32)
    : n.socket netAddr <+: (n.advance i s).socket netAddr := by
  unfold NetState.socket NetState.advance
  rw [List.filter_append]
  exact List.prefix_append _ _

theorem wired (h : net.Reachable n) : Wired net n := by
  refine Transition.Reachable.invariant (P := Wired net) ?_ ?_ h
  . rintro n ⟨hboot, hwire⟩
    constructor
    . intro entry hmem
      rw [hwire] at hmem
      contradiction
    . intro i
      obtain ⟨pending, _, heq⟩ := hboot i
      rw [heq]
      exact List.nil_prefix
  . rintro n n' hreach hwired ⟨i, s', hstep, hreads, rfl⟩
    constructor
    . intro entry hmem
      obtain hmem | hmem := List.mem_append.mp hmem
      . exact hwired.carries entry hmem
      . obtain ⟨handed, hhanded, rfl⟩ := List.mem_map.mp hmem
        exact Machine.handed ((machine_reachable hreach i).tail hstep) handed (List.mem_of_mem_drop hhanded)
    . intro j
      apply List.IsPrefix.trans ?_ ((socket_advance i s' _).map _)
      change (update n.machine i s' j).shared.user.reads <+: _
      by_cases hij : j = i
      . subst hij
        rw [Function.update_self]
        exact hreads
      . rw [Function.update_of_ne hij]
        exact hwired.reads j

theorem legal (h : net.Reachable n) (i : ι)
    : ∀ datagram ∈ (n.machine i).shared.user.reads, (net.machine i).Legal datagram := by
  intro datagram hmem
  have hwired := wired h
  obtain ⟨entry, hentry, rfl⟩ := List.mem_map.mp ((hwired.reads i).subset hmem)
  obtain ⟨hwire, hsocket⟩ := List.mem_filter.mp hentry
  obtain ⟨hdest, hcarries⟩ := hwired.carries entry hwire
  exact ⟨_, entry.2.letter, hdest.symm.trans (of_decide_eq_true hsocket), hcarries⟩

/-! ### Runs of a network -/

def runStep (net : Net ι numBoxes X C H) (n : NetState ι numBoxes X C H) (i : ι)
    : NetState ι numBoxes X C H :=
  match step (net.machine i).system.toProgram [] (n.machine i) with
  | .error _ => n
  | .ok s' =>
    if s'.shared.user.reads <+: (n.socket (net.machine i).netAddr).map (fun entry => entry.2.datagram) then
      n.advance i s'
    else
      n

theorem Reachable.runStep (h : net.Reachable n) (i : ι) : net.Reachable (net.runStep n i) := by
  unfold Net.runStep
  split
  next => exact h
  next s' hstep =>
    split
    next hreads => exact h.tail ⟨i, s', ⟨[], by simp, hstep⟩, hreads, rfl⟩
    next => exact h

theorem Reachable.run (h : net.Reachable n) (schedule : List ι)
    : net.Reachable (schedule.foldl net.runStep n) := by
  induction schedule generalizing n with
  | nil => exact h
  | cons i schedule ih => exact ih (h.runStep i)

end Net

def errands (letters : List (Letter numBoxes)) : User Unit (List (Letter numBoxes)) Unit where
  code
    | [], _ => ((), .call .ret [])
    | letter :: rest, _ => ((), .send letter.toMessage rest)
  handler _ _ := ((), [])
  globals := ()
  main := letters
  value _ := 0
  value_nonneg := System.zero_nonneg

theorem lawful_errands (letters : List (Letter numBoxes)) : (errands letters).Lawful numBoxes := by
  intro letters x
  cases letters with
  | nil => trivial
  | cons letter rest => exact ⟨letter.length_le, letter.dest_nonneg, letter.dest_lt⟩

def helloLetter : Letter 2 where
  dest := 1
  mailHdr := { dest := 0, source := 1, length := 2 }
  data := [72, 105]
  length_data := by decide
  length_le := by decide
  dest_nonneg := by decide
  dest_lt := by decide

def helloDatagram : List UInt8 :=
  [1, 0, 0, 0, 0, 0, 0, 0, 14, 0, 0, 0] ++ [0, 0, 0, 0, 1, 0, 0, 0, 2, 0, 0, 0] ++ [72, 105] ++
    List.replicate 38 0

def hello : Net Bool 2 Unit (List (Letter 2)) Unit where
  machine
    | false =>
      { user := errands [helloLetter], netAddr := 0, polls := fun _ => none, lost := fun _ => false
        memory := fun _ _ => 0 }
    | true =>
      { user := errands [], netAddr := 1, polls := fun k => if k = 0 then some helloDatagram else none
        lost := fun _ => false, memory := fun _ _ => 0 }
  netAddr_inj := by decide

def helloRun (schedule : List Bool) : NetState Bool 2 Unit (List (Letter 2)) Unit :=
  schedule.foldl hello.runStep { machine := fun i => boot (hello.machine i).system [], wire := [] }

theorem reachable_helloRun (schedule : List Bool) : hello.Reachable (helloRun schedule) :=
  Net.Reachable.run (.init ⟨fun _ => ⟨[], by simp, rfl⟩, rfl⟩) schedule

theorem lawful_hello (i : Bool) : (hello.machine i).user.Lawful 2 := by
  cases i with
  | false => exact lawful_errands _
  | true => exact lawful_errands _

namespace Net

variable {net : Net ι numBoxes X C H} {n n' : NetState ι numBoxes X C H}

/-! ### Delivery -/

theorem reads_eq (h : net.Reachable n) (i : ι)
    : (n.machine i).shared.user.reads.map readMail =
        ((n.wire.filter fun entry => entry.2.letter.dest = (net.machine i).netAddr).take
          (n.machine i).shared.user.reads.length).map net.mail := by
  have hwired := wired h
  have hsocket : n.socket (net.machine i).netAddr =
      n.wire.filter fun entry => entry.2.letter.dest = (net.machine i).netAddr := by
    apply List.filter_congr
    intro entry hmem
    rw [(hwired.carries entry hmem).1]
  have hreads := List.prefix_iff_eq_take.mp (hwired.reads i)
  rw [hsocket, ← List.map_take] at hreads
  generalize (n.machine i).shared.user.reads.length = length at hreads ⊢
  rw [hreads, List.map_map]
  apply List.map_congr_left
  intro entry hmem
  have hwire := List.mem_of_mem_filter (List.mem_of_mem_take hmem)
  exact (hwired.carries entry hwire).2.readMail_eq

theorem postOffice_delivers (h : net.Reachable n) (hlawful : ∀ i, (net.machine i).user.Lawful numBoxes)
    (i : ι)
    : (n.machine i).shared.user.failed = false ∧
      (n.wire.filter fun entry => entry.1 = i).map (fun entry => entry.2) =
        (n.machine i).shared.user.handed ∧
      (Machine.hands (n.machine i).control).length ≤ 1 ∧
      -- what is in the mailbox, in the hands of the worker and in the buffer of the network interface is
      -- what has been taken off the wire
      ∀ b, ((n.machine i).shared.lists b).appended ++
          (Machine.hands (n.machine i).control ++ (n.machine i).shared.user.buffered).filter
            (fun mail => mail.box = b) =
        (((n.wire.filter fun entry => entry.2.letter.dest = (net.machine i).netAddr).take
          (n.machine i).shared.user.reads.length).filter fun entry => entry.2.letter.box = b).map
            net.mail := by
  have hmachine := machine_reachable h i
  have hcontrol := hmachine.reachable.control
  have hlegal := legal h i
  have hintact := Machine.intact hmachine (hlawful i) hlegal
  refine ⟨hintact.asserted, wire_eq h i, ?_, fun b => ?_⟩
  . obtain ⟨mail, _, hhands⟩ | ⟨_, hhands⟩ := Machine.hands_cases hcontrol
    . rw [hhands]
      rfl
    . rw [hhands]
      exact Nat.zero_le 1
  . have hreceived := Machine.received_eq hcontrol b
    change (n.machine i).shared.user.received.filter _ = ((n.machine i).shared.lists b).appended ++ _
      at hreceived
    have hbuffered := hintact.buffered hlegal
    rw [List.filter_append, ← List.append_assoc, ← hreceived, ← List.filter_append, ← hbuffered,
      reads_eq h i, List.filter_map]
    rfl

theorem postOffice_delivers_hello
    : (((helloRun (List.replicate 40 false ++ List.replicate 50 true)).machine true).shared.lists
          0).appended = [helloLetter.mail 0] ∧
      ((helloRun (List.replicate 40 false ++ List.replicate 50 true)).machine true).shared.user.failed =
        false :=
  ⟨by decide +kernel, (postOffice_delivers (reachable_helloRun _) lawful_hello true).1⟩

end Net

/-! ### The semaphores and the network interface -/

structure Outstanding (s : MachineState numBoxes X C H) (t : Nat) : Prop where
  lt : t < s.numThreads
  sent : (running (s.client.points t)).any Machine.sent = true ∨
    waiting messageSent (s.client.points t) = true
  scheduled : ∀ fromNow type, .schedule .sendDone fromNow type ∉ s.stack t
  unposted : s.syncLog.countP (SyncEvent.isV (.sem messageSent)) =
    s.syncLog.countP (SyncEvent.isP (.sem messageSent))

namespace Net

variable [DecidableEq H] {net : Net ι numBoxes X C H} {n : NetState ι numBoxes X C H}

omit [DecidableEq H] in
theorem buffer_announced (h : net.Reachable n) (i : ι)
    : (((n.machine i).sem (.sem messageAvailable)).value +
          (n.machine i).rig.posts.count messageAvailable +
          (n.machine i).client.num (fun points => (running points).any Machine.taken) =
        if (n.machine i).shared.user.inHdr.length ≠ 0 then 1 else 0) ∧
      ((n.machine i).inHandler = false → (n.machine i).rig.posts.count messageAvailable = 0) := by
  have hmachine := machine_reachable h i
  constructor
  . have hbalance := (net.machine i).handoff.announced (Machine.guarded hmachine) (legal h i)
    refine hbalance.trans ?_
    change ((decide ((n.machine i).shared.user.inHdr.length ≠ 0)).toNat : Int) = _
    by_cases hfull : (n.machine i).shared.user.inHdr.length ≠ 0
    . simp [hfull]
    . simp [hfull]
  . intro hhandler
    rw [posts_eq_zero hmachine.reachable hhandler]
    rfl

theorem outstanding_iff (m : Machine numBoxes X C H) {s : MachineState numBoxes X C H} {t : Nat}
    : m.request.Waits s t ↔ Outstanding s t := by
  constructor
  . rintro ⟨hlt, hflight, hscheduled, hunposted⟩
    rw [Nachos.Request.flight_eq, Bool.or_eq_true] at hflight
    exact ⟨hlt, hflight, hscheduled, hunposted⟩
  . rintro ⟨hlt, hsent, hscheduled, hunposted⟩
    refine ⟨hlt, ?_, hscheduled, hunposted⟩
    rw [Nachos.Request.flight_eq, Bool.or_eq_true]
    exact hsent

theorem send_pending (h : net.Reachable n) (i : ι)
    : (handlers (n.machine i).pending).count .sendDone + (n.machine i).rig.posts.count messageSent ≤ 1 ∧
      ((handlers (n.machine i).pending).count .sendDone + (n.machine i).rig.posts.count messageSent = 1 ↔
        ∃ t, (n.machine i).owner (SynchList.userLock sendLock) = some t ∧
          Outstanding (n.machine i) t) := by
  have hguard := (machine_reachable h i).guard (net.machine i).shaped
  have hpending := (net.machine i).request.pending_iff (by simp) hguard
  simp only [outstanding_iff] at hpending
  exact hpending

theorem send_idle (h : net.Reachable n) (i : ι) {u : Spot numBoxes C}
    {rest : List (Frame (Spot numBoxes C) (Handler H))}
    (hstack : (n.machine i).stack (n.machine i).currentThread = .user u :: rest)
    (hheld : Machine.held u = true) (hsent : Machine.sent u = false)
    : (handlers (n.machine i).pending).count .sendDone = 0 ∧
      (n.machine i).rig.posts.count messageSent = 0 ∧
      ((n.machine i).sem (.sem messageSent)).value = 0 := by
  have hmachine := machine_reachable h i
  have hpoints : (n.machine i).rig.client.points (n.machine i).currentThread =
      .user u :: rest.filterMap Frame.point? := by
    change ((n.machine i).stack (n.machine i).currentThread).filterMap Frame.point? = _
    rw [hstack]
    rfl
  obtain ⟨hdue, hposts, hvalue⟩ := (net.machine i).request.idle (by simp) (Machine.guarded hmachine)
    hmachine.reachable.inv.placed.current_lt hpoints hheld hsent
  refine ⟨?_, hposts, hvalue⟩
  rw [State.rig, Multiset.count_add] at hdue
  omega

theorem one_packet (h : net.Reachable n) (i : ι)
    -- one packet is buffered, where an interrupt handler may still have to call `V`
    : (((n.machine i).sem (.sem messageAvailable)).value +
          (n.machine i).rig.posts.count messageAvailable +
          (n.machine i).client.num (fun points => (running points).any Machine.taken) =
        if (n.machine i).shared.user.inHdr.length ≠ 0 then 1 else 0) ∧
      -- `Receive` finds a packet
      (∀ buffer rest, (n.machine i).stack (n.machine i).currentThread =
          .user (.user (.arrived buffer)) :: rest →
        (n.machine i).shared.user.inHdr.length ≠ 0) ∧
      -- and no one else touches it
      (∀ s', Nachos.Step (net.machine i).system.toProgram (n.machine i) s' →
        (n.machine i).shared.user.inHdr.length ≠ 0 →
        (s'.shared.user.inHdr = (n.machine i).shared.user.inHdr ∧
            s'.shared.user.inbox = (n.machine i).shared.user.inbox) ∨
          ∃ buffer rest, (n.machine i).stack (n.machine i).currentThread =
            .user (.user (.arrived buffer)) :: rest) ∧
      -- one packet is in flight
      (handlers (n.machine i).pending).count .sendDone + (n.machine i).rig.posts.count messageSent ≤ 1 ∧
      ((handlers (n.machine i).pending).count .sendDone + (n.machine i).rig.posts.count messageSent = 1 ↔
        ∃ t, (n.machine i).owner (SynchList.userLock sendLock) = some t ∧
          Outstanding (n.machine i) t) ∧
      -- `Send` is entered by the owner of `sendLock`, and nothing is in flight
      (∀ letter pktHdr buffer next rest, (n.machine i).stack (n.machine i).currentThread =
          .user (.user (.send letter pktHdr buffer next)) :: rest →
        (n.machine i).owner (SynchList.userLock sendLock) = some (n.machine i).currentThread ∧
          (handlers (n.machine i).pending).count .sendDone = 0 ∧ ∀ t, ¬Outstanding (n.machine i) t) ∧
      -- outside of interrupt handlers there is no `V` left to be called
      ((n.machine i).inHandler = false →
        (n.machine i).rig.posts.count messageAvailable = 0 ∧
          (n.machine i).rig.posts.count messageSent = 0) := by
  have hmachine := machine_reachable h i
  obtain ⟨hle, hiff⟩ := send_pending h i
  refine ⟨(buffer_announced h i).1, ?_, ?_, hle, hiff, ?_, ?_⟩
  . intro buffer rest hstack
    exact Machine.full_of_taken hmachine (legal h i) hstack rfl
  . intro s' hstep hfull
    exact Machine.kept_of_full hmachine hstep hfull
  . intro letter pktHdr buffer next rest hstack
    obtain ⟨hpending, hposts, hvalue⟩ := send_idle h i hstack rfl rfl
    have hguard := hmachine.guard (net.machine i).shaped
    have howner := (net.machine i).request.owner_eq hguard.reachable hstack rfl
    refine ⟨howner, hpending, ?_⟩
    intro t ht
    have hwaits := (outstanding_iff (net.machine i)).mpr ht
    have howner' := (net.machine i).request.owner_of_flight hguard.rig.client ht.lt hwaits.flight
    have hone := hiff.mpr ⟨t, howner', ht⟩
    omega
  . intro hhandler
    rw [posts_eq_zero hmachine.reachable hhandler]
    exact ⟨rfl, rfl⟩

theorem one_packet_hello
    : (handlers ((helloRun (List.replicate 25 false)).machine false).pending).count .sendDone = 1 ∧
      ((helloRun (List.replicate 25 false)).machine false).inHandler = false ∧
      ((handlers ((helloRun (List.replicate 25 false)).machine false).pending).count .sendDone +
          ((helloRun (List.replicate 25 false)).machine false).rig.posts.count messageSent = 1 ↔
        ∃ t, ((helloRun (List.replicate 25 false)).machine false).owner (SynchList.userLock sendLock) =
            some t ∧
          Outstanding ((helloRun (List.replicate 25 false)).machine false) t) :=
  ⟨by decide +kernel, by decide +kernel, (one_packet (reachable_helloRun _) false).2.2.2.2.1⟩

end Net

end PostOffice

end Nachos
