import Mathlib.Data.List.Perm.Basic
import Nachos.Machine.Console
import Nachos.Network.Basic

/-!
This module contains the output side of the devices: `Console::PutChar` and `Network::Send` start an
operation, which ends with an interrupt, and a flag is meant to stop a second operation before the end of
the first one. `PutChar` sets the flag, `Send` does not.
-/

namespace Nachos

/-! ### `network.cc` -/

namespace PostOffice

structure Network where
  ident : Int32
  sendBusy : Bool
  numPacketsSent : Nat
  sent : List (Int32 × List UInt8)

/--
The arguments of `Send`, whether `Random` makes it lose the packet, and what is in the memory that `new` returns.
-/
structure Sending where
  hdr : Header
  data : List UInt8
  length_data : hdr.length.toNat ≤ data.length
  lost : Bool
  memory : Nat → UInt8

namespace Network

def new (ident : Int32) : Network where
  ident := ident
  sendBusy := false
  numPacketsSent := 0
  sent := []

/--
The result is `none` if the `ASSERT` fails. The call of `Schedule` comes before the packet is lost.
-/
def send (n : Network) (a : Sending) : Option Network :=
  if n.sendBusy = false ∧ 0 < a.hdr.length.toNat ∧ a.hdr.length.toNat ≤ maxPacketSize ∧
      a.hdr.source = n.ident then
    if a.lost then
      some n
    else
      let buffer := (List.range maxWireSize).map a.memory
      let buffer := Bytes.bcopy a.hdr.bytes headerSize buffer 0
      let buffer := Bytes.bcopy a.data a.hdr.length.toNat buffer headerSize
      some { n with sent := n.sent ++ [(a.hdr.dest, buffer)] }
  else
    none

def sendDone (n : Network) : Network :=
  { n with sendBusy := false, numPacketsSent := n.numPacketsSent + 1 }

end Network

theorem Machine.networkSend_eq {numBoxes : Nat} {X C H : Type} (m : Machine numBoxes X C H)
    (g : Globals numBoxes X) (letter : Letter numBoxes) (a : Sending) (next : C) {n : Network}
    (hident : n.ident = m.netAddr) (hbusy : n.sendBusy = g.sendBusy)
    : m.networkSend g letter a.hdr a.data next =
        if (n.send a).isSome then
          (g, .call (.schedule .sendDone networkTime .networkSendInt) (.sending letter a.hdr a.data next))
        else
          abort g (.send letter a.hdr a.data next) := by
  unfold networkSend Network.send
  rw [hident, hbusy]
  split
  next =>
    cases a.lost <;> rfl
  next => rfl

end PostOffice

/-! ### Devices with a flag -/

namespace Output

structure Device (D A : Type) where
  busy : D → Bool
  start : D → A → Option D
  finish : D → D
  delay : Nat
  type : IntType

def console : Device Console Int8 where
  busy := Console.putBusy
  start := Console.putChar
  finish := Console.writeDone
  delay := Console.consoleTime
  type := .consoleWriteInt

def network : Device PostOffice.Network PostOffice.Sending where
  busy := PostOffice.Network.sendBusy
  start := PostOffice.Network.send
  finish := PostOffice.Network.sendDone
  delay := PostOffice.networkTime
  type := .networkSendInt

inductive Handler where
  | completion
  | other (n : Nat)
  deriving DecidableEq

structure State (D : Type) where
  device : D
  pending : List (PendingInterrupt Handler)
  totalTicks : Nat

section

variable {D A : Type}

def outstanding (pending : List (PendingInterrupt Handler)) : Nat :=
  pending.countP fun toOccur => toOccur.handler = .completion

/--
`other` is whatever else happens: time passes, and other interrupts are scheduled, fire or change their places.
-/
inductive Step (dev : Device D A) : State D → State D → Prop where
  | start {s : State D} {a : A} {device : D} (h : dev.start s.device a = some device)
    : Step dev s { s with
        device
        pending := sortedInsert ⟨.completion, s.totalTicks + dev.delay, dev.type⟩ s.pending }
  | finish {s : State D} {before after : List (PendingInterrupt Handler)} {when : Nat} {type : IntType}
      (hpending : s.pending = before ++ ⟨.completion, when, type⟩ :: after) (hdue : when ≤ s.totalTicks)
    : Step dev s { s with device := dev.finish s.device, pending := before ++ after }
  | other {s : State D} {pending : List (PendingInterrupt Handler)} {totalTicks : Nat}
      (h : outstanding pending = outstanding s.pending)
    : Step dev s { s with pending, totalTicks }

abbrev Reachable (dev : Device D A) (device : D) : State D → Prop :=
  Transition.Reachable (fun s => s.device = device ∧ outstanding s.pending = 0) (Step dev)

def Exact (dev : Device D A) (s : State D) : Prop :=
  (dev.busy s.device = true ↔ 0 < outstanding s.pending) ∧ outstanding s.pending ≤ 1 ∧
    (0 < outstanding s.pending → ∀ a, dev.start s.device a = none)

theorem outstanding_sortedInsert (when : Nat) (type : IntType) (pending : List (PendingInterrupt Handler))
    : outstanding (sortedInsert ⟨.completion, when, type⟩ pending) = outstanding pending + 1 := by
  induction pending with
  | nil => rfl
  | cons first rest ih =>
    rw [sortedInsert]
    split
    . simp [outstanding]
    . unfold outstanding at *
      rw [List.countP_cons, List.countP_cons, ih]
      omega

theorem outstanding_of_split {before after : List (PendingInterrupt Handler)} {when : Nat} {type : IntType}
    : outstanding (before ++ ⟨.completion, when, type⟩ :: after) = outstanding (before ++ after) + 1 := by
  unfold outstanding
  rw [List.countP_append, List.countP_append, List.countP_cons]
  simp
  omega

theorem exact_of_reachable {dev : Device D A} (hstart : ∀ d a d', dev.start d a = some d' →
      dev.busy d = false ∧ dev.busy d' = true)
    (hfinish : ∀ d, dev.busy (dev.finish d) = false) {device : D} (hnew : dev.busy device = false) {s : State D}
    (hreach : Reachable dev device s)
    : Exact dev s := by
  have hinv : (dev.busy s.device = true ↔ 0 < outstanding s.pending) ∧ outstanding s.pending ≤ 1 := by
    apply Transition.Reachable.invariant
      (P := fun s => (dev.busy s.device = true ↔ 0 < outstanding s.pending) ∧ outstanding s.pending ≤ 1) ?_ ?_
      hreach
    . intro s ⟨hdevice, hnone⟩
      rw [hdevice, hnone, hnew]
      simp
    . intro s s' _ ⟨hbusy, hle⟩ hstep
      cases hstep with
      | start h =>
        obtain ⟨hfree, hset⟩ := hstart _ _ _ h
        rw [hfree] at hbusy
        rw [outstanding_sortedInsert, hset]
        simp at hbusy
        simp [hbusy]
      | finish hpending _ =>
        rw [hpending, outstanding_of_split] at hle
        rw [hfinish]
        refine ⟨⟨nofun, ?_⟩, ?_⟩
        . intro hpos
          dsimp only at hpos
          omega
        . dsimp only
          omega
      | other h =>
        rw [h]
        exact ⟨hbusy, hle⟩
  refine ⟨hinv.1, hinv.2, ?_⟩
  intro hpos a
  cases h : dev.start s.device a with
  | none => rfl
  | some device =>
    have hfree := (hstart _ _ _ h).1
    rw [hinv.1.2 hpos] at hfree
    cases hfree

end

theorem console_start {c c' : Console} {ch : Int8} (h : console.start c ch = some c')
    : console.busy c = false ∧ console.busy c' = true := by
  have h : c.putChar ch = some c' := h
  unfold Console.putChar at h
  split at h
  next hfree =>
    cases h
    exact ⟨hfree, rfl⟩
  next => cases h

theorem network_start {n n' : PostOffice.Network} {a : PostOffice.Sending} (h : network.start n a = some n')
    : network.busy n' = network.busy n := by
  have h : n.send a = some n' := h
  unfold PostOffice.Network.send at h
  split at h
  next =>
    split at h
    next =>
      cases h
      rfl
    next =>
      cases h
      rfl
  next => cases h

theorem network_never_busy {ident : Int32} {s : State PostOffice.Network}
    (hreach : Reachable network (.new ident) s)
    : network.busy s.device = false := by
  apply Transition.Reachable.invariant (P := fun s => network.busy s.device = false) ?_ ?_ hreach
  . intro s ⟨hdevice, _⟩
    rw [hdevice]
    rfl
  . intro s s' _ hfree hstep
    cases hstep with
    | start h => exact (network_start h).trans hfree
    | finish => rfl
    | other => exact hfree

theorem busy_exact_iff (input : List UInt8) (ident : Int32) (c : State Console) (n : State PostOffice.Network)
    : (Reachable console (.new input) c → Exact console c) ∧
      (Reachable network (.new ident) n → (Exact network n ↔ outstanding n.pending = 0)) := by
  constructor
  . intro hreach
    exact exact_of_reachable (fun _ _ _ h => console_start h) (fun _ => rfl) rfl hreach
  . intro hreach
    have hfree := network_never_busy hreach
    constructor
    . intro ⟨hbusy, _⟩
      rw [hfree] at hbusy
      simpa using hbusy
    . intro hnone
      refine ⟨?_, by omega, fun hpos => by omega⟩
      rw [hfree, hnone]
      simp

theorem busy_exact_putChar
    : ∃ c, Reachable console (.new []) c ∧ outstanding c.pending = 1 ∧ Exact console c ∧
        Exact network ⟨.new 0, [], 0⟩ := by
  have hput : Step console ⟨.new [], [], 0⟩ _ := Step.start (a := 65) rfl
  have hconsole : Reachable console (.new []) _ := ⟨_, ⟨rfl, rfl⟩, .tail .refl hput⟩
  have hnetwork : Reachable network (.new 0) ⟨.new 0, [], 0⟩ := ⟨_, ⟨rfl, rfl⟩, .refl⟩
  obtain ⟨hexact, hiff⟩ := busy_exact_iff [] 0 _ ⟨.new 0, [], 0⟩
  exact ⟨_, hconsole, rfl, hexact hconsole, (hiff hnetwork).mpr rfl⟩

theorem network_second_send
    : ∃ s, Reachable network (.new 0) s ∧ s.device.sendBusy = false ∧ outstanding s.pending = 2 ∧
        s.device.sent.length = 2 ∧ ¬Exact network s := by
  -- Two packets right after each other: both are accepted, and two interrupts are pending.
  let a : PostOffice.Sending := ⟨⟨1, 0, 1⟩, [7], by decide, false, fun _ => 0⟩
  let completion : PendingInterrupt Handler := ⟨.completion, 100, .networkSendInt⟩
  obtain ⟨sent, hsent⟩ : ∃ sent, ∀ l, network.start ⟨0, false, 0, l⟩ a = some ⟨0, false, 0, l ++ [sent]⟩ :=
    ⟨_, fun _ => rfl⟩
  have hfirst : Step network ⟨.new 0, [], 0⟩ ⟨⟨0, false, 0, [sent]⟩, [completion], 0⟩ :=
    Step.start (hsent [])
  have hsecond : Step network ⟨⟨0, false, 0, [sent]⟩, [completion], 0⟩
      ⟨⟨0, false, 0, [sent, sent]⟩, [completion, completion], 0⟩ :=
    Step.start (hsent [sent])
  refine ⟨_, ⟨_, ⟨rfl, rfl⟩, .tail (.tail .refl hfirst) hsecond⟩, rfl, rfl, rfl, ?_⟩
  intro hexact
  exact Bool.false_ne_true (hexact.1.2 Nat.zero_lt_two)

end Output

end Nachos
