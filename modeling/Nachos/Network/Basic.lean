import Nachos.Lib.Bytes
import Nachos.Synch.SynchList

/-!
This module contains `network.cc` and `post.cc`: the network interface of one machine, and the post
office on top of it, for any code that uses it. The mailboxes are synchronized lists.
-/

namespace Nachos

open Bytes (word toWord bcopy)

namespace PostOffice

structure Header where
  dest : Int32
  source : Int32
  length : UInt32
  deriving DecidableEq, Repr

def headerSize : Nat := 12
def maxWireSize : Nat := 64
def maxPacketSize : Nat := maxWireSize - headerSize
def maxMailSize : Nat := maxPacketSize - headerSize
def networkTime : Nat := 100

namespace Header

def bytes (hdr : Header) : List UInt8 :=
  word hdr.dest.toUInt32 ++ word hdr.source.toUInt32 ++ word hdr.length

def ofBytes (buffer : List UInt8) : Header where
  dest := (toWord buffer).toInt32
  source := (toWord (buffer.drop 4)).toInt32
  length := toWord (buffer.drop 8)

end Header

/--
A `Mail`. The bytes of `data` behind the first `mailHdr.length` are never read.
-/
structure Mail where
  pktHdr : Header
  mailHdr : Header
  data : List UInt8
  deriving DecidableEq, Repr

structure Message where
  dest : Int32
  mailHdr : Header
  data : List UInt8
  length_data : mailHdr.length.toNat ≤ data.length

structure Letter (numBoxes : Nat) extends Message where
  length_le : mailHdr.length.toNat ≤ maxMailSize
  dest_nonneg : 0 ≤ mailHdr.dest.toInt
  dest_lt : mailHdr.dest.toInt < numBoxes

inductive Request (C H : Type) where
  | call (call : Call C H) (next : C)
  | send (message : Message) (next : C)
  | receive (box : Int) (next : Mail → C)

structure User (X C H : Type) where
  code : C → X → X × Request C H
  handler : H → X → X × List (HandlerCall H)
  globals : X
  main : C
  value : Nat → Int
  value_nonneg : ∀ n, 0 ≤ value n

def Request.Lawful (numBoxes : Nat) : Request C H → Prop
  | .call .. => True
  | .send message _ =>
    message.mailHdr.length.toNat ≤ maxMailSize ∧ 0 ≤ message.mailHdr.dest.toInt ∧
      message.mailHdr.dest.toInt < numBoxes
  | .receive box _ => 0 ≤ box ∧ box < numBoxes

def User.Lawful (user : User X C H) (numBoxes : Nat) : Prop :=
  ∀ c x, (user.code c x).2.Lawful numBoxes

/--
A machine, with what comes from outside: what `PollSocket` and `ReadFromSocket` return in poll `k`, whether call `k`
of `Random` makes `Send` lose the packet, and what is in the memory that `new` returns in call `k`.
-/
structure Machine (numBoxes : Nat) (X C H : Type) where
  user : User X C H
  netAddr : Int32
  polls : Nat → Option (List UInt8)
  lost : Nat → Bool
  memory : Nat → Nat → UInt8

structure Handed (numBoxes : Nat) where
  socket : Int32
  datagram : List UInt8
  letter : Letter numBoxes

/--
`inHdr`, `inbox` and `sendBusy` are members of the `Network`, `polls`, `randoms` and `news` are the numbers of calls
so far. The rest is history: what was read from and given to the sockets, and what the postal worker got from
`Receive`. `failed` says whether an `ASSERT` has failed.
-/
structure Globals (numBoxes : Nat) (X : Type) where
  user : X
  inHdr : Header
  inbox : List UInt8
  sendBusy : Bool
  numPacketsSent : Nat
  numPacketsRecvd : Nat
  polls : Nat
  randoms : Nat
  news : Nat
  reads : List (List UInt8)
  handed : List (Handed numBoxes)
  received : List Mail
  failed : Bool

/--
The control points. In the constructor: before its calls of `Schedule` and of `Fork`. In `PostalDelivery`: at the
start of the loop and after `P`. In `Send`: after `Acquire`, after the `Schedule` of the `Network`, and after `P`.
In `Receive`: after `Remove`.
-/
inductive Code (numBoxes : Nat) (C : Type) where
  | schedule
  | fork
  | user (c : C)
  | delivery (buffer : List UInt8)
  | arrived (buffer : List UInt8)
  | send (letter : Letter numBoxes) (pktHdr : Header) (buffer : List UInt8) (next : C)
  | sending (letter : Letter numBoxes) (pktHdr : Header) (buffer : List UInt8) (next : C)
  | sent (next : C)
  | received (mail : Mail) (next : Mail → C)

inductive Handler (H : Type) where
  | readPoll
  | sendDone
  | user (handler : H)
  deriving DecidableEq

def sendLock : Nat := 0
def messageAvailable : Nat := 0
def messageSent : Nat := 1

def userNames : Rename C (Code numBoxes C) H (Handler H) where
  lock l := l + 1
  cond := id
  sem n := n + 2
  func := .user
  handler := .user

namespace Machine

variable {numBoxes : Nat} {X C H : Type} (m : Machine numBoxes X C H) (g : Globals numBoxes X)

def newChars (size : Nat) : List UInt8 :=
  (List.range size).map (m.memory g.news)

def abort (code : Code numBoxes C)
    : Globals numBoxes X × SynchList.Request Mail (Code numBoxes C) (Handler H) :=
  ({ g with failed := true }, .call .finish code)

/-! ### `network.cc` -/

def networkSend (letter : Letter numBoxes) (hdr : Header) (data : List UInt8) (next : C)
    : Globals numBoxes X × SynchList.Request Mail (Code numBoxes C) (Handler H) :=
  if g.sendBusy = false ∧ 0 < hdr.length.toNat ∧ hdr.length.toNat ≤ maxPacketSize ∧
      hdr.source = m.netAddr then
    (g, .call (.schedule .sendDone networkTime .networkSendInt) (.sending letter hdr data next))
  else
    abort g (.send letter hdr data next)

def networkSending (letter : Letter numBoxes) (hdr : Header) (data : List UInt8) : Globals numBoxes X :=
  let g' := { g with randoms := g.randoms + 1 }
  if m.lost g.randoms then
    g'
  else
    let buffer := m.newChars g maxWireSize
    let buffer := bcopy hdr.bytes headerSize buffer 0
    let buffer := bcopy data hdr.length.toNat buffer headerSize
    { g' with
      news := g.news + 1
      handed := g.handed ++ [{ socket := hdr.dest, datagram := buffer, letter := letter }] }

def networkReceive (data : List UInt8) : Header × List UInt8 × Globals numBoxes X :=
  let hdr := g.inHdr
  let g := { g with inHdr := { g.inHdr with length := 0 } }
  if hdr.length ≠ 0 then
    (hdr, bcopy g.inbox hdr.length.toNat data 0, g)
  else
    (hdr, data, g)

def checkPktAvail : Globals numBoxes X × List (HandlerCall (Handler H)) :=
  let poll := .schedule .readPoll networkTime .networkRecvInt
  if g.inHdr.length ≠ 0 then
    (g, [poll])
  else
    match m.polls g.polls with
    | none => ({ g with polls := g.polls + 1 }, [poll])
    | some buffer =>
      let hdr := Header.ofBytes buffer
      let g := { g with polls := g.polls + 1, reads := g.reads ++ [buffer], inHdr := hdr }
      if buffer.length = maxWireSize ∧ hdr.dest = m.netAddr ∧ hdr.length.toNat ≤ maxPacketSize then
        ({ g with
            inbox := bcopy (buffer.drop headerSize) hdr.length.toNat g.inbox 0
            numPacketsRecvd := g.numPacketsRecvd + 1 },
          [poll, .v messageAvailable])
      else
        ({ g with failed := true }, [poll])

def sendDone : Globals numBoxes X × List (HandlerCall (Handler H)) :=
  ({ g with sendBusy := false, numPacketsSent := g.numPacketsSent + 1 }, [.v messageSent])

/-! ### `post.cc` -/

def send (code : Code numBoxes C) (message : Message) (next : C)
    : Globals numBoxes X × SynchList.Request Mail (Code numBoxes C) (Handler H) :=
  let mailHdr := message.mailHdr
  if h : mailHdr.length.toNat ≤ maxMailSize ∧ 0 ≤ mailHdr.dest.toInt ∧ mailHdr.dest.toInt < numBoxes then
    let letter := { message with length_le := h.1, dest_nonneg := h.2.1, dest_lt := h.2.2 }
    let pktHdr := { dest := message.dest, source := m.netAddr, length := mailHdr.length + 12 }
    let buffer := m.newChars g maxPacketSize
    let buffer := bcopy mailHdr.bytes headerSize buffer 0
    let buffer := bcopy message.data mailHdr.length.toNat buffer headerSize
    ({ g with news := g.news + 1 }, .call (.acquire sendLock) (.send letter pktHdr buffer next))
  else
    abort g code

def receive (code : Code numBoxes C) (box : Int) (next : Mail → C)
    : Globals numBoxes X × SynchList.Request Mail (Code numBoxes C) (Handler H) :=
  if 0 ≤ box ∧ box < numBoxes then
    (g, .remove box.toNat fun mail => .received mail next)
  else
    abort g code

def deliver (buffer : List UInt8)
    : Globals numBoxes X × SynchList.Request Mail (Code numBoxes C) (Handler H) :=
  let (pktHdr, buffer, g) := networkReceive g buffer
  let mailHdr := Header.ofBytes buffer
  if 0 ≤ mailHdr.dest.toInt ∧ mailHdr.dest.toInt < numBoxes ∧ mailHdr.length.toNat ≤ maxMailSize then
    let mail :=
      { pktHdr := pktHdr, mailHdr := mailHdr
        data := (buffer.drop headerSize).take mailHdr.length.toNat }
    ({ g with received := g.received ++ [mail] },
      .append mailHdr.dest.toInt.toNat mail (.delivery buffer))
  else
    abort g (.arrived buffer)

def runUser (code : Code numBoxes C) (c : C)
    : Globals numBoxes X × SynchList.Request Mail (Code numBoxes C) (Handler H) :=
  let (x, request) := m.user.code c g.user
  let g := { g with user := x }
  match request with
  | .call call next => (g, .call (call.rename userNames) (.user next))
  | .send message next => m.send g code message next
  | .receive box next => receive g code box next

def run : Code numBoxes C → Globals numBoxes X × SynchList.Request Mail (Code numBoxes C) (Handler H)
  | .schedule => (g, .call (.schedule .readPoll networkTime .networkRecvInt) .fork)
  | .fork => ({ g with news := g.news + 1 },
      .call (.fork (.delivery (m.newChars g maxPacketSize))) (.user m.user.main))
  | .user c => m.runUser g (.user c) c
  | .delivery buffer => (g, .call (.p messageAvailable) (.arrived buffer))
  | .arrived buffer => deliver g buffer
  | .send letter pktHdr buffer next => m.networkSend g letter pktHdr buffer next
  | .sending letter pktHdr buffer next =>
    (m.networkSending g letter pktHdr buffer, .call (.p messageSent) (.sent next))
  | .sent next => (g, .call (.release sendLock) (.user next))
  | .received mail next =>
    if mail.mailHdr.length.toNat ≤ maxMailSize then
      m.runUser g (.received mail next) (next mail)
    else
      abort g (.received mail next)

def handler : Handler H → Globals numBoxes X × List (HandlerCall (Handler H))
  | .readPoll => m.checkPktAvail g
  | .sendDone => sendDone g
  | .user handler =>
    ({ g with user := (m.user.handler handler g.user).1 },
      (m.user.handler handler g.user).2.map
        (HandlerCall.rename (userNames : Rename C (Code numBoxes C) H (Handler H))))

def office : SynchList.User Mail (Globals numBoxes X) (Code numBoxes C) (Handler H) where
  code c g := m.run g c
  handler handler g := m.handler g handler
  globals :=
    { user := m.user.globals, inHdr := ⟨0, 0, 0⟩
      inbox := (List.range maxPacketSize).map (m.memory 0)
      sendBusy := false, numPacketsSent := 0, numPacketsRecvd := 0, polls := 0, randoms := 0, news := 1
      reads := [], handed := [], received := [], failed := false }
  main := .schedule
  value
    | 0 | 1 => 0
    | n + 2 => m.user.value n
  value_nonneg
    | 0 | 1 => Int.le_refl 0
    | n + 2 => m.user.value_nonneg n

def system
    : System (SynchList.Globals Mail (Globals numBoxes X)) (SynchList.Code Mail (Code numBoxes C))
        (Handler H) :=
  SynchList.system m.office

end Machine

end PostOffice

end Nachos
