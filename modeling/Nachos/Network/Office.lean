import Nachos.Network.Packet
import Nachos.Synch.Guard
import Nachos.Synch.Handoff
import Nachos.Synch.Request

/-!
This module contains what the code of a post office does, by its control points. Its `sendLock` and
`messageSent` are used like those of any device that works on one request at a time, and its
`messageAvailable` announces the packet in the one buffer that the network interface has.
-/

namespace Nachos

open Function (update)
open Bytes (bcopy)

namespace PostOffice

variable {numBoxes : Nat} {X C H : Type}

abbrev Spot (numBoxes : Nat) (C : Type) := SynchList.Code Mail (Code numBoxes C)
abbrev Store (numBoxes : Nat) (X : Type) := SynchList.Globals Mail (Globals numBoxes X)

namespace Machine

variable (m : Machine numBoxes X C H)

def Shaped : Spot numBoxes C → Prop
  | .user _ => True
  | .append _ _ next | .signalled _ next => ∃ buffer, next = .delivery buffer
  | .remove _ next => ∃ next', next = fun mail => .received mail next'

def Local (u : Spot numBoxes C) : Prop :=
  Shaped u ∧
    match u with
    | .user (.send letter pktHdr buffer _) | .user (.sending letter pktHdr buffer _) =>
      pktHdr = letter.pktHdr m.netAddr ∧ letter.payload <+: buffer
    | .append b mail _ =>
      b = mail.mailHdr.dest.toInt.toNat ∧ mail.mailHdr.length.toNat ≤ maxMailSize
    | _ => True

def names : Rename C (Spot numBoxes C) H (Handler H) where
  lock l := SynchList.userLock (l + 1)
  cond := SynchList.userCond
  sem n := n + 2
  func f := .user (.user f)
  handler := .user

theorem rename_rename (call : Call C H)
    : (call.rename userNames : Call (Code numBoxes C) (Handler H)).rename SynchList.userNames =
        call.rename (names : Rename C (Spot numBoxes C) H (Handler H)) := by
  cases call <;> rfl

def isUser : Spot numBoxes C → Bool
  | .user (.user _) | .user (.received ..) => true
  | _ => false

inductive Moves (g : Store numBoxes X)
    : Spot numBoxes C → Store numBoxes X × Call (Spot numBoxes C) (Handler H) × Spot numBoxes C → Prop where
  | schedule
    : Moves g (.user .schedule)
        (g, .schedule .readPoll networkTime .networkRecvInt, .user .fork)
  | fork (buffer : List UInt8)
    : Moves g (.user .fork)
        ({ g with user := { g.user with news := g.user.news + 1 } },
          .fork (.user (.delivery buffer)), .user (.user m.user.main))
  | call (u : Spot numBoxes C) (hu : isUser u = true) (x : X) (call : Call C H) (next : C)
    : Moves g u
        ({ g with user := { g.user with user := x } },
          call.rename names, .user (.user next))
  | send (u : Spot numBoxes C) (hu : isUser u = true) (x : X) (letter : Letter numBoxes)
      (buffer : List UInt8) (next : C) (hbuffer : letter.payload <+: buffer)
    : Moves g u
        ({ g with user := { g.user with user := x, news := g.user.news + 1 } },
          .acquire (SynchList.userLock sendLock),
          .user (.send letter (letter.pktHdr m.netAddr) buffer next))
  | receive (u : Spot numBoxes C) (hu : isUser u = true) (x : X) (box : Nat) (next : Mail → C)
    : Moves g u
        ({ g with user := { g.user with user := x } }, .acquire (SynchList.lock box),
          .remove box fun mail => .received mail next)
  | unlawful (u : Spot numBoxes C) (hu : isUser u = true) (x : X) (hlawful : ¬m.user.Lawful numBoxes)
    : Moves g u ({ g with user := { g.user with user := x, failed := true } }, .finish, u)
  | refuse (mail : Mail) (next : Mail → C) (hlength : maxMailSize < mail.mailHdr.length.toNat)
    : Moves g (.user (.received mail next))
        ({ g with user := { g.user with failed := true } }, .finish, .user (.received mail next))
  | delivery (buffer : List UInt8)
    : Moves g (.user (.delivery buffer)) (g, .p messageAvailable, .user (.arrived buffer))
  | put (buffer buffer' : List UInt8) (mail : Mail)
      (hmail : mail = openMail g.user.inHdr buffer')
      (hbuffer : g.user.inHdr.length ≠ 0 → buffer' = bcopy g.user.inbox g.user.inHdr.length.toNat buffer 0)
      (hlength : mail.mailHdr.length.toNat ≤ maxMailSize)
    : Moves g (.user (.arrived buffer))
        ({ g with user := { g.user with
            inHdr := { g.user.inHdr with length := 0 }, received := g.user.received ++ [mail] } },
          .acquire (SynchList.lock mail.mailHdr.dest.toInt.toNat),
          .append mail.mailHdr.dest.toInt.toNat mail (.delivery buffer'))
  | discard (buffer buffer' : List UInt8) (mail : Mail)
      (hmail : mail = openMail g.user.inHdr buffer')
      (hbuffer : g.user.inHdr.length ≠ 0 → buffer' = bcopy g.user.inbox g.user.inHdr.length.toNat buffer 0)
      (hillegal : ¬(0 ≤ mail.mailHdr.dest.toInt ∧ mail.mailHdr.dest.toInt < numBoxes ∧
        mail.mailHdr.length.toNat ≤ maxMailSize))
    : Moves g (.user (.arrived buffer))
        ({ g with user := { g.user with inHdr := { g.user.inHdr with length := 0 }, failed := true } },
          .finish, .user (.arrived buffer'))
  | request (letter : Letter numBoxes) (pktHdr : Header) (buffer : List UInt8) (next : C)
    : Moves g (.user (.send letter pktHdr buffer next))
        (g, .schedule .sendDone networkTime .networkSendInt, .user (.sending letter pktHdr buffer next))
  | busy (letter : Letter numBoxes) (pktHdr : Header) (buffer : List UInt8) (next : C)
      (hassert : ¬(g.user.sendBusy = false ∧ 0 < pktHdr.length.toNat ∧
        pktHdr.length.toNat ≤ maxPacketSize ∧ pktHdr.source = m.netAddr))
    : Moves g (.user (.send letter pktHdr buffer next))
        ({ g with user := { g.user with failed := true } }, .finish,
          .user (.send letter pktHdr buffer next))
  | sending (letter : Letter numBoxes) (pktHdr : Header) (buffer : List UInt8) (next : C)
    : Moves g (.user (.sending letter pktHdr buffer next))
        ({ g with user := m.networkSending g.user letter pktHdr buffer },
          .p messageSent, .user (.sent next))
  | sent (next : C)
    : Moves g (.user (.sent next))
        (g, .release (SynchList.userLock sendLock), .user (.user next))
  | append (b : Nat) (mail : Mail) (next : Code numBoxes C)
    : Moves g (.append b mail next)
        ({ g with lists := update g.lists b ((g.lists b).append mail) },
          .signal (SynchList.listEmpty b) (SynchList.lock b), .signalled b next)
  | signalled (b : Nat) (buffer : List UInt8)
    : Moves g (.signalled b (.delivery buffer))
        (g, .release (SynchList.lock b), .user (.delivery buffer))
  | wait (b : Nat) (next : Mail → Code numBoxes C)
    : Moves g (.remove b next)
        (g, .wait (SynchList.listEmpty b) (SynchList.lock b), .remove b next)
  | remove (b : Nat) (next : Mail → C) (mail : Mail) (list : List Mail)
      (hlist : (g.lists b).list = mail :: list)
    : Moves g (.remove b fun mail => .received mail next)
        ({ g with
            lists := update g.lists b
              { g.lists b with list := list, removed := (g.lists b).removed ++ [mail] } },
          .release (SynchList.lock b), .user (.received mail next))

section

variable {m} {g : Store numBoxes X}

theorem send_cases (g : Globals numBoxes X) (code : Code numBoxes C) (message : Message) (next : C)
    : (∃ letter : Letter numBoxes, ∃ buffer, letter.payload <+: buffer ∧
        m.send g code message next =
          ({ g with news := g.news + 1 },
            .call (.acquire sendLock) (.send letter (letter.pktHdr m.netAddr) buffer next))) ∨
      ¬(Request.send message next : Request C H).Lawful numBoxes ∧
        m.send g code message next = abort g code := by
  unfold send
  dsimp only
  split
  next h =>
    refine .inl ⟨{ message with length_le := h.1, dest_nonneg := h.2.1, dest_lt := h.2.2 }, _, ?_, rfl⟩
    rw [Letter.payload, ← Header.length_bytes message.mailHdr]
    exact append_isPrefix_bcopy (isPrefix_bcopy rfl)
  next h => exact .inr ⟨h, rfl⟩

theorem moves_runUser {code : Code numBoxes C} {c : C}
    (hu : isUser (SynchList.Code.user code : Spot numBoxes C) = true)
    (hcode : m.run g.user code = m.runUser g.user code c)
    : m.Moves g (.user code) (SynchList.run m.office g (.user code)) := by
  have hrun : m.office.code code g.user = m.runUser g.user code c := hcode
  unfold runUser at hrun
  have hlawful : m.user.Lawful numBoxes → (m.user.code c g.user.user).2.Lawful numBoxes :=
    fun hlawful => hlawful c g.user.user
  generalize m.user.code c g.user.user = res at hrun hlawful
  obtain ⟨x, request⟩ := res
  cases request with
  | call call next =>
    rw [SynchList.run_call hrun, rename_rename]
    exact .call _ hu x call next
  | send message next =>
    obtain ⟨letter, buffer, hbuffer, hsend⟩ | ⟨hunlawful, hsend⟩ :=
      m.send_cases { g.user with user := x } code message next
    . rw [SynchList.run_call (hrun.trans hsend)]
      exact .send _ hu x letter buffer next hbuffer
    . rw [SynchList.run_call (hrun.trans hsend)]
      exact .unlawful _ hu x (fun h => hunlawful (hlawful h))
  | receive box next =>
    by_cases hbox : 0 ≤ box ∧ box < numBoxes
    . rw [SynchList.run_user_remove (hrun.trans (if_pos hbox))]
      exact .receive _ hu x box.toNat next
    . rw [SynchList.run_call (hrun.trans (if_neg hbox))]
      exact .unlawful _ hu x (fun h => hbox (hlawful h))

theorem networkReceive_eq (g : Globals numBoxes X) (buffer : List UInt8)
    : ∃ buffer', networkReceive g buffer =
          (g.inHdr, buffer', { g with inHdr := { g.inHdr with length := 0 } }) ∧
        (g.inHdr.length ≠ 0 → buffer' = bcopy g.inbox g.inHdr.length.toNat buffer 0) := by
  unfold networkReceive
  dsimp only
  split
  next hlength => exact ⟨_, rfl, fun _ => rfl⟩
  next hlength => exact ⟨_, rfl, fun h => absurd h hlength⟩

theorem moves_arrived (buffer : List UInt8)
    : m.Moves g (.user (.arrived buffer)) (SynchList.run m.office g (.user (.arrived buffer))) := by
  obtain ⟨buffer', hreceive, hbuffer⟩ := networkReceive_eq g.user buffer
  have hrun : m.office.code (.arrived buffer) g.user = deliver g.user buffer := rfl
  unfold deliver at hrun
  rw [hreceive] at hrun
  dsimp only at hrun
  split at hrun
  next hlegal =>
    rw [SynchList.run_user_append hrun]
    exact .put buffer buffer' (openMail g.user.inHdr buffer') rfl hbuffer hlegal.2.2
  next hillegal =>
    rw [SynchList.run_call hrun]
    exact .discard buffer buffer' (openMail g.user.inHdr buffer') rfl hbuffer hillegal

theorem moves_send (letter : Letter numBoxes) (pktHdr : Header) (buffer : List UInt8) (next : C)
    : m.Moves g (.user (.send letter pktHdr buffer next))
        (SynchList.run m.office g (.user (.send letter pktHdr buffer next))) := by
  have hrun : m.office.code (.send letter pktHdr buffer next) g.user =
    m.networkSend g.user letter pktHdr buffer next := rfl
  unfold networkSend at hrun
  split at hrun
  next hassert =>
    rw [SynchList.run_call hrun]
    exact .request letter pktHdr buffer next
  next hassert =>
    rw [SynchList.run_call hrun]
    exact .busy letter pktHdr buffer next hassert

theorem moves {u : Spot numBoxes C} (h : Shaped u) : m.Moves g u (m.system.code u g) := by
  change m.Moves g u (SynchList.run m.office g u)
  cases u with
  | user code =>
    cases code with
    | schedule => exact .schedule
    | fork => exact .fork _
    | user c => exact moves_runUser rfl rfl
    | delivery buffer => exact .delivery buffer
    | arrived buffer => exact moves_arrived buffer
    | send letter pktHdr buffer next => exact moves_send letter pktHdr buffer next
    | sending letter pktHdr buffer next => exact .sending letter pktHdr buffer next
    | sent next => exact .sent next
    | received mail next =>
      by_cases hlength : mail.mailHdr.length.toNat ≤ maxMailSize
      . exact moves_runUser rfl (if_pos hlength)
      . have hrun : m.office.code (.received mail next) g.user =
          abort g.user (.received mail next) := if_neg hlength
        rw [SynchList.run_call hrun]
        exact .refuse mail next (by omega)
  | append b mail next => exact .append b mail next
  | signalled b next =>
    obtain ⟨buffer, rfl⟩ := h
    exact .signalled b buffer
  | remove b next =>
    obtain ⟨next', rfl⟩ := h
    obtain ⟨_, heq⟩ | ⟨mail, list, hlist, heq⟩ :=
      SynchList.run_remove m.office g b fun mail => .received mail next'
    . rw [heq]
      exact .wait b _
    . rw [heq]
      exact .remove b next' mail list hlist

theorem fork_cases {u func : Spot numBoxes C} (hu : Shaped u) (hcall : (m.system.code u g).2.1 = .fork func)
    : (u = .user .fork ∧ ∃ buffer, func = .user (.delivery buffer)) ∨ ∃ f, func = .user (.user f) := by
  have hmoves := m.moves (g := g) hu
  generalize m.system.code u g = res at hmoves hcall
  cases hmoves with
  | fork buffer =>
    injection hcall with hcall
    exact .inl ⟨rfl, buffer, hcall.symm⟩
  | call u _ x call next =>
    cases call with
    | fork f =>
      injection hcall with hcall
      exact .inr ⟨f, hcall.symm⟩
    | _ => contradiction
  | _ => contradiction

theorem shaped (m : Machine numBoxes X C H) : m.system.Closed Shaped where
  main := trivial
  next u g hu := by
    have hmoves := m.moves (g := g) hu
    generalize m.system.code u g = res at hmoves
    cases hmoves with
    | receive u _ x box next => exact ⟨next, rfl⟩
    | put buffer buffer' => exact ⟨buffer', rfl⟩
    | append | wait | unlawful => exact hu
    | _ => trivial
  fork u g func hu hcall := by
    obtain ⟨_, buffer, rfl⟩ | ⟨f, rfl⟩ := fork_cases hu hcall <;> trivial

theorem closed (m : Machine numBoxes X C H) : m.system.Closed m.Local where
  main := ⟨trivial, trivial⟩
  next u g hu := by
    refine ⟨m.shaped.next u g hu.1, ?_⟩
    have hmoves := m.moves (g := g) hu.1
    generalize m.system.code u g = res at hmoves
    cases hmoves with
    | send u _ x letter buffer next hbuffer => exact ⟨rfl, hbuffer⟩
    | put buffer buffer' mail _ _ hlength => exact ⟨rfl, hlength⟩
    | request | busy | unlawful => exact hu.2
    | _ => trivial
  fork u g func hu hcall := by
    obtain ⟨_, buffer, rfl⟩ | ⟨f, rfl⟩ := fork_cases hu.1 hcall <;> exact ⟨trivial, trivial⟩

end

/-! ### `sendLock` and `messageSent` -/

def held : Spot numBoxes C → Bool
  | .user (.send ..) | .user (.sending ..) | .user (.sent ..) => true
  | _ => false

def sent : Spot numBoxes C → Bool
  | .user (.sending ..) => true
  | _ => false

section

variable {m} {g : Store numBoxes X}

theorem lock_ne (b : Nat) : SynchList.lock b ≠ SynchList.userLock sendLock := by
  simp [SynchList.lock, SynchList.userLock, sendLock]

theorem held_of_isUser {u : Spot numBoxes C} (hu : isUser u = true) : held u = false ∧ sent u = false := by
  cases u with
  | user code => cases code <;> first | contradiction | exact ⟨rfl, rfl⟩
  | _ => contradiction

theorem keeps {u : Spot numBoxes C} (hu : Shaped u)
    : (m.system.code u g).2.1.Keeps (SynchList.userLock sendLock) held (held u)
        (m.system.code u g).2.2 := by
  have hmoves := m.moves (g := g) hu
  generalize m.system.code u g = res at hmoves
  cases hmoves with
  | call u hu x call next =>
    rw [(held_of_isUser hu).1]
    apply Call.rename_keeps
    . intro l
      simp [names, SynchList.userLock, sendLock]
    . exact fun _ => rfl
    . rfl
  | send u hu x letter buffer next =>
    rw [(held_of_isUser hu).1]
    simp [Call.Keeps, held]
  | receive u hu x box next =>
    rw [(held_of_isUser hu).1]
    simp [Call.Keeps, held, lock_ne]
  | fork => exact ⟨rfl, rfl⟩
  | put | sent | signalled | wait | remove => simp [Call.Keeps, held, lock_ne]
  | _ => rfl

theorem sends [DecidableEq H] {u : Spot numBoxes C} (hu : Shaped u)
    : (m.system.code u g).2.1.Sends messageSent .sendDone sent (sent u) (m.system.code u g).2.2 := by
  have hmoves := m.moves (g := g) hu
  generalize m.system.code u g = res at hmoves
  cases hmoves with
  | call u hu x call next =>
    rw [(held_of_isUser hu).2]
    apply Call.rename_sends
    . intro n
      simp [names, messageSent]
    . simp [names]
    . exact fun _ => rfl
    . rfl
  | send u hu | receive u hu =>
    rw [(held_of_isUser hu).2]
    exact ⟨rfl, rfl, by simp, by simp⟩
  | unlawful u hu => exact ⟨(held_of_isUser hu).2, (held_of_isUser hu).2, by simp, by simp⟩
  | fork => exact ⟨rfl, rfl, by simp, by rintro _ ⟨⟩; rfl⟩
  | _ =>
    constructor <;> simp [sent, Call.isP, Call.isSchedule, messageSent, messageAvailable]

theorem not_held_of_not_shaped {u : Spot numBoxes C} (hu : ¬Shaped u) : held u = false ∧ sent u = false := by
  cases u with
  | user => exact absurd trivial hu
  | _ => exact ⟨rfl, rfl⟩

theorem checkPktAvail_calls (g : Globals numBoxes X)
    : (m.checkPktAvail g).2 = [.schedule .readPoll networkTime .networkRecvInt] ∨
      (m.checkPktAvail g).2 =
        [.schedule .readPoll networkTime .networkRecvInt, .v messageAvailable] := by
  unfold checkPktAvail
  dsimp only
  split
  . exact .inl rfl
  . split
    . exact .inl rfl
    . split
      . exact .inr rfl
      . exact .inl rfl

noncomputable def request [DecidableEq H] (m : Machine numBoxes X C H)
    : Nachos.Request (m.system.guard Shaped) (SynchList.userLock sendLock) messageSent
        Handler.sendDone where
  held := held
  main := rfl
  code := guard_code_cases
    (P := fun u _ res => res.2.1.Keeps (SynchList.userLock sendLock) held (held u) res.2.2)
    (fun _ _ hu => keeps hu) (fun _ _ _ => rfl)
  sent := sent
  held_of_sent u h := by
    cases u with
    | user code => cases code <;> first | contradiction | rfl
    | _ => contradiction
  sent_main := rfl
  sends := by
    apply guard_code_cases
      (P := fun u _ res => res.2.1.Sends messageSent Handler.sendDone sent (sent u) res.2.2)
    . exact fun _ _ hu => sends hu
    . intro u _ hu
      rw [(not_held_of_not_shaped hu).2]
      exact ⟨rfl, (not_held_of_not_shaped hu).2, by simp, by simp⟩
  value := rfl
  posts handler g := by
    cases handler with
    | readPoll =>
      change (HandlerCall.posts (m.checkPktAvail g.user).2).count messageSent = 0
      obtain heq | heq := m.checkPktAvail_calls g.user <;> rw [heq] <;> rfl
    | sendDone => rfl
    | user handler =>
      apply HandlerCall.count_posts_rename
      intro n
      simp [userNames, messageSent]
  schedules handler g := by
    cases handler with
    | readPoll =>
      change (HandlerCall.schedules (m.checkPktAvail g.user).2).count .sendDone = 0
      obtain heq | heq := m.checkPktAvail_calls g.user <;> rw [heq] <;> simp [HandlerCall.schedules]
    | sendDone => rfl
    | user handler =>
      apply HandlerCall.count_schedules_rename
      simp [userNames]

/-! ### `messageAvailable` -/

/--
A datagram that can be read: one that some machine has sent to this one.
-/
def Legal (m : Machine numBoxes X C H) (datagram : List UInt8) : Prop :=
  ∃ netAddr, ∃ letter : Letter numBoxes, letter.dest = m.netAddr ∧ Carries netAddr letter datagram

def taken : Spot numBoxes C → Bool
  | .user (.arrived _) => true
  | _ => false

def full (g : Store numBoxes X) : Bool := g.user.inHdr.length ≠ 0

theorem taken_of_isUser {u : Spot numBoxes C} (hu : isUser u = true) : taken u = false := by
  cases u with
  | user code => cases code <;> first | contradiction | rfl
  | _ => contradiction

theorem code_full {u : Spot numBoxes C} (hu : Shaped u)
    : full (m.system.code u g).1 = (full g && !taken u) ∧
      (m.system.code u g).1.user.reads = g.user.reads := by
  have hmoves := m.moves (g := g) hu
  generalize m.system.code u g = res at hmoves
  cases hmoves with
  | call u hu | send u hu | receive u hu | unlawful u hu => simp [full, taken_of_isUser hu]
  | put | discard => exact ⟨by simp [full, taken], rfl⟩
  | sending letter pktHdr buffer next =>
    unfold networkSending
    dsimp only
    split <;> exact ⟨by simp [full, taken], rfl⟩
  | _ => simp [full, taken]

theorem takes {u : Spot numBoxes C} (hu : Shaped u)
    : (m.system.code u g).2.1.Takes messageAvailable taken (m.system.code u g).2.2 := by
  have hmoves := m.moves (g := g) hu
  generalize m.system.code u g = res at hmoves
  cases hmoves with
  | call u hu x call next =>
    apply Call.rename_takes
    . intro n
      simp [names, messageAvailable]
    . exact fun _ => rfl
    . rfl
  | fork => exact ⟨rfl, rfl⟩
  | delivery => simp [Call.Takes, taken]
  | sending => simp [Call.Takes, taken, messageSent, messageAvailable]
  | _ => trivial

theorem Legal.header {datagram : List UInt8} (h : m.Legal datagram)
    : datagram.length = maxWireSize ∧ (Header.ofBytes datagram).dest = m.netAddr ∧
      (Header.ofBytes datagram).length ≠ 0 ∧
      (Header.ofBytes datagram).length.toNat ≤ maxPacketSize := by
  obtain ⟨netAddr, letter, hdest, hcarries⟩ := h
  rw [hcarries.header]
  refine ⟨hcarries.1, hdest, ?_, letter.length_pktHdr_le netAddr⟩
  intro hzero
  have hlength := letter.length_pktHdr netAddr
  rw [hzero] at hlength
  have hheader : headerSize = 12 := rfl
  change 0 = _ at hlength
  omega

theorem checkPktAvail_cases (g : Globals numBoxes X)
    (hlegal : ∀ datagram ∈ (m.checkPktAvail g).1.reads, m.Legal datagram)
    : (g.inHdr.length ≠ 0 ∧
        m.checkPktAvail g = (g, [.schedule .readPoll networkTime .networkRecvInt])) ∨
      (g.inHdr.length = 0 ∧
        m.checkPktAvail g =
          ({ g with polls := g.polls + 1 }, [.schedule .readPoll networkTime .networkRecvInt])) ∨
      ∃ datagram, g.inHdr.length = 0 ∧ m.Legal datagram ∧
        m.checkPktAvail g =
          ({ g with
              polls := g.polls + 1, reads := g.reads ++ [datagram], inHdr := Header.ofBytes datagram
              inbox := bcopy (datagram.drop headerSize) (Header.ofBytes datagram).length.toNat g.inbox 0
              numPacketsRecvd := g.numPacketsRecvd + 1 },
            [.schedule .readPoll networkTime .networkRecvInt, .v messageAvailable]) := by
  unfold checkPktAvail at hlegal ⊢
  dsimp only at hlegal ⊢
  split
  next hfull => exact .inl ⟨hfull, rfl⟩
  next hempty =>
    rw [if_neg hempty] at hlegal
    have hzero : g.inHdr.length = 0 := by simpa using hempty
    split
    next => exact .inr (.inl ⟨hzero, rfl⟩)
    next datagram hpoll =>
      rw [hpoll] at hlegal
      dsimp only at hlegal
      have hmem : m.Legal datagram := by
        apply hlegal
        split <;> simp
      obtain ⟨hlength, hdest, _, hle⟩ := hmem.header
      rw [if_pos ⟨hlength, hdest, hle⟩]
      exact .inr (.inr ⟨datagram, hzero, hmem, rfl⟩)

theorem checkPktAvail_reads (g : Globals numBoxes X) : g.reads <+: (m.checkPktAvail g).1.reads := by
  unfold checkPktAvail
  dsimp only
  split
  . exact List.prefix_rfl
  . split
    . exact List.prefix_rfl
    . split <;> exact List.prefix_append _ _

noncomputable def handoff (m : Machine numBoxes X C H)
    : Handoff (m.system.guard Shaped) messageAvailable where
  taken := taken
  full := full
  legal g := ∀ datagram ∈ g.user.reads, m.Legal datagram
  main := rfl
  init := rfl
  value := rfl
  takes := guard_code_cases (P := fun _ _ res => res.2.1.Takes messageAvailable taken res.2.2)
    (fun _ _ hu => takes hu) (fun _ _ _ => trivial)
  code := by
    apply guard_code_cases (P := fun u g res => full res.1 = (full g && !taken u))
    . exact fun _ _ hu => (code_full hu).1
    . intro u g hu
      cases u with
      | user => exact absurd trivial hu
      | _ => simp [taken]
  handler handler g hlegal := by
    cases handler with
    | sendDone =>
      change (full g).toNat = _
      simp [System.guard, system, SynchList.system, office, Machine.handler, sendDone, HandlerCall.posts,
        messageSent, messageAvailable]
    | user handler =>
      change (full g).toNat = (full g).toNat + _
      rw [left_eq_add]
      apply HandlerCall.count_posts_rename
      intro n
      simp [userNames, messageAvailable]
    | readPoll =>
      change (full { g with user := (m.checkPktAvail g.user).1 }).toNat =
        (full g).toNat + (HandlerCall.posts (m.checkPktAvail g.user).2).count messageAvailable
      obtain ⟨_, heq⟩ | ⟨_, heq⟩ | ⟨datagram, hempty, hdatagram, heq⟩ := m.checkPktAvail_cases g.user hlegal
      . rw [heq]
        rfl
      . rw [heq]
        rfl
      . rw [heq]
        obtain ⟨_, _, hlength, _⟩ := hdatagram.header
        simp [full, hempty, hlength, HandlerCall.posts, messageAvailable]
  legal_code := by
    apply guard_code_cases (P := fun _ (g : Store numBoxes X) res =>
      (∀ datagram ∈ res.1.user.reads, m.Legal datagram) → ∀ datagram ∈ g.user.reads, m.Legal datagram)
    . intro u g hu
      rw [(code_full hu).2]
      exact id
    . exact fun _ _ _ => id
  legal_handler handler g hlegal datagram hmem := by
    cases handler with
    | readPoll => exact hlegal datagram ((m.checkPktAvail_reads g.user).subset hmem)
    | sendDone | user => exact hlegal datagram hmem

end

end Machine

end PostOffice

end Nachos
