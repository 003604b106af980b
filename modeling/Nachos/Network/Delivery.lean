import Nachos.Network.Office

/-!
This module contains the way of a packet through one machine: from the socket into the buffer of the
network interface, from there to the postal worker, and by the worker into a mailbox.
-/

namespace Nachos

open Function (update)
open Bytes (bcopy)

namespace PostOffice

def Mail.box (mail : Mail) : Nat := mail.mailHdr.dest.toInt.toNat

def Globals.buffered (g : Globals numBoxes X) : List Mail :=
  if g.inHdr.length ≠ 0 then [openMail g.inHdr g.inbox] else []

namespace Machine

variable {numBoxes : Nat} {X C H : Type} {m : Machine numBoxes X C H}
  {c : Control (Store numBoxes X) (Spot numBoxes C)} {t : Nat} {g : Store numBoxes X}
  {u : Spot numBoxes C}

theorem fork_inv (h : m.system.ControlReachable c) (ht : t < c.numThreads) {func : Spot numBoxes C}
    (hcodes : c.codes t = [func, u])
    : (∃ buffer, func = .user (.delivery buffer)) ∨ ∃ f, func = .user (.user f) := by
  obtain ⟨c₀, hreach₀, t₀, ht₀, u₀, hcodes₀, hcode⟩ := h.forker t ht func u hcodes
  have hu₀ : Shaped u₀ := hreach₀.closed m.shaped t₀ ht₀ u₀ (by simp [hcodes₀])
  obtain ⟨_, hfunc⟩ | hfunc := fork_cases hu₀ (congrArg Prod.fst hcode)
  . exact .inl hfunc
  . exact .inr hfunc

/-! ### There is one postal worker -/

def work : Spot numBoxes C → Nat
  | .user .schedule | .user .fork | .user (.delivery _) | .user (.arrived _) => 1
  | .append .. | .signalled .. => 1
  | _ => 0

theorem work_of_isUser (hu : isUser u = true) : work u = 0 := by
  cases u with
  | user code => cases code <;> first | contradiction | rfl
  | _ => contradiction

theorem work_codes (hu : Shaped u)
    : (((m.system.code u g).2.1.codes (m.system.code u g).2.2).map work).sum = work u := by
  have hmoves := m.moves (g := g) hu
  generalize m.system.code u g = res at hmoves
  cases hmoves with
  | call u hu x call next =>
    rw [work_of_isUser hu]
    cases call <;> rfl
  | send u hu | receive u hu => rw [work_of_isUser hu]; rfl
  | _ => rfl

theorem sum_work (h : m.system.ControlReachable c) : c.sum (fun codes => (codes.map work).sum) = 1 := by
  refine Transition.Reachable.invariant (P := fun c : Control (Store numBoxes X) (Spot numBoxes C) =>
    c.sum (fun codes => (codes.map work).sum) = 1) ?_ ?_ h
  . rintro c rfl
    rfl
  . intro c c' hreach hsum hstep
    cases hstep with
    | interrupt => exact hsum
    | user t u ht hcodes =>
      have hu : Shaped u := System.ControlReachable.closed m.shaped hreach t ht u (by simp [hcodes])
      have hupdate := Control.sum_update (fun codes => (codes.map work).sum) ht
        ((m.system.code u c.shared).2.1.codes (m.system.code u c.shared).2.2) (m.system.code u c.shared).1
      rw [work_codes hu, hcodes, hsum] at hupdate
      simp only [List.map_cons, List.map_nil, List.sum_cons, List.sum_nil] at hupdate
      omega
    | fork t func u ht hcodes =>
      have hfork := Control.sum_fork (fun codes => (codes.map work).sum) ht func [u] c.shared
      rw [hcodes, hsum] at hfork
      simp only [List.map_cons, List.map_nil, List.sum_cons, List.sum_nil] at hfork
      omega

theorem worker_unique (h : m.system.ControlReachable c) {t' : Nat} (ht : t < c.numThreads)
    (ht' : t' < c.numThreads) {v : Spot numBoxes C} (hlabel : c.label t = some u)
    (hlabel' : c.label t' = some v) (hu : work u = 1) (hv : work v = 1)
    : t = t' := by
  have hle : c.num (fun u => work u = 1) ≤ 1 := by
    rw [Control.num_eq_sum]
    apply Nat.le_trans ?_ (Nat.le_of_eq (sum_work h))
    apply Finset.sum_le_sum
    intro i _
    apply Control.lastIs_le
    intro u hu
    exact Nat.le_of_eq (of_decide_eq_true hu).symm
  apply Nat.eq_of_count_le_one hle ht ht'
  . simp [hlabel, hu]
  . simp [hlabel', hv]

/-! ### What the worker has received is in the mailboxes -/

def inHand : Spot numBoxes C → Option Mail
  | .append _ mail _ => some mail
  | _ => none

structure Sorted (c : Control (Store numBoxes X) (Spot numBoxes C)) : Prop where
  inHand : ∀ mail, c.Carries inHand mail → ∀ b,
    c.shared.user.received.filter (fun mail => mail.box = b) =
      (c.shared.lists b).appended ++ [mail].filter (fun mail => mail.box = b)
  put : (∀ mail, ¬c.Carries Machine.inHand mail) → ∀ b,
    c.shared.user.received.filter (fun mail => mail.box = b) = (c.shared.lists b).appended

theorem work_of_inHand {mail : Mail} (h : inHand u = some mail) : work u = 1 := by
  cases u <;> first | contradiction | rfl

theorem inHand_of_isUser (hu : isUser u = true) : inHand u = none := by
  cases u <;> first | contradiction | rfl

theorem not_carries (h : m.system.ControlReachable c) (ht : t < c.numThreads) (hcodes : c.codes t = [u])
    (hu : work u = 1) {t' : Nat} (ht' : t' < c.numThreads) (hne : t' ≠ t) {v : Spot numBoxes C}
    (hlabel : c.label t' = some v)
    : inHand v = none := by
  cases hv : inHand v with
  | none => rfl
  | some mail =>
    exact absurd (worker_unique h ht' ht hlabel (Control.label_of_codes hcodes) (work_of_inHand hv) hu) hne

namespace Sorted

theorem same (h : Sorted c) {call : Call (Spot numBoxes C) (Handler H)} {u' : Spot numBoxes C}
    (hcodes : c.codes t = [u]) (hu : Machine.inHand u = none) (hu' : Machine.inHand u' = none)
    (hreceived : g.user.received = c.shared.user.received)
    (hlists : ∀ b, (g.lists b).appended = (c.shared.lists b).appended)
    : Sorted { c with codes := update c.codes t (call.codes u'), shared := g } := by
  constructor
  . intro mail hmail b
    dsimp only
    rw [hreceived, hlists]
    exact h.inHand mail ((Control.carries_update hcodes hu hu').mp hmail) b
  . intro hnone b
    dsimp only
    rw [hreceived, hlists]
    apply h.put
    intro mail hmail
    exact hnone mail ((Control.carries_update hcodes hu hu').mpr hmail)

theorem receive (h : Sorted c) {call : Call (Spot numBoxes C) (Handler H)} {b : Nat} {mail : Mail}
    {next : Code numBoxes C} (ht : t < c.numThreads) (hcodes : c.codes t = [u])
    (hu : Machine.inHand u = none)
    (hnone : ∀ t', t' < c.numThreads → t' ≠ t → ∀ v, c.label t' = some v → Machine.inHand v = none)
    (hcall : call.codes (.append b mail next) = [.append b mail next])
    (hreceived : g.user.received = c.shared.user.received ++ [mail]) (hlists : g.lists = c.shared.lists)
    : Sorted { c with codes := update c.codes t (call.codes (.append b mail next)), shared := g } := by
  have hput : ∀ b, c.shared.user.received.filter (fun mail => mail.box = b) =
      (c.shared.lists b).appended := by
    apply h.put
    rintro mail' ⟨t', ht', v, hlabel, hv⟩
    have hv' : Machine.inHand v = none := by
      by_cases hne : t' = t
      . subst hne
        rw [Control.label_of_codes hcodes] at hlabel
        injection hlabel with hlabel
        exact hlabel ▸ hu
      . exact hnone t' ht' hne v hlabel
    rw [hv'] at hv
    contradiction
  constructor
  . intro mail' hmail' b'
    have hsame : mail' = mail := by
      obtain hx | ⟨t', ht', hne, v, hlabel, hv⟩ := Control.carries_of_update hmail'
      . injection hx with hx
        exact hx.symm
      . rw [hnone t' ht' hne v hlabel] at hv
        contradiction
    dsimp only
    rw [hreceived, hlists, hsame, List.filter_append, hput]
  . intro hnone
    exfalso
    apply hnone mail
    refine ⟨t, ht, .append b mail next, ?_, rfl⟩
    change (update c.codes t _ t).getLast? = _
    rw [Function.update_self, hcall]
    rfl

theorem append (h : Sorted c) {call : Call (Spot numBoxes C) (Handler H)} {b : Nat} {mail : Mail}
    {next : Code numBoxes C} (ht : t < c.numThreads) (hcodes : c.codes t = [.append b mail next])
    (hb : b = mail.box)
    (hnone : ∀ t', t' < c.numThreads → t' ≠ t → ∀ v, c.label t' = some v → Machine.inHand v = none)
    : Sorted
        { c with
          codes := update c.codes t (call.codes (.signalled b next))
          shared := { c.shared with
            lists := update c.shared.lists b ((c.shared.lists b).append mail) } } := by
  have hmail := h.inHand mail ⟨t, ht, _, Control.label_of_codes hcodes, rfl⟩
  constructor
  . intro mail' hmail'
    obtain hx | ⟨t', ht', hne, v, hlabel, hv⟩ := Control.carries_of_update hmail'
    . contradiction
    . rw [hnone t' ht' hne v hlabel] at hv
      contradiction
  . intro _ b'
    dsimp only
    rw [hmail b']
    by_cases hb' : b' = b
    . subst hb'
      simp [SynchList.Data.append, hb]
    . have hne : ¬mail.box = b' := fun heq => hb' (heq.symm.trans hb.symm)
      simp [hb', hne]

theorem run (h : Sorted c) (hreach : m.system.ControlReachable c) (ht : t < c.numThreads)
    (hcodes : c.codes t = [u]) (hu : m.Local u)
    : Sorted
        { c with
          codes := update c.codes t
            ((m.system.code u c.shared).2.1.codes (m.system.code u c.shared).2.2)
          shared := (m.system.code u c.shared).1 } := by
  have hmoves := m.moves (g := c.shared) hu.1
  generalize m.system.code u c.shared = res at hmoves
  cases hmoves with
  | call u huser | send u huser | receive u huser =>
    exact h.same hcodes (inHand_of_isUser huser) rfl rfl (fun _ => rfl)
  | unlawful u huser =>
    exact h.same hcodes (inHand_of_isUser huser) (inHand_of_isUser huser) rfl (fun _ => rfl)
  | put buffer buffer' mail =>
    refine h.receive ht hcodes rfl ?_ rfl rfl rfl
    intro t' ht' hne v hlabel
    exact not_carries hreach ht hcodes rfl ht' hne hlabel
  | append b mail next =>
    refine h.append ht hcodes hu.2.1 ?_
    intro t' ht' hne v hlabel
    exact not_carries hreach ht hcodes rfl ht' hne hlabel
  | sending letter pktHdr buffer next =>
    refine h.same hcodes rfl rfl ?_ (fun _ => rfl)
    unfold networkSending
    dsimp only
    split <;> rfl
  | remove b next mail list hlist =>
    refine h.same hcodes rfl rfl rfl ?_
    intro b'
    by_cases hb : b' = b
    . subst hb
      simp
    . simp [hb]
  | _ => exact h.same hcodes rfl rfl rfl (fun _ => rfl)

end Sorted

theorem checkPktAvail_frame (g : Globals numBoxes X)
    : (m.checkPktAvail g).1.received = g.received ∧ (m.checkPktAvail g).1.handed = g.handed := by
  unfold checkPktAvail
  dsimp only
  split
  . exact ⟨rfl, rfl⟩
  . split
    . exact ⟨rfl, rfl⟩
    . split <;> exact ⟨rfl, rfl⟩

theorem handed_code (hu : m.Local u)
    (h : ∀ entry ∈ g.user.handed, entry.socket = entry.letter.dest ∧
      Carries m.netAddr entry.letter entry.datagram)
    : ∀ entry ∈ (m.system.code u g).1.user.handed, entry.socket = entry.letter.dest ∧
        Carries m.netAddr entry.letter entry.datagram := by
  have hmoves := m.moves (g := g) hu.1
  generalize m.system.code u g = res at hmoves
  cases hmoves with
  | sending letter pktHdr buffer next =>
    obtain ⟨rfl, hbuffer⟩ := hu.2
    unfold networkSending
    dsimp only
    split
    . exact h
    . intro entry hmem
      obtain hmem | hmem := List.mem_append.mp hmem
      . exact h entry hmem
      . rw [List.mem_singleton.mp hmem]
        refine ⟨rfl, carries_bcopy ?_ hbuffer⟩
        simp [newChars]
  | _ => exact h

theorem sorted (h : m.system.ControlReachable c) : Sorted c := by
  refine Transition.Reachable.invariant
    (P := fun c : Control (Store numBoxes X) (Spot numBoxes C) => Sorted c) ?_ ?_ h
  . rintro c rfl
    refine ⟨?_, fun _ _ => rfl⟩
    rintro mail ⟨t, ht, v, hlabel, hv⟩
    obtain rfl : t = 0 := by simpa [System.controlBoot] using ht
    obtain rfl : SynchList.Code.user Code.schedule = v := Option.some.inj hlabel
    contradiction
  . intro c c' hreach hsorted hstep
    cases hstep with
    | interrupt handler =>
      have hreceived : (m.handler c.shared.user handler).1.received = c.shared.user.received := by
        cases handler with
        | readPoll => exact (checkPktAvail_frame _).1
        | sendDone | user => rfl
      constructor
      . intro mail hmail b
        change (m.handler c.shared.user handler).1.received.filter _ = _
        rw [hreceived]
        exact hsorted.inHand mail hmail b
      . intro hnone b
        change (m.handler c.shared.user handler).1.received.filter _ = _
        rw [hreceived]
        exact hsorted.put hnone b
    | user t u ht hcodes =>
      have hu := System.ControlReachable.closed m.closed hreach t ht u (by simp [hcodes])
      exact hsorted.run hreach ht hcodes hu
    | fork t func u ht hcodes =>
      have hfunc : inHand func = none := by
        obtain ⟨buffer, rfl⟩ | ⟨f, rfl⟩ := fork_inv hreach ht hcodes <;> rfl
      constructor
      . intro mail hmail
        exact hsorted.inHand mail ((Control.carries_fork ht hcodes hfunc).mp hmail)
      . intro hnone
        apply hsorted.put
        intro mail hmail
        exact hnone mail ((Control.carries_fork ht hcodes hfunc).mpr hmail)

def hands (c : Control (Store numBoxes X) (Spot numBoxes C)) : List Mail :=
  (List.range c.numThreads).filterMap fun t => (c.label t).bind inHand

theorem hands_cases (h : m.system.ControlReachable c)
    : (∃ mail, c.Carries inHand mail ∧ hands c = [mail]) ∨
      (∀ mail, ¬c.Carries inHand mail) ∧ hands c = [] := by
  by_cases hcarries : ∃ mail, c.Carries inHand mail
  . obtain ⟨mail, t, ht, u, hlabel, hu⟩ := hcarries
    refine .inl ⟨mail, ⟨t, ht, u, hlabel, hu⟩, ?_⟩
    apply List.filterMap_range_eq_singleton ht
    . simp [hlabel, hu]
    . intro t' ht' hne
      cases hlabel' : c.label t' with
      | none => rfl
      | some v =>
        cases hv : inHand v with
        | none => simp [hv]
        | some mail' =>
          have heq := worker_unique h ht' ht hlabel' hlabel (work_of_inHand hv) (work_of_inHand hu)
          exact absurd heq hne
  . refine .inr ⟨fun mail hmail => hcarries ⟨mail, hmail⟩, ?_⟩
    rw [hands, List.filterMap_eq_nil_iff]
    intro t ht
    rw [List.mem_range] at ht
    cases hlabel : c.label t with
    | none => rfl
    | some u =>
      cases hu : inHand u with
      | none => simp [hu]
      | some mail => exact absurd ⟨mail, t, ht, u, hlabel, hu⟩ hcarries

theorem received_eq (h : m.system.ControlReachable c) (b : Nat)
    : c.shared.user.received.filter (fun mail => mail.box = b) =
        (c.shared.lists b).appended ++ (hands c).filter (fun mail => mail.box = b) := by
  have hsorted := sorted h
  obtain ⟨mail, hcarries, hhands⟩ | ⟨hnone, hhands⟩ := hands_cases h
  . rw [hhands]
    exact hsorted.inHand mail hcarries b
  . rw [hhands]
    simpa using hsorted.put hnone b

/-! ### Every mail fits into its buffer -/

def opened : Spot numBoxes C → Option Mail
  | .user (.received mail _) => some mail
  | _ => none

structure Short (c : Control (Store numBoxes X) (Spot numBoxes C)) : Prop where
  list : ∀ b, ∀ mail ∈ (c.shared.lists b).list, mail.mailHdr.length.toNat ≤ maxMailSize
  opened : ∀ mail, c.Carries opened mail → mail.mailHdr.length.toNat ≤ maxMailSize

namespace Short

theorem update (h : Short c) {call : Call (Spot numBoxes C) (Handler H)} {u' : Spot numBoxes C}
    (hu' : ∀ mail, Machine.opened u' = some mail → mail.mailHdr.length.toNat ≤ maxMailSize)
    (hlists : ∀ b, ∀ mail ∈ (g.lists b).list, mail.mailHdr.length.toNat ≤ maxMailSize)
    : Short { c with codes := update c.codes t (call.codes u'), shared := g } where
  list := hlists
  opened := by
    intro mail hmail
    obtain hx | ⟨t', ht', _, v, hlabel, hv⟩ := Control.carries_of_update hmail
    . exact hu' mail hx
    . exact h.opened mail ⟨t', ht', v, hlabel, hv⟩

theorem run (h : Short c) (ht : t < c.numThreads) (hcodes : c.codes t = [u]) (hu : m.Local u)
    : Short
        { c with
          codes := Function.update c.codes t
            ((m.system.code u c.shared).2.1.codes (m.system.code u c.shared).2.2)
          shared := (m.system.code u c.shared).1 } := by
  have hmoves := m.moves (g := c.shared) hu.1
  generalize m.system.code u c.shared = res at hmoves
  cases hmoves with
  | append b mail next =>
    refine h.update (fun _ hx => by contradiction) ?_
    intro b' mail' hmem
    dsimp only at hmem
    by_cases hb : b' = b
    . subst hb
      obtain hmem | rfl : mail' ∈ (c.shared.lists b').list ∨ mail' = mail := by
        simpa [SynchList.Data.append] using hmem
      . exact h.list b' mail' hmem
      . exact hu.2.2
    . rw [Function.update_of_ne hb] at hmem
      exact h.list b' mail' hmem
  | remove b next mail list hlist =>
    refine h.update ?_ ?_
    . intro mail' hx
      injection hx with hx
      subst hx
      exact h.list b mail (by simp [hlist])
    . intro b' mail' hmem
      dsimp only at hmem
      by_cases hb : b' = b
      . subst hb
        rw [Function.update_self] at hmem
        exact h.list b' mail' (hlist ▸ List.mem_cons_of_mem _ hmem)
      . rw [Function.update_of_ne hb] at hmem
        exact h.list b' mail' hmem
  | refuse mail next hlength =>
    have hle := h.opened mail ⟨t, ht, _, Control.label_of_codes hcodes, rfl⟩
    omega
  | unlawful u =>
    refine h.update ?_ h.list
    intro mail hmail
    exact h.opened mail ⟨t, ht, u, Control.label_of_codes hcodes, hmail⟩
  | _ => exact h.update (fun _ hx => by contradiction) h.list

end Short

theorem short (h : m.system.ControlReachable c) : Short c := by
  refine Transition.Reachable.invariant
    (P := fun c : Control (Store numBoxes X) (Spot numBoxes C) => Short c) ?_ ?_ h
  . rintro c rfl
    constructor
    . intro b mail hmem
      contradiction
    . rintro mail ⟨t, ht, v, hlabel, hv⟩
      obtain rfl : t = 0 := by simpa [System.controlBoot] using ht
      obtain rfl : SynchList.Code.user Code.schedule = v := Option.some.inj hlabel
      contradiction
  . intro c c' hreach hshort hstep
    cases hstep with
    | interrupt handler => exact ⟨hshort.list, hshort.opened⟩
    | user t u ht hcodes =>
      have hu := System.ControlReachable.closed m.closed hreach t ht u (by simp [hcodes])
      exact hshort.run ht hcodes hu
    | fork t func u ht hcodes =>
      have hfunc : opened func = none := by
        obtain ⟨buffer, rfl⟩ | ⟨f, rfl⟩ := fork_inv hreach ht hcodes <;> rfl
      refine ⟨hshort.list, ?_⟩
      intro mail hmail
      exact hshort.opened mail ((Control.carries_fork ht hcodes hfunc).mp hmail)

/-! ### The worker receives what has been read -/

structure Intact (m : Machine numBoxes X C H) (g : Globals numBoxes X) : Prop where
  inbox : g.inbox.length = maxPacketSize
  empty : g.inHdr.length = 0 → g.reads.map readMail = g.received
  full : g.inHdr.length ≠ 0 → ∃ old datagram, g.reads = old ++ [datagram] ∧
    old.map readMail = g.received ∧ g.inHdr = Header.ofBytes datagram ∧
    g.inbox.take g.inHdr.length.toNat = (datagram.drop headerSize).take g.inHdr.length.toNat
  idle : g.sendBusy = false
  asserted : g.failed = false

namespace Intact

variable {x : Globals numBoxes X}

theorem same (h : m.Intact x) {y : Globals numBoxes X} (hinbox : y.inbox = x.inbox)
    (hinHdr : y.inHdr = x.inHdr) (hreads : y.reads = x.reads) (hreceived : y.received = x.received)
    (hbusy : y.sendBusy = false) (hfailed : y.failed = x.failed)
    : m.Intact y where
  inbox := by rw [hinbox, h.inbox]
  empty := by
    rw [hinHdr, hreads, hreceived]
    exact h.empty
  full := by
    rw [hinHdr, hreads, hreceived, hinbox]
    exact h.full
  idle := hbusy
  asserted := by rw [hfailed, h.asserted]

theorem payload (h : m.Intact x) (hfull : x.inHdr.length ≠ 0)
    (hlegal : ∀ datagram ∈ x.reads, m.Legal datagram)
    : ∃ netAddr, ∃ letter : Letter numBoxes, x.inHdr = letter.pktHdr netAddr ∧
        x.inbox.take x.inHdr.length.toNat = letter.payload ∧
        x.reads.map readMail = x.received ++ [letter.mail netAddr] := by
  obtain ⟨old, datagram, hreads, hold, hinHdr, hinbox⟩ := h.full hfull
  obtain ⟨netAddr, letter, _, hcarries⟩ := hlegal datagram (by simp [hreads])
  rw [hcarries.header] at hinHdr
  refine ⟨netAddr, letter, hinHdr, ?_, ?_⟩
  . rw [hinbox, hinHdr, ← letter.length_payload netAddr]
    exact (List.prefix_iff_eq_take.mp hcarries.payload).symm
  . rw [hreads, List.map_append, hold, List.map_singleton, hcarries.readMail_eq]

theorem receive (h : m.Intact x) (hfull : x.inHdr.length ≠ 0)
    (hlegal : ∀ datagram ∈ x.reads, m.Legal datagram) (buffer : List UInt8)
    : ∃ netAddr, ∃ letter : Letter numBoxes,
        openMail x.inHdr (bcopy x.inbox x.inHdr.length.toNat buffer 0) = letter.mail netAddr ∧
        x.reads.map readMail = x.received ++ [letter.mail netAddr] := by
  obtain ⟨netAddr, letter, hinHdr, hpayload, hreads⟩ := h.payload hfull hlegal
  refine ⟨netAddr, letter, ?_, hreads⟩
  have hprefix : letter.payload <+: bcopy x.inbox x.inHdr.length.toNat buffer 0 := by
    rw [bcopy, List.take_zero, List.nil_append, hpayload]
    exact List.prefix_append _ _
  rw [hinHdr] at hprefix ⊢
  exact openMail_of_isPrefix hprefix

theorem buffered (h : m.Intact x) (hlegal : ∀ datagram ∈ x.reads, m.Legal datagram)
    : x.reads.map readMail = x.received ++ x.buffered := by
  unfold Globals.buffered
  split
  next hfull =>
    obtain ⟨netAddr, letter, hinHdr, hpayload, hreads⟩ := h.payload hfull hlegal
    have hprefix : letter.payload <+: x.inbox := hpayload ▸ List.take_prefix _ _
    rw [hreads, hinHdr, openMail_of_isPrefix hprefix]
  next hempty =>
    rw [List.append_nil]
    exact h.empty (by simpa using hempty)

theorem networkSend_legal (h : m.Intact x) (letter : Letter numBoxes)
    : x.sendBusy = false ∧ 0 < (letter.pktHdr m.netAddr).length.toNat ∧
      (letter.pktHdr m.netAddr).length.toNat ≤ maxPacketSize ∧
      (letter.pktHdr m.netAddr).source = m.netAddr := by
  refine ⟨h.idle, ?_, letter.length_pktHdr_le m.netAddr, rfl⟩
  rw [Letter.length_pktHdr]
  exact Nat.lt_of_lt_of_le (by decide : 0 < headerSize) (Nat.le_add_right _ _)

theorem networkSending (h : m.Intact x) (letter : Letter numBoxes) (pktHdr : Header) (buffer : List UInt8)
    : m.Intact (m.networkSending x letter pktHdr buffer) := by
  unfold Machine.networkSending
  dsimp only
  split
  . exact h.same rfl rfl rfl rfl h.idle rfl
  . exact h.same rfl rfl rfl rfl h.idle rfl

theorem code (h : m.Intact g.user) (hu : m.Local u) (hlawful : m.user.Lawful numBoxes)
    (hlegal : ∀ datagram ∈ g.user.reads, m.Legal datagram)
    (hfull : taken u = true → g.user.inHdr.length ≠ 0)
    (hshort : ∀ mail, opened u = some mail → mail.mailHdr.length.toNat ≤ maxMailSize)
    : m.Intact (m.system.code u g).1.user := by
  have hmoves := m.moves (g := g) hu.1
  generalize m.system.code u g = res at hmoves
  cases hmoves with
  | call | send | receive | fork => exact h.same rfl rfl rfl rfl h.idle rfl
  | unlawful u _ x hunlawful => exact absurd hlawful hunlawful
  | refuse mail next hlength =>
    have hle := hshort mail rfl
    omega
  | put buffer buffer' mail hmail hbuffer hlength =>
    obtain ⟨netAddr, letter, hopen, hreads⟩ := h.receive (hfull rfl) hlegal buffer
    rw [← hbuffer (hfull rfl), ← hmail] at hopen
    refine ⟨h.inbox, fun _ => ?_, fun hne => absurd rfl hne, h.idle, h.asserted⟩
    dsimp only
    rw [hreads, hopen]
  | discard buffer buffer' mail hmail hbuffer hillegal =>
    obtain ⟨netAddr, letter, hopen, _⟩ := h.receive (hfull rfl) hlegal buffer
    rw [← hbuffer (hfull rfl), ← hmail] at hopen
    rw [hopen] at hillegal
    exact absurd ⟨letter.dest_nonneg, letter.dest_lt, letter.length_le⟩ hillegal
  | busy letter pktHdr buffer next hassert =>
    obtain ⟨rfl, _⟩ := hu.2
    exact absurd (h.networkSend_legal letter) hassert
  | sending letter pktHdr buffer next =>
    exact h.networkSending letter pktHdr buffer
  | _ => exact h

theorem handler (h : m.Intact x) (toRun : Handler H)
    (hlegal : ∀ datagram ∈ (m.handler x toRun).1.reads, m.Legal datagram)
    : m.Intact (m.handler x toRun).1 := by
  cases toRun with
  | sendDone => exact h.same rfl rfl rfl rfl rfl rfl
  | user => exact h.same rfl rfl rfl rfl h.idle rfl
  | readPoll =>
    change m.Intact (m.checkPktAvail x).1
    obtain ⟨_, heq⟩ | ⟨_, heq⟩ | ⟨datagram, hempty, hdatagram, heq⟩ := m.checkPktAvail_cases x hlegal
    . rw [heq]
      exact h
    . rw [heq]
      exact h.same rfl rfl rfl rfl h.idle rfl
    . rw [heq]
      obtain ⟨hlength, _, hne, hle⟩ := hdatagram.header
      have hdata : (datagram.drop headerSize).length = maxPacketSize := by
        rw [List.length_drop, hlength]
        rfl
      have hinbox := h.inbox
      refine ⟨?_, fun hzero => absurd hzero hne, fun _ => ?_, h.idle, h.asserted⟩
      . dsimp only
        rw [Bytes.length_bcopy (by omega) (by omega), hinbox]
      . refine ⟨x.reads, datagram, rfl, h.empty hempty, rfl, ?_⟩
        have hcopy : (Header.ofBytes datagram).length.toNat ≤ (datagram.drop headerSize).length := by omega
        exact Bytes.drop_bcopy hcopy (Nat.zero_le x.inbox.length)

end Intact

section

variable {ext : Handler H → Prop} {s : State (Store numBoxes X) (Spot numBoxes C) (Handler H)}

theorem store_cases (h : m.system.ReachableBy ext s)
    {s' : State (Store numBoxes X) (Spot numBoxes C) (Handler H)} (hstep : Step m.system.toProgram s s')
    : s'.shared = s.shared ∨
      (∃ handler, s'.shared = { s.shared with user := (m.handler s.shared.user handler).1 }) ∨
      ∃ u rest, s.stack s.currentThread = .user u :: rest ∧ m.Local u ∧
        s'.shared = (m.system.code u s.shared).1 := by
  obtain ⟨frame, rest, frames, s₁, hstack, hout, rfl⟩ := step_cases hstep
  rw [State.setStack_shared]
  obtain heq | ⟨handler, heq⟩ | ⟨u, rfl, heq⟩ := hout.shared_cases
  . exact .inl heq
  . exact .inr (.inl ⟨handler, heq⟩)
  . refine .inr (.inr ⟨u, rest, hstack, ?_, heq⟩)
    apply h.reachable.closed m.closed h.reachable.inv.placed.current_lt
    simp [hstack]

theorem reads_mono (h : m.system.ReachableBy ext s)
    {s' : State (Store numBoxes X) (Spot numBoxes C) (Handler H)} (hstep : Step m.system.toProgram s s')
    : s.shared.user.reads <+: s'.shared.user.reads := by
  obtain heq | ⟨handler, heq⟩ | ⟨u, rest, _, hu, heq⟩ := store_cases h hstep
  . rw [heq]
  . rw [heq]
    cases handler with
    | readPoll => exact m.checkPktAvail_reads s.shared.user
    | sendDone | user => exact List.prefix_rfl
  . rw [heq, (code_full hu.1).2]

theorem handed_mono (h : m.system.ReachableBy ext s)
    {s' : State (Store numBoxes X) (Spot numBoxes C) (Handler H)} (hstep : Step m.system.toProgram s s')
    : s.shared.user.handed <+: s'.shared.user.handed := by
  obtain heq | ⟨handler, heq⟩ | ⟨u, rest, _, hu, heq⟩ := store_cases h hstep
  . rw [heq]
  . rw [heq]
    cases handler with
    | readPoll =>
      change _ <+: (m.checkPktAvail s.shared.user).1.handed
      rw [(checkPktAvail_frame _).2]
    | sendDone | user => exact List.prefix_rfl
  . rw [heq]
    have hmoves := m.moves (g := s.shared) hu.1
    generalize m.system.code u s.shared = res at hmoves
    cases hmoves with
    | sending letter pktHdr buffer next =>
      unfold networkSending
      dsimp only
      split
      . exact List.prefix_rfl
      . exact List.prefix_append _ _
    | _ => exact List.prefix_rfl

theorem handed (h : m.system.ReachableBy ext s)
    : ∀ entry ∈ s.shared.user.handed, entry.socket = entry.letter.dest ∧
        Carries m.netAddr entry.letter entry.datagram := by
  refine Transition.Reachable.invariant
    (P := fun s : State (Store numBoxes X) (Spot numBoxes C) (Handler H) =>
      ∀ entry ∈ s.shared.user.handed, entry.socket = entry.letter.dest ∧
        Carries m.netAddr entry.letter entry.datagram) ?_ ?_ h
  . rintro s ⟨pending, _, rfl⟩ entry hmem
    contradiction
  . intro s s' hreach hhanded hstep
    obtain heq | ⟨handler, heq⟩ | ⟨u, rest, hstack, hu, heq⟩ := store_cases hreach hstep.step
    . rwa [heq]
    . rw [heq]
      cases handler with
      | readPoll =>
        intro entry hmem
        exact hhanded entry ((checkPktAvail_frame s.shared.user).2 ▸ hmem)
      | sendDone | user => exact hhanded
    . rw [heq]
      exact handed_code hu hhanded

theorem guarded (h : m.system.ReachableBy ext s) : (m.system.guard Shaped).RigReachable ext s.rig :=
  (h.guard m.shaped).rig

theorem full_of_taken (h : m.system.ReachableBy ext s)
    (hlegal : ∀ datagram ∈ s.shared.user.reads, m.Legal datagram)
    {rest : List (Frame (Spot numBoxes C) (Handler H))} (hstack : s.stack s.currentThread = .user u :: rest)
    (htaken : taken u = true)
    : s.shared.user.inHdr.length ≠ 0 := by
  have hpast : m.handoff.past (s.rig.client.points s.currentThread) = true := by
    simp only [Handoff.past, State.rig, State.client, hstack, List.filterMap_cons, Frame.point?,
      running_user]
    exact htaken
  have hfull := m.handoff.full_of_past (guarded h) hlegal h.reachable.inv.placed.current_lt hpast
  exact of_decide_eq_true hfull

theorem intact (h : m.system.ReachableBy ext s) (hlawful : m.user.Lawful numBoxes)
    (hlegal : ∀ datagram ∈ s.shared.user.reads, m.Legal datagram)
    : m.Intact s.shared.user := by
  refine Transition.Reachable.invariant
    (P := fun s : State (Store numBoxes X) (Spot numBoxes C) (Handler H) =>
      (∀ datagram ∈ s.shared.user.reads, m.Legal datagram) → m.Intact s.shared.user) ?_ ?_ h hlegal
  . rintro s ⟨pending, _, rfl⟩ _
    exact ⟨by simp [boot, system, SynchList.system, office], fun _ => rfl, fun hne => absurd rfl hne,
      rfl, rfl⟩
  . intro s s' hreach hintact hstep hlegal
    have hlegal' : ∀ datagram ∈ s.shared.user.reads, m.Legal datagram :=
      fun datagram hmem => hlegal datagram ((reads_mono hreach hstep.step).subset hmem)
    have h := hintact hlegal'
    obtain heq | ⟨handler, heq⟩ | ⟨u, rest, hstack, hu, heq⟩ := store_cases hreach hstep.step
    . rw [heq]
      exact h
    . rw [heq] at hlegal ⊢
      exact h.handler handler hlegal
    . rw [heq]
      apply h.code hu hlawful hlegal' (full_of_taken hreach hlegal' hstack)
      intro mail hmail
      have hs := System.ReachableBy.reachable hreach
      refine (short hs.control).opened mail ⟨s.currentThread, hs.inv.placed.current_lt, u, ?_, hmail⟩
      exact Control.label_of_codes (hs.codes_of_user hstack)

theorem kept_of_full (h : m.system.ReachableBy ext s)
    {s' : State (Store numBoxes X) (Spot numBoxes C) (Handler H)} (hstep : Step m.system.toProgram s s')
    (hfull : s.shared.user.inHdr.length ≠ 0)
    : (s'.shared.user.inHdr = s.shared.user.inHdr ∧ s'.shared.user.inbox = s.shared.user.inbox) ∨
      ∃ buffer rest, s.stack s.currentThread = .user (.user (.arrived buffer)) :: rest := by
  obtain heq | ⟨handler, heq⟩ | ⟨u, rest, hstack, hu, heq⟩ := store_cases h hstep
  . rw [heq]
    exact .inl ⟨rfl, rfl⟩
  . left
    rw [heq]
    cases handler with
    | readPoll =>
      have hcheck : m.checkPktAvail s.shared.user = (s.shared.user, _) := if_pos hfull
      change (m.checkPktAvail s.shared.user).1.inHdr = _ ∧ (m.checkPktAvail s.shared.user).1.inbox = _
      rw [hcheck]
      exact ⟨rfl, rfl⟩
    | sendDone | user => exact ⟨rfl, rfl⟩
  . rw [heq]
    have hmoves := m.moves (g := s.shared) hu.1
    generalize m.system.code u s.shared = res at hmoves
    cases hmoves with
    | put buffer | discard buffer => exact .inr ⟨buffer, rest, hstack⟩
    | sending letter pktHdr buffer next =>
      unfold networkSending
      dsimp only
      split <;> exact .inl ⟨rfl, rfl⟩
    | _ => exact .inl ⟨rfl, rfl⟩

end

end Machine

end PostOffice

end Nachos
