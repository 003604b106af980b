import Nachos.Lib.Count
import Nachos.Synch.Client

/-!
This module contains the invariant of semaphores: no unit gets lost or is handed out twice, and no
thread stays on the queue while there are more units than threads that are about to take one.
-/

namespace Nachos

open Function (update)

namespace SyncEvent

def isP (q : SemId) : SyncEvent → Bool
  | .p q' _ => q' = q
  | _ => false

def isV (q : SemId) : SyncEvent → Bool
  | .v q' _ => q' = q
  | _ => false

end SyncEvent

def System.initial (sys : System G U H) : SemId → Int
  | .sem n => sys.value n
  | .lock _ => 1

namespace Client

variable (a : Client G U)

/--
`V` took the thread off the queue, and it did not test the value again since then.
-/
def isWoken (q : SemId) (t : Nat) : Bool :=
  (a.points t).any (Point.isPWhile q) && !(a.sem q).queue.contains t

def numWoken (q : SemId) : Nat :=
  Nat.count (fun t => a.isWoken q t) a.numThreads

end Client

structure SemInv (initial : SemId → Int) (a : Client G U) : Prop where
  nonneg : ∀ q, 0 ≤ (a.sem q).value
  conserved : ∀ q, (a.sem q).value + a.syncLog.countP (SyncEvent.isP q) =
    initial q + a.syncLog.countP (SyncEvent.isV q)
  nodup : ∀ q, (a.sem q).queue.Nodup
  queued : ∀ q t, t ∈ (a.sem q).queue → t < a.numThreads ∧ ∃ rest, a.points t = .pWhile q :: rest
  wakeup : ∀ q, (a.sem q).queue ≠ [] → (a.sem q).value ≤ a.numWoken q

theorem semInv_boot (sys : System G U H) : SemInv sys.initial sys.clientBoot := by
  constructor
  case nonneg =>
    intro q
    cases q with
    | sem n => exact sys.value_nonneg n
    | lock l => exact Int.one_nonneg
  case conserved =>
    intro q
    cases q <;> simp [System.clientBoot, System.initial]
  all_goals
    intro q
    cases q <;> simp [System.clientBoot]

namespace SemInv

variable {initial : SemId → Int} {prog : Program G U H} {a a' : Client G U} {t : Nat}
  {point : Point U} {points rest : List (Point U)}

theorem frame (h : SemInv initial a) (hsem : a'.sem = a.sem)
    (hlog : ∀ q, a'.syncLog.countP (SyncEvent.isP q) = a.syncLog.countP (SyncEvent.isP q) ∧
      a'.syncLog.countP (SyncEvent.isV q) = a.syncLog.countP (SyncEvent.isV q))
    (hle : a.numThreads ≤ a'.numThreads)
    (hpoints : ∀ t, t < a.numThreads → a'.points t = a.points t)
    (hnew : ∀ t, a.numThreads ≤ t → t < a'.numThreads → ∃ func, a'.points t = [.threadRoot func])
    : SemInv initial a' := by
  have hwoken : ∀ q, a'.numWoken q = a.numWoken q := by
    intro q
    unfold Client.numWoken
    rw [Nat.count_of_new hle]
    . apply Nat.count_congr_lt
      intro t ht
      unfold Client.isWoken
      rw [hsem, hpoints t ht]
    . intro t hn ht
      obtain ⟨func, hroot⟩ := hnew t hn ht
      simp [Client.isWoken, hroot, Point.isPWhile]
  constructor
  case nonneg => simpa [hsem] using h.nonneg
  case conserved => simpa [hsem, hlog] using h.conserved
  case nodup => simpa [hsem] using h.nodup
  case queued =>
    rw [hsem]
    intro q t hmem
    obtain ⟨ht, rest, hrest⟩ := h.queued q t hmem
    exact ⟨Nat.lt_of_lt_of_le ht hle, rest, by rw [hpoints t ht, hrest]⟩
  case wakeup => simpa [hsem, hwoken] using h.wakeup

theorem setPoints_numWoken (a : Client G U) (ht : t < a.numThreads) (q : SemId)
    : (a.setPoints t points).numWoken q + (if a.isWoken q t then 1 else 0) =
        a.numWoken q + (if (a.setPoints t points).isWoken q t then 1 else 0) := by
  apply Nat.count_of_agree ht
  intro t' _ hne
  simp [Client.isWoken, hne]

theorem setPoints (h : SemInv initial a) (ht : t < a.numThreads)
    (hawake : ∀ q, t ∉ (a.sem q).queue)
    (hany : ∀ q, points.any (Point.isPWhile q) = (a.points t).any (Point.isPWhile q))
    : SemInv initial (a.setPoints t points) := by
  constructor
  case nonneg => exact h.nonneg
  case conserved => exact h.conserved
  case nodup => exact h.nodup
  case queued =>
    intro q t' hmem
    have hne : t' ≠ t := by
      rintro rfl
      exact hawake q hmem
    simpa [hne] using h.queued q t' hmem
  case wakeup =>
    intro q hqueue
    have hcount : (a.setPoints t points).numWoken q + _ = _ := setPoints_numWoken a ht q
    have hsame : (a.setPoints t points).isWoken q t = a.isWoken q t := by
      simp [Client.isWoken, hany]
    rw [hsame] at hcount
    have hold := h.wakeup q hqueue
    rw [Client.setPoints_sem]
    omega

theorem post (h : SemInv initial a) (q : SemId) (t : Nat) : SemInv initial (a.post q t) := by
  have hother : ∀ q', q' ≠ q → (a.post q t).sem q' = a.sem q' := by
    intro q' hne
    simp [hne]
  constructor
  case nonneg =>
    intro q'
    by_cases hq : q' = q
    . subst hq
      have := h.nonneg q'
      simp
      omega
    . rw [hother q' hq]
      exact h.nonneg q'
  case conserved =>
    intro q'
    have := h.conserved q'
    by_cases hq : q' = q
    . subst hq
      simp [SyncEvent.isP, SyncEvent.isV]
      omega
    . have hne : ¬q = q' := fun heq => hq heq.symm
      rw [hother q' hq]
      simpa [SyncEvent.isP, SyncEvent.isV, hne] using this
  case nodup =>
    intro q'
    by_cases hq : q' = q
    . subst hq
      simpa using (h.nodup q').tail
    . rw [hother q' hq]
      exact h.nodup q'
  case queued =>
    intro q' t' hmem
    by_cases hq : q' = q
    . subst hq
      exact h.queued q' t' (List.mem_of_mem_tail (by simpa using hmem))
    . rw [hother q' hq] at hmem
      exact h.queued q' t' hmem
  case wakeup =>
    intro q' hqueue
    by_cases hq : q' = q
    . subst hq
      cases hold : (a.sem q').queue with
      | nil => simp [hold] at hqueue
      | cons first queue =>
        -- the thread that is taken off the queue counts as woken from now on
        obtain ⟨ht, rest, hrest⟩ := h.queued q' first (by simp [hold])
        have hnodup := h.nodup q'
        rw [hold, List.nodup_cons] at hnodup
        have hcount : (a.post q' t).numWoken q' + (if a.isWoken q' first then 1 else 0) =
            a.numWoken q' + (if (a.post q' t).isWoken q' first then 1 else 0) := by
          apply Nat.count_of_agree ht
          intro t' _ hne
          simp [Client.isWoken, hold, hne]
        have hbefore : a.isWoken q' first = false := by simp [Client.isWoken, hold]
        have hafter : (a.post q' t).isWoken q' first = true := by
          simp [Client.isWoken, hold, hrest, Point.isPWhile, hnodup.1]
        have hle := h.wakeup q' (by simp [hold])
        rw [hbefore, hafter] at hcount
        simp only [Client.post_sem, Function.update_self, Bool.false_eq_true, if_false, if_true]
          at hcount ⊢
        omega
    . rw [hother q' hq] at hqueue ⊢
      have hsame : (a.post q t).numWoken q' = a.numWoken q' := by
        apply Nat.count_congr_lt
        intro t' _
        simp [Client.isWoken, hq]
      rw [hsame]
      exact h.wakeup q' hqueue

theorem take (h : SemInv initial a) {q : SemId} (hvalue : (a.sem q).value ≠ 0)
    (ht : t < a.numThreads) (hawake : ∀ q, t ∉ (a.sem q).queue)
    (hpoints : a.points t = point :: rest) (hpoint : point = .p q ∨ point = .pWhile q)
    (hrest : ∀ q, rest.any (Point.isPWhile q) = false)
    : SemInv initial ((a.take q t).setPoints t rest) := by
  have hother : ∀ q', q' ≠ q → (a.take q t).sem q' = a.sem q' := by
    intro q' hne
    simp [hne]
  have hqueue : ∀ q', ((a.take q t).sem q').queue = (a.sem q').queue := by
    intro q'
    by_cases hq : q' = q
    . subst hq
      simp
    . rw [hother q' hq]
  have hpos : 0 < (a.sem q).value := by
    have := h.nonneg q
    omega
  constructor
  case nonneg =>
    intro q'
    rw [Client.setPoints_sem]
    by_cases hq : q' = q
    . subst hq
      simp
      omega
    . rw [hother q' hq]
      exact h.nonneg q'
  case conserved =>
    intro q'
    have := h.conserved q'
    rw [Client.setPoints_sem, Client.setPoints_syncLog]
    by_cases hq : q' = q
    . subst hq
      simp [SyncEvent.isP, SyncEvent.isV]
      omega
    . have hne : ¬q = q' := fun heq => hq heq.symm
      rw [hother q' hq]
      simpa [SyncEvent.isP, SyncEvent.isV, hne] using this
  case nodup =>
    intro q'
    rw [Client.setPoints_sem, hqueue]
    exact h.nodup q'
  case queued =>
    intro q' t' hmem
    rw [Client.setPoints_sem, hqueue] at hmem
    have hne : t' ≠ t := by
      rintro rfl
      exact hawake q' hmem
    simpa [hne] using h.queued q' t' hmem
  case wakeup =>
    intro q' hne
    rw [Client.setPoints_sem, hqueue] at hne
    have hle := h.wakeup q' hne
    have htake : (a.take q t).numWoken q' = a.numWoken q' := by
      apply Nat.count_congr_lt
      intro t' _
      simp only [Client.isWoken, hqueue, Client.take_points]
    have hcount : ((a.take q t).setPoints t rest).numWoken q' + _ = _ :=
      setPoints_numWoken (a.take q t) ht q'
    have hafter : ((a.take q t).setPoints t rest).isWoken q' t = false := by
      simp [Client.isWoken, hrest]
    rw [hafter, htake] at hcount
    rw [Client.setPoints_sem]
    by_cases hq : q' = q
    . subst hq
      have hval : ((a.take q' t).sem q').value = (a.sem q').value - 1 := by simp
      rw [hval]
      split at hcount <;> simp at hcount <;> omega
    . rw [hother q' hq]
      have hbefore : (a.take q t).isWoken q' t = false := by
        have hne : ¬q = q' := fun heq => hq heq.symm
        rcases hpoint with rfl | rfl <;> simp [Client.isWoken, hpoints, hrest, Point.isPWhile, hne]
      rw [hbefore] at hcount
      simp at hcount
      omega

theorem block (h : SemInv initial a) {q : SemId} (hvalue : (a.sem q).value = 0)
    (ht : t < a.numThreads) (hawake : ∀ q, t ∉ (a.sem q).queue)
    (hpoints : a.points t = point :: rest) (hpoint : point = .p q ∨ point = .pWhile q)
    : SemInv initial ((a.enqueue q t).setPoints t (.pWhile q :: rest)) := by
  have hother : ∀ q', q' ≠ q → (a.enqueue q t).sem q' = a.sem q' := by
    intro q' hne
    simp [hne]
  have hvalue' : ∀ q', ((a.enqueue q t).sem q').value = (a.sem q').value := by
    intro q'
    by_cases hq : q' = q
    . subst hq
      simp
    . rw [hother q' hq]
  constructor
  case nonneg =>
    intro q'
    rw [Client.setPoints_sem, hvalue']
    exact h.nonneg q'
  case conserved =>
    intro q'
    rw [Client.setPoints_sem, hvalue']
    exact h.conserved q'
  case nodup =>
    intro q'
    rw [Client.setPoints_sem]
    by_cases hq : q' = q
    . subst hq
      have : (a.sem q').queue.Nodup := h.nodup q'
      simp [List.nodup_append, this]
      rintro t' hmem rfl
      exact hawake q' hmem
    . rw [hother q' hq]
      exact h.nodup q'
  case queued =>
    intro q' t' hmem
    rw [Client.setPoints_sem] at hmem
    by_cases hne : t' = t
    . subst hne
      have hq : q' = q := by
        by_contra hq
        rw [hother q' hq] at hmem
        exact hawake q' hmem
      subst hq
      exact ⟨ht, rest, by simp⟩
    . have hold : t' ∈ (a.sem q').queue := by
        by_cases hq : q' = q
        . subst hq
          simpa [hne] using hmem
        . rwa [hother q' hq] at hmem
      simpa [hne] using h.queued q' t' hold
  case wakeup =>
    intro q' hqueue
    rw [Client.setPoints_sem, hvalue']
    by_cases hq : q' = q
    . subst hq
      rw [hvalue]
      exact Int.natCast_nonneg _
    . rw [Client.setPoints_sem, hother q' hq] at hqueue
      have hsame : ((a.enqueue q t).setPoints t (.pWhile q :: rest)).numWoken q' = a.numWoken q' := by
        apply Nat.count_congr_lt
        intro t' _
        have hne : ¬q = q' := fun heq => hq heq.symm
        by_cases hte : t' = t
        . subst hte
          rcases hpoint with rfl | rfl <;>
            simp [Client.isWoken, hq, hpoints, Point.isPWhile, hne]
        . simp [Client.isWoken, hq, hte]
      rw [hsame]
      exact h.wakeup q' hqueue

theorem silent (h : SemInv initial a) (ht : t < a.numThreads) (hawake : a.Awake t)
    (hpoints : a.points t = point :: rest) (hact : Client.Act prog a t point points a')
    (hsem : a'.sem = a.sem)
    (hlog : ∀ q, a'.syncLog.countP (SyncEvent.isP q) = a.syncLog.countP (SyncEvent.isP q) ∧
      a'.syncLog.countP (SyncEvent.isV q) = a.syncLog.countP (SyncEvent.isV q))
    (hpoint : ∀ q, point.isPWhile q = false) (hnone : ∀ q, points.any (Point.isPWhile q) = false)
    : SemInv initial (a'.setPoints t (points ++ rest)) := by
  have hframe : SemInv initial a' := by
    refine h.frame hsem hlog hact.numThreads_le (fun t' ht' => hact.points_of_lt ht') ?_
    intro t' hle hlt
    exact hact.points_of_not_lt hlt (by omega)
  refine hframe.setPoints (Nat.lt_of_lt_of_le ht hact.numThreads_le) ?_ ?_
  . rw [hsem]
    exact hawake.1
  . intro q
    rw [hact.points_of_lt ht, hpoints, List.any_append, hnone, List.any_cons, hpoint]

theorem step (h : SemInv initial a) (hshape : ∀ t, t < a.numThreads → Shape (a.points t))
    (hstep : Client.Step prog a a')
    : SemInv initial a' := by
  cases hstep with
  | interrupt => exact ⟨h.nonneg, h.conserved, h.nodup, h.queued, h.wakeup⟩
  | interruptV t n => exact h.post (.sem n) t
  | thread t point points rest a' ht hawake hpoints hact =>
    have hrest : ∀ q, rest.any (Point.isPWhile q) = false := by
      intro q
      have := hshape t ht
      rw [hpoints] at this
      exact this.tail_isPWhile q
    have hsilent := h.silent ht hawake hpoints hact
    cases hact with
    | pTake q hvalue => exact h.take hvalue ht hawake.1 hpoints (.inl rfl) hrest
    | pWhileTake q hvalue => exact h.take hvalue ht hawake.1 hpoints (.inr rfl) hrest
    | pBlock q hvalue => exact h.block hvalue ht hawake.1 hpoints (.inl rfl)
    | pWhileBlock q hvalue => exact h.block hvalue ht hawake.1 hpoints (.inr rfl)
    | v q =>
      refine (h.post q t).setPoints ht ?_ ?_
      . intro q' hmem
        by_cases hq : q' = q
        . subst hq
          exact hawake.1 q' (List.mem_of_mem_tail (by simpa using hmem))
        . exact hawake.1 q' (by simpa [hq] using hmem)
      . intro q'
        simp [hpoints, Point.isPWhile]
    | user u =>
      refine hsilent rfl (fun _ => ⟨rfl, rfl⟩) (fun _ => rfl) ?_
      intro q
      cases (prog.code u a.shared).2.1 <;>
        simp [Call.points, Call.frames, Frame.point?, Point.isPWhile]
    | setOwner l =>
      refine hsilent rfl ?_ (fun _ => rfl) (fun _ => rfl)
      simp [SyncEvent.isP, SyncEvent.isV]
    | release l howner =>
      refine hsilent rfl ?_ (fun _ => rfl) (fun _ => rfl)
      simp [SyncEvent.isP, SyncEvent.isV]
    | _ => exact hsilent rfl (fun _ => ⟨rfl, rfl⟩) (fun _ => rfl) (fun _ => rfl)

end SemInv

theorem System.ClientReachable.semInv {sys : System G U H} {a : Client G U}
    (h : sys.ClientReachable a)
    : SemInv sys.initial a := by
  refine Transition.Reachable.invariant ?_ ?_ h
  . rintro a rfl
    exact semInv_boot sys
  . intro a a' hreach hinv hstep
    exact hinv.step (System.ClientReachable.shape hreach) hstep

/-! ### The semaphores of the kernel -/

def Frame.isPWhile (q : SemId) : Frame U H → Bool
  | .pWhile q' _ => q' = q
  | _ => false

def State.isWoken (s : State G U H) (q : SemId) (t : Nat) : Bool :=
  (s.stack t).any (Frame.isPWhile q) && !(s.sem q).queue.contains t

theorem State.isWoken_client (s : State G U H) (q : SemId) (t : Nat)
    : s.client.isWoken q t = s.isWoken q t := by
  have hany : ∀ stack : List (Frame U H),
      (stack.filterMap Frame.point?).any (Point.isPWhile q) = stack.any (Frame.isPWhile q) := by
    intro stack
    induction stack with
    | nil => rfl
    | cons frame rest ih =>
      rw [List.any_cons, ← ih]
      cases frame <;> rfl
  simp [Client.isWoken, State.isWoken, State.client, hany]

theorem semaphore_conservation {sys : System G U H} {s : State G U H} (h : sys.Reachable s)
    (q : SemId)
    : 0 ≤ (s.sem q).value ∧
      (s.sem q).value = sys.initial q + s.syncLog.countP (SyncEvent.isV q) -
        s.syncLog.countP (SyncEvent.isP q) ∧
      ((s.sem q).queue ≠ [] → (s.sem q).value ≤ Nat.count (fun t => s.isWoken q t) s.numThreads) ∧
      ((∀ t, t < s.numThreads → s.isWoken q t = false) → 0 < (s.sem q).value →
        (s.sem q).queue = []) := by
  have hinv := h.client.semInv
  have hcount : s.client.numWoken q = Nat.count (fun t => s.isWoken q t) s.numThreads := by
    apply Nat.count_congr_lt
    intro t _
    rw [State.isWoken_client]
  have hwakeup : (s.sem q).queue ≠ [] →
      (s.sem q).value ≤ Nat.count (fun t => s.isWoken q t) s.numThreads := by
    intro hqueue
    rw [← hcount]
    exact hinv.wakeup q hqueue
  refine ⟨hinv.nonneg q, ?_, hwakeup, ?_⟩
  . have hconserved : (s.sem q).value + s.syncLog.countP (SyncEvent.isP q) =
        sys.initial q + s.syncLog.countP (SyncEvent.isV q) :=
      hinv.conserved q
    omega
  . intro hnone hpos
    by_contra hqueue
    have hle := hwakeup hqueue
    have hzero : Nat.count (fun t => s.isWoken q t) s.numThreads = 0 := by
      by_contra hne
      obtain ⟨t, ht, hwoken⟩ := Nat.count_ne_iff_exists.mp hne
      rw [hnone t ht] at hwoken
      contradiction
    rw [hzero] at hle
    omega

theorem semaphore_conservation_woken
    : ((scriptRun [[.p 0], [.p 0], [.v 0]] [.fork 0, .fork 1, .fork 2, .yield] [] 40).sem
          (.sem 0)).queue = [2] ∧
      ((scriptRun [[.p 0], [.p 0], [.v 0]] [.fork 0, .fork 1, .fork 2, .yield] [] 40).sem
          (.sem 0)).value ≤
        Nat.count (fun t => (scriptRun [[.p 0], [.p 0], [.v 0]]
          [.fork 0, .fork 1, .fork 2, .yield] [] 40).isWoken (.sem 0) t)
          (scriptRun [[.p 0], [.p 0], [.v 0]] [.fork 0, .fork 1, .fork 2, .yield] [] 40).numThreads := by
  -- `V` has woken up thread 1, which did not go on yet, and thread 2 is still on the queue.
  have hqueue : ((scriptRun [[.p 0], [.p 0], [.v 0]] [.fork 0, .fork 1, .fork 2, .yield] [] 40).sem
      (.sem 0)).queue = [2] := by
    decide +kernel
  refine ⟨hqueue, (semaphore_conservation (reachable_scriptRun _ _ _ _) (.sem 0)).2.2.1 ?_⟩
  rw [hqueue]
  exact List.cons_ne_nil _ _

end Nachos
