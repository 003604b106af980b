import Nachos.Lib.Linearize
import Nachos.Synch.Control
import Nachos.Synch.Request

/-!
This module contains `synchdisk.cc` on top of the disk of `disk.cc`, for any code that uses them. The
calls of `ReadSector` and `WriteSector` are linearizable, and the disk never gets a request while it
works on another one.
-/

namespace Nachos

open Function (update)
open Linearize (Mark Legal WellMarked marksOf effects history final Linearization)

namespace SynchDisk

def sectorsPerTrack : Nat := 32
def numTracks : Nat := 32
def numSectors : Nat := sectorsPerTrack * numTracks

inductive Op (α : Type) where
  | read (sector : Fin numSectors)
  | write (sector : Fin numSectors) (data : α)
  deriving DecidableEq

def Op.run (contents : Fin numSectors → α) : Op α → (Fin numSectors → α) × Option α
  | .read sector => (contents, some (contents sector))
  | .write sector data => (update contents sector data, none)

inductive Request (α C H : Type) where
  | call (call : Call C H) (next : C)
  | access (op : Op α) (next : Option α → C)

structure User (α X C H : Type) where
  code : C → X → X × Request α C H
  handler : H → X → X × List (HandlerCall H)
  globals : X
  main : C
  value : Nat → Int
  value_nonneg : ∀ n, 0 ≤ value n

/--
`active` and the contents are those of the `Disk`, the rest is history: `current` is the call whose request the disk
got last, `completions` are the requests that `RequestDone` was called for, and `taken` those for which `P` has
returned. `failed` says whether an `ASSERT(!active)` has failed.
-/
structure Globals (α X : Type) where
  user : X
  contents : Fin numSectors → α
  active : Bool
  calls : Nat
  current : Nat
  log : List (Mark (Op α) (Option α))
  completions : List Nat
  taken : List Nat
  failed : Bool

/--
The control points: of the user, and in call `k` of `ReadSector` or `WriteSector` after `Acquire`, after the
request, after `P` and after `Release`.
-/
inductive Code (α C : Type) where
  | user (c : C)
  | acquired (k : Nat) (op : Op α) (next : Option α → C)
  | requested (k : Nat) (op : Op α) (result : Option α) (next : C)
  | completed (k : Nat) (op : Op α) (result : Option α) (next : C)
  | released (k : Nat) (op : Op α) (result : Option α) (next : C)

inductive Handler (H : Type) where
  | diskDone
  | user (handler : H)
  deriving DecidableEq

def lock : Nat := 0
def semaphore : Nat := 0

def userNames : Rename C (Code α C) H (Handler H) where
  lock l := l + 1
  cond := id
  sem n := n + 1
  func := .user
  handler := .user

section

variable {α X C H : Type}

def runUser (user : User α X C H) (g : Globals α X) (c : C)
    : Globals α X × Call (Code α C) (Handler H) × Code α C :=
  let (x, request) := user.code c g.user
  match request with
  | .call call next => ({ g with user := x }, call.rename userNames, .user next)
  | .access op next =>
    ({ g with user := x, calls := g.calls + 1, log := g.log ++ [.invoke g.calls op] },
      .acquire lock, .acquired g.calls op next)

/--
`latency` is what `ComputeLatency` returns in call `k`, it depends on the clock.
-/
def run (latency : Nat → Nat) (user : User α X C H) (g : Globals α X)
    : Code α C → Globals α X × Call (Code α C) (Handler H) × Code α C
  | .user c => runUser user g c
  | .acquired k op next =>
    if g.active then
      -- the program ends with the failed `ASSERT`
      ({ g with failed := true }, .finish, .acquired k op next)
    else
      let (contents, result) := op.run g.contents
      ({ g with
          contents := contents, active := true, current := k
          log := g.log ++ [.effect k op result] },
        .schedule .diskDone (latency k) .diskInt, .requested k op result (next result))
  | .requested k op result next => (g, .p semaphore, .completed k op result next)
  | .completed k op result next =>
    ({ g with taken := g.taken ++ [k] }, .release lock, .released k op result next)
  | .released k _ result next => runUser user { g with log := g.log ++ [.ret k result] } next

def handleInterrupt (g : Globals α X) : Globals α X :=
  { g with active := false, completions := g.completions ++ [g.current] }

def system (latency : Nat → Nat) (contents : Fin numSectors → α) (user : User α X C H)
    : System (Globals α X) (Code α C) (Handler H) where
  code u g := run latency user g u
  handler
    | .diskDone, g => (handleInterrupt g, [.v semaphore])
    | .user handler, g =>
      ({ g with user := (user.handler handler g.user).1 },
        (user.handler handler g.user).2.map
          (HandlerCall.rename (userNames : Rename C (Code α C) H (Handler H))))
  globals :=
    { user := user.globals, contents := contents, active := false, calls := 0, current := 0, log := []
      completions := [], taken := [], failed := false }
  main := .user user.main
  value
    | 0 => 0
    | n + 1 => user.value n
  value_nonneg
    | 0 => Int.le_refl 0
    | n + 1 => user.value_nonneg n

end

/-! ### The lock, the semaphore and the interrupt -/

def Code.held : Code α C → Bool
  | .user _ | .released .. => false
  | .acquired .. | .requested .. | .completed .. => true

def Code.sent : Code α C → Bool
  | .requested .. => true
  | _ => false

section

variable {α X C H : Type} {latency : Nat → Nat} {contents : Fin numSectors → α} {user : User α X C H}
  {g : Globals α X}

theorem runUser_cases (user : User α X C H) (g : Globals α X) (c : C)
    : (∃ x, ∃ call : Call C H, ∃ next, runUser user g c =
        ({ g with user := x }, call.rename userNames, .user next)) ∨
      ∃ x op next, runUser user g c =
        ({ g with user := x, calls := g.calls + 1, log := g.log ++ [.invoke g.calls op] },
          .acquire lock, .acquired g.calls op next) := by
  unfold runUser
  generalize user.code c g.user = res
  obtain ⟨x, request⟩ := res
  cases request with
  | call call next => exact .inl ⟨x, call, next, rfl⟩
  | access op next => exact .inr ⟨x, op, next, rfl⟩

theorem runUser_keeps (c : C)
    : (runUser user g c).2.1.Keeps lock Code.held false (runUser user g c).2.2 := by
  obtain ⟨x, call, next, heq⟩ | ⟨x, op, next, heq⟩ := runUser_cases user g c
  . rw [heq]
    exact Call.rename_keeps call (fun l => Nat.succ_ne_zero l) (fun _ => rfl) rfl
  . rw [heq]
    simp [Call.Keeps, Code.held]

theorem runUser_sends [DecidableEq H] (c : C)
    : (runUser user g c).2.1.Sends semaphore .diskDone Code.sent false (runUser user g c).2.2 := by
  obtain ⟨x, call, next, heq⟩ | ⟨x, op, next, heq⟩ := runUser_cases user g c
  . rw [heq]
    exact Call.rename_sends call (fun n => Nat.succ_ne_zero n) (fun _ => by simp [userNames])
      (fun _ => rfl) rfl
  . rw [heq]
    exact ⟨rfl, rfl, by simp, by simp⟩

theorem run_keeps (u : Code α C)
    : (run latency user g u).2.1.Keeps lock Code.held u.held (run latency user g u).2.2 := by
  cases u with
  | user c => exact runUser_keeps c
  | acquired k op next =>
    rw [run]
    split <;> rfl
  | requested k op result next => rfl
  | completed k op result next => simp [run, Call.Keeps, Code.held]
  | released k op result next => exact runUser_keeps next

theorem run_sends [DecidableEq H] (u : Code α C)
    : (run latency user g u).2.1.Sends semaphore .diskDone Code.sent u.sent (run latency user g u).2.2 := by
  cases u with
  | user c => exact runUser_sends c
  | acquired k op next =>
    rw [run]
    split
    . exact ⟨rfl, rfl, by simp, by simp⟩
    . exact ⟨rfl, by simp [Code.sent, Call.isSchedule], by simp, by simp⟩
  | requested k op result next =>
    exact ⟨by simp [run, Code.sent, Call.isP], rfl, by simp [run], by simp [run]⟩
  | completed k op result next => exact ⟨rfl, rfl, by simp [run], by simp [run]⟩
  | released k op result next => exact runUser_sends next

def request [DecidableEq H] (latency : Nat → Nat) (contents : Fin numSectors → α) (user : User α X C H)
    : Nachos.Request (system latency contents user) lock semaphore .diskDone where
  held := Code.held
  main := rfl
  code u _ := run_keeps u
  sent := Code.sent
  held_of_sent u h := by cases u <;> first | contradiction | rfl
  sent_main := rfl
  sends u _ := run_sends u
  value := rfl
  posts handler g := by
    cases handler with
    | diskDone => simp [system, HandlerCall.posts]
    | user handler =>
      exact HandlerCall.count_posts_rename (fun n => Nat.succ_ne_zero n) _
  schedules handler g := by
    cases handler with
    | diskDone => rfl
    | user handler => exact HandlerCall.count_schedules_rename (fun _ => by simp [userNames]) _

theorem runUser_active (c : C) : (runUser user g c).1.active = g.active := by
  obtain ⟨x, call, next, heq⟩ | ⟨x, op, next, heq⟩ := runUser_cases user g c <;> rw [heq]

theorem runUser_isSchedule [DecidableEq H] (c : C)
    : (runUser user g c).2.1.isSchedule .diskDone = false := by
  obtain ⟨x, call, next, heq⟩ | ⟨x, op, next, heq⟩ := runUser_cases user g c
  . rw [heq]
    cases call <;> simp [Call.rename, Call.isSchedule, userNames]
  . rw [heq]
    rfl

theorem active_busy [DecidableEq H]
    : Nachos.Request.Busy (system latency contents user) .diskDone Globals.active where
  init := rfl
  code u g := by
    change (run latency user g u).1.active = ((run latency user g u).2.1.isSchedule .diskDone || g.active)
    cases u with
    | user c => rw [run, runUser_active, runUser_isSchedule, Bool.false_or]
    | acquired k op next =>
      rw [run]
      split
      . rfl
      . simp [Call.isSchedule]
    | requested | completed => rfl
    | released k op result next => rw [run, runUser_active, runUser_isSchedule, Bool.false_or]
  handler handler g := by
    cases handler with
    | diskDone => simp [system, handleInterrupt]
    | user handler => simp [system]

end

/-! ### The calls are linearizable -/

def Code.progress : Code α C → Option (Nat × List (Mark (Op α) (Option α)))
  | .user _ => none
  | .acquired k op _ => some (k, [.invoke k op])
  | .requested k op result _ | .completed k op result _ | .released k op result _ =>
    some (k, [.invoke k op, .effect k op result])

def Code.released? : Code α C → Option Nat
  | .released k _ _ _ => some k
  | _ => none

def Holds (c : Control (Globals α X) (Code α C)) (t : Nat)
    (x : Nat × List (Mark (Op α) (Option α))) : Prop :=
  t < c.numThreads ∧ ∃ u, c.label t = some u ∧ u.progress = some x

structure Logged (contents : Fin numSectors → α) (c : Control (Globals α X) (Code α C)) : Prop where
  progress : Linearize.InProgress c.shared.log c.shared.calls (Holds c)
  legal : Legal Op.run contents (effects c.shared.log)
  contents : final Op.run contents (effects c.shared.log) = c.shared.contents
  released : ∀ t, t < c.numThreads → ∀ u, c.label t = some u → ∀ k, u.released? = some k →
    k ∈ c.shared.taken
  returned : ∀ k result, .ret k result ∈ c.shared.log → k ∈ c.shared.taken

namespace Logged

variable {α X C H : Type} {latency : Nat → Nat} {contents : Fin numSectors → α} {user : User α X C H}
  {c : Control (Globals α X) (Code α C)} {t : Nat} {call : Call (Code α C) (Handler H)}

theorem holds_of_codes {u : Code α C} (ht : t < c.numThreads) (hcodes : c.codes t = [u])
    {x : Nat × List (Mark (Op α) (Option α))} (hx : u.progress = some x)
    : Holds c t x :=
  ⟨ht, u, by simp [Control.label, hcodes], hx⟩

theorem holds_update {u : Code α C} {g : Globals α X} {t' : Nat}
    {x : Nat × List (Mark (Op α) (Option α))}
    (h : Holds { c with codes := update c.codes t (call.codes u), shared := g } t' x)
    : (t' = t ∧ u.progress = some x) ∨ (t' ≠ t ∧ Holds c t' x) := by
  obtain ⟨ht', v, hlabel, hv⟩ := h
  obtain ⟨rfl, rfl⟩ | ⟨hne, hold⟩ := Control.label_update hlabel
  . exact .inl ⟨rfl, hv⟩
  . exact .inr ⟨hne, ht', v, hold, hv⟩

theorem released_update (h : Logged contents c) {u : Code α C} {g : Globals α X}
    (htaken : ∀ k ∈ c.shared.taken, k ∈ g.taken) (hreleased : ∀ k, u.released? = some k → k ∈ g.taken)
    : ∀ t', t' < c.numThreads → ∀ v,
        (Control.mk c.numThreads (update c.codes t (call.codes u)) g).label t' = some v →
        ∀ k, v.released? = some k → k ∈ g.taken := by
  intro t' ht' v hlabel k hk
  obtain ⟨rfl, rfl⟩ | ⟨hne, hold⟩ := Control.label_update hlabel
  . exact hreleased k hk
  . exact htaken k (h.released t' ht' v hold k hk)

theorem relabel (h : Logged contents c) {u u' : Code α C} {g : Globals α X} (ht : t < c.numThreads)
    (hcodes : c.codes t = [u]) (hprogress : ∀ x, u'.progress = some x → u.progress = some x)
    (hlog : g.log = c.shared.log) (hcalls : g.calls = c.shared.calls)
    (hcontents : g.contents = c.shared.contents) (htaken : ∀ k ∈ c.shared.taken, k ∈ g.taken)
    (hreleased : ∀ k, u'.released? = some k → k ∈ g.taken)
    : Logged contents { c with codes := update c.codes t (call.codes u'), shared := g } where
  progress := by
    rw [hlog, hcalls]
    refine h.progress.mono ?_
    intro t' x hx
    obtain ⟨rfl, hu⟩ | ⟨_, hold⟩ := holds_update hx
    . exact holds_of_codes ht hcodes (hprogress x hu)
    . exact hold
  legal := hlog ▸ h.legal
  contents := by
    rw [hlog, hcontents]
    exact h.contents
  released := h.released_update htaken hreleased
  returned := by
    intro k result hret
    rw [hlog] at hret
    exact htaken k (h.returned k result hret)

theorem invoke (h : Logged contents c) (x : X) (op : Op α) (next : Option α → C)
    : Logged contents
        { c with
          codes := update c.codes t (call.codes (.acquired c.shared.calls op next))
          shared := { c.shared with
            user := x, calls := c.shared.calls + 1
            log := c.shared.log ++ [.invoke c.shared.calls op] } } where
  progress := by
    refine h.progress.invoke (t := t) ?_
    intro t' x hx
    obtain ⟨rfl, hu⟩ | ⟨_, hold⟩ := holds_update hx
    . injection hu with hu
      exact .inl ⟨rfl, hu.symm⟩
    . exact .inr hold
  legal := by simpa using h.legal
  contents := by simpa using h.contents
  released := h.released_update (fun _ => id) (fun _ hk => by contradiction)
  returned := by
    intro k result hret
    exact h.returned k result (by simpa using hret)

theorem effect (h : Logged contents c) {k : Nat} {op : Op α} {next : Option α → C}
    (ht : t < c.numThreads) (hcodes : c.codes t = [.acquired k op next])
    : Logged contents
        { c with
          codes := update c.codes t (call.codes
            (.requested k op (op.run c.shared.contents).2 (next (op.run c.shared.contents).2)))
          shared := { c.shared with
            contents := (op.run c.shared.contents).1, active := true, current := k
            log := c.shared.log ++ [.effect k op (op.run c.shared.contents).2] } } where
  progress := by
    refine h.progress.append (t := t) [.invoke k op] (holds_of_codes ht hcodes rfl) ?_ ?_
    . exact ⟨op, (op.run c.shared.contents).2, by simp [Mark.call]⟩
    . intro t' x hx
      obtain ⟨rfl, hu⟩ | ⟨hne, hold⟩ := holds_update hx
      . injection hu with hu
        exact .inl ⟨rfl, hu.symm⟩
      . exact .inr ⟨hne, hold⟩
  legal := by
    simp only [Linearize.effects_append, Linearize.effects_effect]
    refine Linearize.legal_append.mpr ⟨h.legal, ?_⟩
    rw [h.contents]
  contents := by
    simp only [Linearize.effects_append, Linearize.effects_effect]
    refine (Linearize.final_append _ _).trans ?_
    rw [h.contents]
  released := h.released_update (fun _ => id) (fun _ hk => by contradiction)
  returned := by
    intro k result hret
    exact h.returned k result (by simpa using hret)

theorem ret (h : Logged contents c) {k : Nat} {op : Op α} {result : Option α} {next : C}
    (ht : t < c.numThreads) (hcodes : c.codes t = [.released k op result next])
    : Logged contents
        { c with
          codes := update c.codes t ((Call.yield : Call (Code α C) (Handler H)).codes (.user next))
          shared := { c.shared with log := c.shared.log ++ [.ret k result] } } where
  progress := by
    refine h.progress.append (t := t) [.invoke k op, .effect k op result]
      (holds_of_codes ht hcodes rfl) ?_ ?_
    . exact ⟨op, result, by simp [Mark.call]⟩
    . intro t' x hx
      obtain ⟨rfl, hu⟩ | ⟨hne, hold⟩ := holds_update hx
      . contradiction
      . exact .inr ⟨hne, hold⟩
  legal := by simpa using h.legal
  contents := by simpa using h.contents
  released := h.released_update (fun _ => id) (fun _ hk => by contradiction)
  returned := by
    intro k' result' hret
    obtain hold | hnew := List.mem_append.mp hret
    . exact h.returned k' result' hold
    . obtain ⟨rfl, _⟩ : k' = k ∧ result' = result := by simpa using hnew
      exact h.released t ht (.released k' op result next) (by simp [Control.label, hcodes]) k' rfl

theorem runUser (h : Logged contents c) (user : User α X C H) {uc : C} (ht : t < c.numThreads)
    (hcodes : c.codes t = [.user uc])
    : Logged contents
        { c with
          codes := update c.codes t
            ((runUser user c.shared uc).2.1.codes (runUser user c.shared uc).2.2)
          shared := (SynchDisk.runUser user c.shared uc).1 } := by
  obtain ⟨x, call, next, heq⟩ | ⟨x, op, next, heq⟩ := runUser_cases user c.shared uc
  . rw [heq]
    exact h.relabel ht hcodes (fun _ => id) rfl rfl rfl (fun _ => id) (fun _ hk => by contradiction)
  . rw [heq]
    exact h.invoke x op next

theorem run (h : Logged contents c) {u : Code α C} (ht : t < c.numThreads) (hcodes : c.codes t = [u])
    : Logged contents
        { c with
          codes := update c.codes t
            ((run latency user c.shared u).2.1.codes (run latency user c.shared u).2.2)
          shared := (SynchDisk.run latency user c.shared u).1 } := by
  cases u with
  | user uc => exact h.runUser user ht hcodes
  | acquired k op next =>
    rw [SynchDisk.run]
    split
    . exact h.relabel ht hcodes (fun _ => id) rfl rfl rfl (fun _ => id) (fun _ hk => by contradiction)
    . exact h.effect ht hcodes
  | requested k op result next =>
    exact h.relabel ht hcodes (fun _ => id) rfl rfl rfl (fun _ => id) (fun _ hk => by contradiction)
  | completed k op result next =>
    refine h.relabel ht hcodes (fun _ => id) rfl rfl rfl (fun k' hk' => List.mem_append_left _ hk') ?_
    intro k' hk'
    obtain rfl : k = k' := by simpa [SynchDisk.run, Code.released?] using hk'
    simp [SynchDisk.run]
  | released k op result next =>
    -- the return, and then the code of the user
    have hret := h.ret (H := H) ht hcodes
    have hcodes' : update c.codes t [.user next] t = [Code.user next] := Function.update_self ..
    have huser := hret.runUser user ht hcodes'
    simpa only [SynchDisk.run, Function.update_idem] using huser

end Logged

section

variable {α X C H : Type} {latency : Nat → Nat} {contents : Fin numSectors → α} {user : User α X C H}

theorem fork_user {u₀ : Code α C} {g : Globals α X} {func u : Code α C}
    (h : (run latency user g u₀).2 = (.fork func, u))
    : ∃ f, func = .user f := by
  have huser : ∀ {g : Globals α X} {c : C}, (runUser user g c).2 = (.fork func, u) → ∃ f, func = .user f := by
    intro g c h
    obtain ⟨x, call, next, heq⟩ | ⟨x, op, next, heq⟩ := runUser_cases user g c
    . rw [heq] at h
      cases call with
      | fork f =>
        obtain ⟨rfl, _⟩ : Code.user f = func ∧ _ := by simpa [Call.rename, userNames] using h
        exact ⟨f, rfl⟩
      | _ => simp [Call.rename] at h
    . rw [heq] at h
      simp at h
  cases u₀ with
  | user c => exact huser h
  | acquired k op next =>
    rw [run] at h
    split at h <;> simp at h
  | requested | completed => simp [run] at h
  | released k op result next => exact huser h

theorem logged {c : Control (Globals α X) (Code α C)}
    (h : (system latency contents user).ControlReachable c)
    : Logged contents c := by
  refine Transition.Reachable.invariant (P := Logged contents) ?_ ?_ h
  . rintro c rfl
    have hlabel : ∀ t, t < 1 → ∀ u, (system latency contents user).controlBoot.label t = some u →
        u = .user user.main := by
      intro t ht u hu
      obtain rfl : t = 0 := by omega
      exact (Option.some.inj hu).symm
    have hholds : ∀ t x, ¬Holds (system latency contents user).controlBoot t x := by
      rintro t x ⟨ht, u, hu, hx⟩
      rw [hlabel t ht u hu] at hx
      contradiction
    refine ⟨⟨fun _ _ => rfl, fun k hk => absurd hk (Nat.not_lt_zero k), ?_, ?_⟩, trivial, rfl, ?_, ?_⟩
    . exact fun t k marks hx => absurd hx (hholds t _)
    . exact fun t t' k marks marks' hx => absurd hx (hholds t _)
    . intro t ht u hu k hk
      rw [hlabel t ht u hu] at hk
      contradiction
    . intro k result hret
      contradiction
  . intro c c' hreach hlogged hstep
    cases hstep with
    | user t u ht hcodes => exact hlogged.run ht hcodes
    | fork t func u ht hcodes =>
      obtain ⟨u₀, g, hcall⟩ := System.ControlReachable.forked hreach ht hcodes
      obtain ⟨f, rfl⟩ := fork_user hcall
      refine ⟨hlogged.progress.mono ?_, hlogged.legal, hlogged.contents, ?_, hlogged.returned⟩
      . rintro t' x ⟨ht', v, hlabel, hv⟩
        obtain ⟨hlt, hold⟩ | ⟨_, rfl⟩ := Control.label_fork ht hcodes ht' hlabel
        . exact ⟨hlt, v, hold, hv⟩
        . contradiction
      . intro t' ht' v hlabel k hk
        obtain ⟨hlt, hold⟩ | ⟨_, rfl⟩ := Control.label_fork ht hcodes ht' hlabel
        . exact hlogged.released t' hlt v hold k hk
        . contradiction
    | interrupt handler =>
      cases handler with
      | diskDone => exact ⟨hlogged.progress, hlogged.legal, hlogged.contents, hlogged.released, hlogged.returned⟩
      | user handler =>
        exact ⟨hlogged.progress, hlogged.legal, hlogged.contents, hlogged.released, hlogged.returned⟩

end

/-! ### Who waits for what -/

def Code.open? : Code α C → Option Nat
  | .requested k _ _ _ | .completed k _ _ _ => some k
  | _ => none

def Globals.requests (g : Globals α X) : List Nat :=
  (effects g.log).map Linearize.Effect.call

structure Serial (c : Control (Globals α X) (Code α C)) : Prop where
  requests : c.shared.requests =
    c.shared.completions ++ if c.shared.active then [c.shared.current] else []
  opened : ∀ t, t < c.numThreads → ∀ u, c.label t = some u → ∀ k, u.open? = some k →
    c.shared.requests = c.shared.taken ++ [k] ∧ c.shared.current = k
  closed : (∀ t, t < c.numThreads → ∀ u, c.label t = some u → u.open? = none) →
    c.shared.requests = c.shared.taken
  failed : c.shared.failed = false

section

variable {α X C H : Type} [DecidableEq H] {latency : Nat → Nat} {contents : Fin numSectors → α}
  {user : User α X C H} {a : Client (Globals α X) (Code α C)} {t : Nat}

omit [DecidableEq H] in
theorem call_of_open {call : Call (Code α C) (Handler H)} {u : Code α C} {k : Nat}
    (h : (system latency contents user).Calls call u) (hopen : u.open? = some k)
    : call = .p semaphore ∨ ∃ fromNow, call = .schedule .diskDone fromNow .diskInt := by
  obtain ⟨u₀, g, hcode⟩ := h
  have huser : ∀ {g : Globals α X} {c : C}, (runUser user g c).2 ≠ (call, u) := by
    intro g c h
    obtain ⟨x, call, next, heq⟩ | ⟨x, op, next, heq⟩ := runUser_cases user g c
    . rw [heq] at h
      injection h with _ hu
      subst hu
      contradiction
    . rw [heq] at h
      injection h with _ hu
      subst hu
      contradiction
  change (run latency user g u₀).2 = (call, u) at hcode
  cases u₀ with
  | user c => exact absurd hcode huser
  | acquired k op next =>
    rw [run] at hcode
    split at hcode
    . injection hcode with _ hu
      subst hu
      contradiction
    . injection hcode with hcall _
      exact .inr ⟨latency k, hcall.symm⟩
  | requested k op result next =>
    injection hcode with hcall _
    exact .inl hcall.symm
  | completed k op result next =>
    injection hcode with _ hu
    subst hu
    contradiction
  | released k op result next => exact absurd hcode huser

theorem owner_of_open (h : (system latency contents user).ClientReachable a) (ht : t < a.numThreads)
    {u : Code α C} (hlabel : a.control.label t = some u) {k : Nat} (hopen : u.open? = some k)
    : a.owner lock = some t := by
  have howner := (request latency contents user).owner_iff h t ht
  have howns : (request latency contents user).owns (a.points t) = true := by
    have hruns := h.runs t ht
    have hheld : u.held = true := by cases u <;> first | contradiction | rfl
    change ((a.points t).filterMap Point.code?).getLast? = some u at hlabel
    generalize a.points t = points at hruns hlabel
    cases hruns with
    | user v | p n v | pWhile n v =>
      obtain rfl : v = u := Option.some.inj hlabel
      exact hheld
    | finish | finished => contradiction
    | threadRoot func v hcall =>
      obtain rfl : func = u := Option.some.inj hlabel
      obtain ⟨u₀, g, hcode⟩ := hcall
      obtain ⟨f, rfl⟩ := fork_user hcode
      contradiction
    | acquire l v hcall | lockP l v hcall | lockPWhile l v hcall | setOwner l v hcall =>
      obtain rfl : v = u := Option.some.inj hlabel
      obtain hcall | ⟨c, hcall⟩ := hcall
      . obtain heq | ⟨_, heq⟩ := call_of_open hcall hopen <;> contradiction
      . obtain heq | ⟨_, heq⟩ := call_of_open hcall hopen <;> contradiction
    | exit v hcall | exited v hcall | fork _ v hcall | v _ v hcall | release _ v hcall | lockV _ v hcall
    | wait _ _ v hcall | waitRelease _ _ v hcall | waitV _ _ v hcall | waitSleep _ _ v hcall
    | waitAcquire _ _ v hcall | signal _ _ v hcall | broadcast _ _ v hcall =>
      obtain rfl : v = u := Option.some.inj hlabel
      obtain heq | ⟨_, heq⟩ := call_of_open hcall hopen <;> contradiction
  exact of_decide_eq_true (howner.trans howns)

theorem none_open (h : (system latency contents user).ClientReachable a) (ht : t < a.numThreads)
    {u : Code α C} (hpoints : a.points t = [.user u, .finish]) (hheld : u.held = true)
    : ∀ t', t' < a.numThreads → t' ≠ t → ∀ v, a.control.label t' = some v → v.open? = none := by
  intro t' ht' hne v hlabel
  by_contra hopen
  obtain ⟨k, hk⟩ := Option.ne_none_iff_exists'.mp hopen
  have howner' := owner_of_open h ht' hlabel hk
  have howner := (request latency contents user).owner_iff h t ht
  rw [hpoints] at howner
  have heq : a.owner lock = some t := of_decide_eq_true (howner.trans hheld)
  rw [heq] at howner'
  injection howner' with htt
  exact hne htt.symm

end

namespace Serial

variable {α X C H : Type} {latency : Nat → Nat} {contents : Fin numSectors → α} {user : User α X C H}
  {c : Control (Globals α X) (Code α C)} {t : Nat} {call : Call (Code α C) (Handler H)}
  {u u' : Code α C} {g : Globals α X}

theorem label_of_codes (hcodes : c.codes t = [u]) : c.label t = some u := by
  simp [Control.label, hcodes]

theorem same (h : Serial c) (hcodes : c.codes t = [u]) (hu : u.open? = none) (hu' : u'.open? = none)
    (hrequests : g.requests = c.shared.requests) (hcompletions : g.completions = c.shared.completions)
    (hactive : g.active = c.shared.active) (hcurrent : g.current = c.shared.current)
    (htaken : g.taken = c.shared.taken) (hfailed : g.failed = c.shared.failed)
    : Serial { c with codes := update c.codes t (call.codes u'), shared := g } := by
  constructor
  . change g.requests = g.completions ++ if g.active then [g.current] else []
    rw [hrequests, hcompletions, hactive, hcurrent]
    exact h.requests
  . intro t' ht' v hlabel k hk
    change g.requests = g.taken ++ [k] ∧ g.current = k
    rw [hrequests, htaken, hcurrent]
    obtain ⟨rfl, rfl⟩ | ⟨_, hold⟩ := Control.label_update hlabel
    . rw [hu'] at hk
      contradiction
    . exact h.opened t' ht' v hold k hk
  . intro hnone
    change g.requests = g.taken
    rw [hrequests, htaken]
    apply h.closed
    intro t' ht' v hlabel
    by_cases hne : t' = t
    . subst hne
      rw [label_of_codes hcodes] at hlabel
      injection hlabel with hv
      exact hv ▸ hu
    . refine hnone t' ht' v ?_
      change (update c.codes t (call.codes u') t').getLast? = some v
      rw [Function.update_of_ne hne]
      exact hlabel
  . change g.failed = false
    rw [hfailed]
    exact h.failed

theorem runUser (h : Serial c) {uc : C} (hcodes : c.codes t = [u]) (hu : u.open? = none)
    (hrequests : g.requests = c.shared.requests) (hcompletions : g.completions = c.shared.completions)
    (hactive : g.active = c.shared.active) (hcurrent : g.current = c.shared.current)
    (htaken : g.taken = c.shared.taken) (hfailed : g.failed = c.shared.failed)
    : Serial
        { c with
          codes := update c.codes t ((runUser user g uc).2.1.codes (runUser user g uc).2.2)
          shared := (SynchDisk.runUser user g uc).1 } := by
  obtain ⟨x, call, next, heq⟩ | ⟨x, op, next, heq⟩ := runUser_cases user g uc
  . rw [heq]
    exact h.same hcodes hu rfl hrequests hcompletions hactive hcurrent htaken hfailed
  . rw [heq]
    refine h.same hcodes hu rfl ?_ hcompletions hactive hcurrent htaken hfailed
    rw [← hrequests]
    simp [Globals.requests]

theorem request (h : Serial c) {k : Nat} {op : Op α} {next : Option α → C} (ht : t < c.numThreads)
    (hcodes : c.codes t = [.acquired k op next]) (hidle : c.shared.active = false)
    (hnone : ∀ t', t' < c.numThreads → t' ≠ t → ∀ v, c.label t' = some v → v.open? = none)
    : Serial
        { c with
          codes := update c.codes t ((Call.schedule .diskDone (latency k) .diskInt :
            Call (Code α C) (Handler H)).codes
              (.requested k op (op.run c.shared.contents).2 (next (op.run c.shared.contents).2)))
          shared := { c.shared with
            contents := (op.run c.shared.contents).1, active := true, current := k
            log := c.shared.log ++ [.effect k op (op.run c.shared.contents).2] } } := by
  have hclosed : c.shared.requests = c.shared.taken := by
    apply h.closed
    intro t' ht' v hlabel
    by_cases hne : t' = t
    . subst hne
      rw [label_of_codes hcodes] at hlabel
      injection hlabel with hv
      subst hv
      rfl
    . exact hnone t' ht' hne v hlabel
  have hcompletions : c.shared.requests = c.shared.completions := by
    have := h.requests
    rw [hidle] at this
    simpa using this
  have hrequests : ∀ g : Globals α X, g.log = c.shared.log ++ [.effect k op (op.run c.shared.contents).2] →
      g.requests = c.shared.requests ++ [k] := by
    intro g hlog
    simp [Globals.requests, hlog]
  constructor
  . refine (hrequests _ rfl).trans ?_
    rw [hcompletions]
    rfl
  . intro t' ht' v hlabel k' hk'
    obtain ⟨rfl, rfl⟩ | ⟨hne, hold⟩ := Control.label_update hlabel
    . injection hk' with hk'
      subst hk'
      refine ⟨(hrequests _ rfl).trans ?_, rfl⟩
      rw [hclosed]
    . rw [hnone t' ht' hne v hold] at hk'
      contradiction
  . intro hopen
    have := hopen t ht _ (label_of_codes (Function.update_self ..))
    contradiction
  . exact h.failed

theorem wait (h : Serial c) {k : Nat} {op : Op α} {result : Option α} {next : C} (ht : t < c.numThreads)
    (hcodes : c.codes t = [.requested k op result next])
    : Serial
        { c with
          codes := update c.codes t ((Call.p semaphore : Call (Code α C) (Handler H)).codes
            (.completed k op result next)) } := by
  have hopened := h.opened t ht _ (label_of_codes hcodes) k rfl
  constructor
  . exact h.requests
  . intro t' ht' v hlabel k' hk'
    obtain ⟨rfl, rfl⟩ | ⟨_, hold⟩ := Control.label_update hlabel
    . injection hk' with hk'
      subst hk'
      exact hopened
    . exact h.opened t' ht' v hold k' hk'
  . intro hopen
    have := hopen t ht _ (label_of_codes (Function.update_self ..))
    contradiction
  . exact h.failed

theorem take (h : Serial c) {k : Nat} {op : Op α} {result : Option α} {next : C} (ht : t < c.numThreads)
    (hcodes : c.codes t = [.completed k op result next])
    (hnone : ∀ t', t' < c.numThreads → t' ≠ t → ∀ v, c.label t' = some v → v.open? = none)
    : Serial
        { c with
          codes := update c.codes t ((Call.release lock : Call (Code α C) (Handler H)).codes
            (.released k op result next))
          shared := { c.shared with taken := c.shared.taken ++ [k] } } := by
  have hopened := h.opened t ht _ (label_of_codes hcodes) k rfl
  constructor
  . exact h.requests
  . intro t' ht' v hlabel k' hk'
    obtain ⟨rfl, rfl⟩ | ⟨hne, hold⟩ := Control.label_update hlabel
    . contradiction
    . rw [hnone t' ht' hne v hold] at hk'
      contradiction
  . intro _
    exact hopened.1
  . exact h.failed

theorem run (h : Serial c) (ht : t < c.numThreads) (hcodes : c.codes t = [u])
    (hidle : u.held = true → u.open? = none → c.shared.active = false)
    (hnone : u.held = true → ∀ t', t' < c.numThreads → t' ≠ t → ∀ v, c.label t' = some v → v.open? = none)
    : Serial
        { c with
          codes := update c.codes t
            ((run latency user c.shared u).2.1.codes (run latency user c.shared u).2.2)
          shared := (SynchDisk.run latency user c.shared u).1 } := by
  cases u with
  | user uc => exact h.runUser hcodes rfl rfl rfl rfl rfl rfl rfl
  | acquired k op next =>
    rw [SynchDisk.run, hidle rfl rfl]
    exact h.request ht hcodes (hidle rfl rfl) (hnone rfl)
  | requested k op result next => exact h.wait ht hcodes
  | completed k op result next => exact h.take ht hcodes (hnone rfl)
  | released k op result next =>
    refine h.runUser hcodes rfl ?_ rfl rfl rfl rfl rfl
    simp [Globals.requests]

theorem fork (h : Serial c) (ht : t < c.numThreads) {f : C} (hcodes : c.codes t = [.user f, u])
    : Serial
        { c with
          numThreads := c.numThreads + 1
          codes := update (update c.codes c.numThreads [.user f]) t [u] } := by
  constructor
  . exact h.requests
  . intro t' ht' v hlabel k hk
    obtain ⟨hlt, hold⟩ | ⟨_, rfl⟩ := Control.label_fork ht hcodes ht' hlabel
    . exact h.opened t' hlt v hold k hk
    . contradiction
  . intro hnone
    apply h.closed
    intro t' ht' v hlabel
    refine hnone t' (Nat.lt_succ_of_lt ht') v ?_
    change (update (update c.codes c.numThreads [.user f]) t [u] t').getLast? = some v
    by_cases hne : t' = t
    . subst hne
      rw [Function.update_self]
      rw [Control.label, hcodes] at hlabel
      exact hlabel
    . rw [Function.update_of_ne hne, Function.update_of_ne (Nat.ne_of_lt ht')]
      exact hlabel
  . exact h.failed

end Serial

section

variable {α X C H : Type} [DecidableEq H] {latency : Nat → Nat} {contents : Fin numSectors → α}
  {user : User α X C H} {r : Rig (Globals α X) (Code α C) (Handler H)}

theorem due_eq_active (h : (system latency contents user).RigReachable (· ≠ .diskDone) r)
    : r.due.count .diskDone = r.client.shared.active.toNat :=
  (request latency contents user).due_eq_busy (by simp) active_busy h

theorem serial (h : (system latency contents user).RigReachable (· ≠ .diskDone) r)
    : Serial r.client.control := by
  refine Transition.Reachable.invariant
    (P := fun r : Rig (Globals α X) (Code α C) (Handler H) => Serial r.client.control) ?_ ?_ h
  . rintro r ⟨hclient, _⟩
    rw [hclient, System.clientBoot_control]
    refine ⟨rfl, ?_, fun _ => rfl, rfl⟩
    intro t ht u hlabel k hk
    obtain rfl : t = 0 := by simpa [System.controlBoot] using ht
    obtain rfl : Code.user user.main = u := Option.some.inj hlabel
    contradiction
  . intro r r' hreach hserial hstep
    have hclient := System.RigReachable.client hreach
    cases hstep with
    | post | arrive => exact hserial
    | fire handler due hdue =>
      cases handler with
      | user handler => exact ⟨hserial.requests, hserial.opened, hserial.closed, hserial.failed⟩
      | diskDone =>
        have hactive : r.client.shared.active = true := by
          have := due_eq_active hreach
          rw [hdue, Multiset.count_cons_self] at this
          cases hactive : r.client.shared.active with
          | true => rfl
          | false => simp [hactive] at this
        refine ⟨?_, hserial.opened, hserial.closed, hserial.failed⟩
        have hrequests := hserial.requests
        change r.client.shared.requests = _ at hrequests
        change r.client.shared.requests = (r.client.shared.completions ++ [r.client.shared.current]) ++ []
        rw [hrequests]
        change _ ++ (if r.client.shared.active then _ else _) = _
        rw [hactive, if_pos rfl, List.append_nil]
        rfl
    | thread t point points rest a' ht hawake hpoints hact =>
      have hshape := hclient.shape t ht
      rw [hpoints] at hshape
      obtain heq | ⟨u, hpoints', heq⟩ | ⟨func, u, hcodes, heq⟩ := hact.control_cases hpoints hshape
      . rw [heq]
        exact hserial
      . rw [heq]
        refine hserial.run ht ?_ ?_ ?_
        . simp [Client.control, hpoints', Point.code?]
        . intro hheld hopen
          have hsent : u.sent = false := by cases u <;> first | rfl | contradiction
          have hdue := ((request latency contents user).idle (by simp) hreach ht hpoints' hheld hsent).1
          rw [due_eq_active hreach] at hdue
          change r.client.shared.active = false
          cases hactive : r.client.shared.active with
          | false => rfl
          | true => simp [hactive] at hdue
        . intro hheld
          exact none_open hclient ht hpoints' hheld
      . rw [heq]
        obtain ⟨u₀, g, hcode⟩ := hclient.control.forked ht hcodes
        obtain ⟨f, rfl⟩ := fork_user hcode
        exact hserial.fork ht hcodes

omit [DecidableEq H] in
theorem open_of_p {u : Code α C} (h : (system latency contents user).Calls (.p semaphore) u)
    : ∃ k, u.open? = some k := by
  obtain ⟨u₀, g, hcode⟩ := h
  have huser : ∀ {g : Globals α X} {c : C}, (runUser user g c).2 ≠ (.p semaphore, u) := by
    intro g c h
    obtain ⟨x, call, next, heq⟩ | ⟨x, op, next, heq⟩ := runUser_cases user g c
    . rw [heq] at h
      cases call <;> simp [Call.rename, userNames, semaphore] at h
    . rw [heq] at h
      simp at h
  change (run latency user g u₀).2 = (.p semaphore, u) at hcode
  cases u₀ with
  | user c => exact absurd hcode huser
  | acquired k op next =>
    rw [run] at hcode
    split at hcode <;> simp at hcode
  | requested k op result next =>
    injection hcode with _ hu
    exact ⟨k, hu ▸ rfl⟩
  | completed k op result next => simp [run] at hcode
  | released k op result next => exact absurd hcode huser

theorem open_of_flight {points : List (Point (Code α C))}
    (hruns : Runs (system latency contents user) points)
    (h : (request latency contents user).flight points = true)
    : ∃ u, (points.filterMap Point.code?).getLast? = some u ∧ ∃ k, u.open? = some k := by
  cases hruns with
  | user u =>
    refine ⟨u, rfl, ?_⟩
    change u.sent = true at h
    cases u with
    | requested k => exact ⟨k, rfl⟩
    | _ => contradiction
  | p n u hcall | pWhile n u hcall =>
    obtain rfl : n = semaphore := by simpa [Nachos.Request.flight] using h
    exact ⟨u, rfl, open_of_p hcall⟩
  | _ => contradiction

theorem taken_prefix (h : (system latency contents user).RigReachable (· ≠ .diskDone) r)
    : r.client.shared.taken <+: r.client.shared.completions ∧
      r.client.shared.completions <+: r.client.shared.requests ∧
      r.client.shared.completions.length + r.client.shared.active.toNat =
        r.client.shared.requests.length ∧
      r.client.shared.requests.length ≤ r.client.shared.taken.length + 1 := by
  have hserial := serial h
  have hrequests : r.client.shared.requests = r.client.shared.completions ++
      if r.client.shared.active then [r.client.shared.current] else [] := hserial.requests
  by_cases hopen : ∀ t, t < r.client.numThreads → ∀ u, r.client.control.label t = some u → u.open? = none
  . have hclosed : r.client.shared.requests = r.client.shared.taken := hserial.closed hopen
    have hidle : r.client.shared.active = false := by
      by_contra hactive
      rw [Bool.not_eq_false] at hactive
      have hdue := due_eq_active h
      have hbalance := (request latency contents user).outstanding (by simp) h
      have hvalue := h.client.semInv.nonneg (.sem semaphore)
      have hflight : (request latency contents user).numFlight r.client ≠ 0 := by
        intro hzero
        rw [hzero, hdue] at hbalance
        simp only [hactive, Bool.toNat_true] at hbalance
        omega
      obtain ⟨t, ht, hflight⟩ := Nat.count_ne_iff_exists.mp hflight
      obtain ⟨u, hlabel, k, hk⟩ := open_of_flight (h.client.runs t ht) hflight
      rw [hopen t ht u hlabel] at hk
      contradiction
    rw [hidle, if_neg Bool.false_ne_true, List.append_nil] at hrequests
    rw [hidle, ← hrequests, hclosed]
    simp
  . simp only [not_forall] at hopen
    obtain ⟨t, ht, u, hlabel, hne⟩ := hopen
    obtain ⟨k, hk⟩ := Option.ne_none_iff_exists'.mp hne
    obtain ⟨htaken, hcurrent⟩ : r.client.shared.requests = r.client.shared.taken ++ [k] ∧
      r.client.shared.current = k := hserial.opened t ht u hlabel k hk
    cases hactive : r.client.shared.active with
    | false =>
      rw [hactive, if_neg Bool.false_ne_true, List.append_nil] at hrequests
      rw [← hrequests, htaken]
      simp
    | true =>
      rw [hactive, if_pos rfl, hcurrent] at hrequests
      have heq : r.client.shared.taken = r.client.shared.completions :=
        List.append_cancel_right (htaken.symm.trans hrequests)
      rw [hrequests, heq]
      simp

/--
`data` is what the last write to `sector` has put there, or the initial contents if there is none.
-/
inductive LastWritten (contents : Fin numSectors → α) (sector : Fin numSectors)
    (order : List (Linearize.Effect (Op α) (Option α))) (data : α) : Prop where
  | initial (hnone : ∀ e ∈ order, ∀ other, e.op ≠ .write sector other) (hdata : data = contents sector)
  | write (before after : List (Linearize.Effect (Op α) (Option α))) (k : Nat) (result : Option α)
      (horder : order = before ++ ⟨k, .write sector data, result⟩ :: after)
      (hafter : ∀ e ∈ after, ∀ other, e.op ≠ .write sector other)

theorem LastWritten.append {sector : Fin numSectors} {order : List (Linearize.Effect (Op α) (Option α))} {data : α}
    (h : LastWritten contents sector order data) {e : Linearize.Effect (Op α) (Option α)}
    (he : ∀ other, e.op ≠ .write sector other)
    : LastWritten contents sector (order ++ [e]) data := by
  cases h with
  | initial hnone hdata =>
    refine .initial ?_ hdata
    simpa [or_imp, forall_and, he] using hnone
  | write before after k result horder hafter =>
    refine .write before (after ++ [e]) k result (by simp [horder]) ?_
    simpa [or_imp, forall_and, he] using hafter

theorem lastWritten_final (contents : Fin numSectors → α) (sector : Fin numSectors)
    (order : List (Linearize.Effect (Op α) (Option α)))
    : LastWritten contents sector order (final Op.run contents order sector) := by
  induction order using List.reverseRecOn with
  | nil => exact .initial (by simp) rfl
  | append_singleton order e ih =>
    obtain ⟨k, op, result⟩ := e
    rw [Linearize.final_append]
    cases op with
    | read sector' => exact ih.append (by simp)
    | write sector' data =>
      by_cases hsector : sector = sector'
      . subst hsector
        refine .write order [] k result ?_ (by simp)
        simp [Op.run]
      . have hkeep : ((Op.write sector' data).run (final Op.run contents order)).1 sector =
            final Op.run contents order sector := Function.update_of_ne hsector _ _
        rw [hkeep]
        apply ih.append
        rintro other ⟨⟩
        exact hsector rfl

theorem synchDisk_serialises {s : State (Globals α X) (Code α C) (Handler H)}
    (h : (system latency contents user).ReachableBy (· ≠ .diskDone) s)
    : s.shared.failed = false ∧
      -- the interrupt, where no thread is inside of the call of `Schedule` that follows `active = TRUE`
      (handlers s.pending).count .diskDone ≤ 1 ∧
      ((∀ t, t < s.numThreads → ∀ fromNow type, .schedule .diskDone fromNow type ∉ s.stack t) →
        (handlers s.pending).count .diskDone = s.shared.active.toNat) ∧
      -- the requests, their completions and the returns from `P` are in the same order
      s.shared.taken <+: s.shared.completions ∧ s.shared.completions <+: s.shared.requests ∧
      s.shared.completions.length + s.shared.active.toNat = s.shared.requests.length ∧
      s.shared.requests.length ≤ s.shared.taken.length + 1 ∧
      (∀ k result, .ret k result ∈ s.shared.log → k ∈ s.shared.taken) ∧
      Linearization Op.run contents (history s.shared.log) (effects s.shared.log) ∧
      ∀ before after k sector result, effects s.shared.log = before ++ ⟨k, .read sector, result⟩ :: after →
        ∃ data, result = some data ∧ LastWritten contents sector before data := by
  have hrig := h.rig
  have hlogged : Logged contents s.control := logged h.reachable.control
  obtain ⟨htaken, hcompletions, hlength, hle⟩ := taken_prefix hrig
  have hdue : s.rig.due.count .diskDone = s.shared.active.toNat := due_eq_active hrig
  have hpending : (handlers s.pending).count .diskDone ≤ s.rig.due.count .diskDone := by
    rw [State.rig, Multiset.count_add]
    exact Nat.le_add_right _ _
  have : Nonempty (Op α) := ⟨.read ⟨0, by decide⟩⟩
  refine ⟨(serial hrig).failed, ?_, ?_, htaken, hcompletions, hlength, hle, hlogged.returned,
    Linearize.linearization hlogged.progress.wellMarked hlogged.legal, ?_⟩
  . rw [hdue] at hpending
    exact hpending.trans (Bool.toNat_le _)
  . intro hnone
    rw [← hdue, (request latency contents user).due_eq_pending h.reachable hnone]
  . intro before after k sector result horder
    have hlegal : Legal Op.run contents (effects s.shared.log) := hlogged.legal
    rw [horder] at hlegal
    exact ⟨_, hlegal.result.symm, lastWritten_final contents sector before⟩

end

inductive DiskOp where
  | read (sector : Fin numSectors)
  | keep (result : Option Nat)
  | write (sector : Fin numSectors) (data : Nat)
  | fork (func : Nat)

def diskScript (funcs : List (List DiskOp)) (main : List DiskOp)
    : User Nat (List (Option Nat)) (List DiskOp) Unit where
  code
    | [], x => (x, .call .ret [])
    | .read sector :: rest, x => (x, .access (.read sector) fun result => .keep result :: rest)
    | .keep result :: rest, x => (x ++ [result], .call .yield rest)
    | .write sector data :: rest, x => (x, .access (.write sector data) fun _ => rest)
    | .fork func :: rest, x => (x, .call (.fork (funcs.getD func [])) rest)
  handler _ x := (x, [.timerInterruptHandler])
  globals := []
  main := main
  value _ := 0
  value_nonneg := System.zero_nonneg

def readerWriter : User Nat (List (Option Nat)) (List DiskOp) Unit :=
  diskScript [[.write ⟨3, by decide⟩ 7]] [.fork 0, .write ⟨3, by decide⟩ 5, .read ⟨3, by decide⟩]

def readerWriterRun (n : Nat) : State (Globals Nat (List (Option Nat))) (Code Nat (List DiskOp)) (Handler Unit) :=
  runFor (system (fun _ => 500) (fun _ => 0) readerWriter).toProgram n
    (boot (system (fun _ => 500) (fun _ => 0) readerWriter) [⟨.user (), 35, .timerInt⟩])

theorem reachable_readerWriterRun (n : Nat)
    : (system (fun _ => 500) (fun _ => 0) readerWriter).ReachableBy (· ≠ .diskDone) (readerWriterRun n) :=
  System.ReachableBy.runFor (.init ⟨_, by simp, rfl⟩) n

theorem synchDisk_serialises_readerWriter
    : (readerWriterRun 90).shared.user = [some 5] ∧ (readerWriterRun 90).shared.completions = [0, 2] ∧
      (readerWriterRun 90).shared.taken <+: (readerWriterRun 90).shared.completions ∧
      effects (readerWriterRun 90).shared.log =
        [⟨0, .write ⟨3, by decide⟩ 5, none⟩, ⟨2, .read ⟨3, by decide⟩, some 5⟩] ∧
      LastWritten (fun _ => 0) ⟨3, by decide⟩ [⟨0, .write ⟨3, by decide⟩ 5, none⟩] 5 ∧
      Linearization Op.run (fun _ => 0) (history (readerWriterRun 90).shared.log)
        (effects (readerWriterRun 90).shared.log) := by
  obtain ⟨_, _, _, htaken, _, _, _, _, hlinearization, hread⟩ :=
    synchDisk_serialises (reachable_readerWriterRun 90)
  have heffects : effects (readerWriterRun 90).shared.log =
      [⟨0, .write ⟨3, by decide⟩ 5, none⟩, ⟨2, .read ⟨3, by decide⟩, some 5⟩] := by
    decide +kernel
  obtain ⟨data, hdata, hlast⟩ := hread [_] [] 2 _ (some 5) heffects
  cases hdata
  exact ⟨by decide +kernel, by decide +kernel, htaken, heffects, hlast, hlinearization⟩

end SynchDisk

end Nachos
