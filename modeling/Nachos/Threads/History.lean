import Nachos.Threads.Placement
import Nachos.Threads.Fault
import Nachos.Threads.Script

/-!
This module relates the history of the scheduler to its state: the order of dispatches, and the
life of a thread from `Finish` until its carcass gets deleted.
-/

namespace Nachos

open Function (update)

namespace SchedEvent

def readied? : SchedEvent → Option Nat
  | .readyToRun t => some t
  | _ => none

def dispatched? : SchedEvent → Option Nat
  | .dispatch t _ => some t
  | _ => none

def finished? : SchedEvent → Option Nat
  | .finish t _ => some t
  | _ => none

def reclaim (drained : Bool) : SchedEvent → Bool
  | .finish _ _ => false
  | .dispatch _ false => true
  | _ => drained

def reclaimed (log : List SchedEvent) : Bool :=
  log.foldl reclaim true

/--
`Finish` found the slot empty exactly if the previous finished thread was drained.
-/
def SlotsMatch (drained : Bool) : List SchedEvent → Prop
  | [] => True
  | .finish t slot :: rest => (slot = none ↔ drained = true) ∧ SlotsMatch (reclaim drained (.finish t slot)) rest
  | event :: rest => SlotsMatch (reclaim drained event) rest

theorem slotsMatch_append {drained : Bool} {l₁ l₂ : List SchedEvent}
    : SlotsMatch drained (l₁ ++ l₂) ↔
        SlotsMatch drained l₁ ∧ SlotsMatch (l₁.foldl reclaim drained) l₂ := by
  induction l₁ generalizing drained with
  | nil => simp [SlotsMatch]
  | cons event rest ih => cases event <;> simp [SlotsMatch, ih, and_assoc]

theorem SlotsMatch.split {drained : Bool} {before after : List SchedEvent} {t : Nat}
    {slot : Option Nat} (h : SlotsMatch drained (before ++ .finish t slot :: after))
    : slot = none ↔ before.foldl reclaim drained = true := by
  rw [slotsMatch_append] at h
  exact h.2.1

theorem foldl_reclaim_readyToRun (woken : List Nat) (drained : Bool)
    : (woken.map readyToRun).foldl reclaim drained = drained := by
  induction woken with
  | nil => rfl
  | cons first rest ih => simpa [reclaim] using ih

theorem slotsMatch_readyToRun (woken : List Nat) (drained : Bool)
    : SlotsMatch drained (woken.map readyToRun) := by
  induction woken with
  | nil => trivial
  | cons first rest ih => simpa [SlotsMatch, reclaim] using ih

def Final (a b : SchedEvent) : Prop :=
  ∀ t slot, a = .finish t slot → (∀ fresh, b ≠ .dispatch t fresh) ∧ ∀ slot', b ≠ .finish t slot'

end SchedEvent

open SchedEvent

structure Hist (s : State G U H) : Prop where
  fifo : s.schedLog.filterMap readied? = s.schedLog.filterMap dispatched? ++ s.readyList
  suspended : ∀ t, t < s.numThreads → t ≠ s.currentThread →
    (∃ func, s.stack t = [.threadRoot func]) ∨ ∃ rest, s.stack t = .runTail :: rest
  tail : ∀ t, t < s.numThreads → .runTail ∉ (s.stack t).tail
  finish_mem : ∀ t slot, .finish t slot ∈ s.schedLog →
    t < s.numThreads ∧ .notReached ∈ s.stack t
  finished : ∀ t, t < s.numThreads → .notReached ∈ s.stack t → ∃ slot, .finish t slot ∈ s.schedLog
  final : s.schedLog.Pairwise Final
  slot : ∀ t, s.threadToBeDestroyed = some t →
    (∃ slot, .finish t slot ∈ s.schedLog) ∧ .destroy t ∉ s.schedLog ∧
      ∀ t', .finish t' (some t) ∉ s.schedLog
  destroyed : ∀ t, .destroy t ∈ s.schedLog →
    (∃ slot, .finish t slot ∈ s.schedLog) ∧ (∀ t', .finish t' (some t) ∉ s.schedLog) ∧
      t ≠ s.currentThread
  destroy_once : ∀ t, s.schedLog.count (.destroy t) ≤ 1
  overwritten : ∀ t t', .finish t' (some t) ∈ s.schedLog → ∃ slot, .finish t slot ∈ s.schedLog
  carcass : ∀ t slot, .finish t slot ∈ s.schedLog →
    .destroy t ∈ s.schedLog ∨ s.threadToBeDestroyed = some t ∨
      ∃ t', .finish t' (some t) ∈ s.schedLog
  drained : s.threadToBeDestroyed = none → reclaimed s.schedLog = true
  undrained : s.threadToBeDestroyed ≠ none → reclaimed s.schedLog = true →
    ∃ rest, s.stack s.currentThread = .runTail :: rest
  resumed : ∀ rest, s.stack s.currentThread = .runTail :: rest → reclaimed s.schedLog = true
  slots : SlotsMatch true s.schedLog

theorem hist_boot (sys : System G U H) (pending : List (PendingInterrupt H))
    : Hist (boot sys pending) := by
  constructor <;> simp [boot, reclaimed, SlotsMatch]

namespace Hist

variable {prog : Program G U H} {s s' : State G U H} {frame : Frame U H}
  {frames rest : List (Frame U H)}

theorem runTail_not_mem (hh : Hist s) (hcur : s.currentThread < s.numThreads)
    (hstack : s.stack s.currentThread = frame :: rest)
    : .runTail ∉ rest := by
  have := hh.tail s.currentThread hcur
  rwa [hstack] at this

theorem notReached_mem (hstack : s.stack s.currentThread = frame :: rest)
    (hframe : frame ≠ .notReached) (hreached : .notReached ∉ frames)
    : .notReached ∈ frames ++ rest ↔ .notReached ∈ s.stack s.currentThread := by
  rw [hstack]
  simp [hframe.symm, hreached]

theorem suspended_update (hh : Hist s) (stack : List (Frame U H))
    : ∀ t, t < s.numThreads → t ≠ s.currentThread →
        (∃ func, update s.stack s.currentThread stack t = [.threadRoot func]) ∨
          ∃ rest, update s.stack s.currentThread stack t = .runTail :: rest := by
  intro t ht htc
  rw [Function.update_of_ne htc]
  exact hh.suspended t ht htc

theorem tail_update (hh : Hist s) {stack : List (Frame U H)} (htail : .runTail ∉ stack.tail)
    : ∀ t, t < s.numThreads → .runTail ∉ (update s.stack s.currentThread stack t).tail := by
  intro t ht
  by_cases htc : t = s.currentThread
  . subst htc
    rwa [Function.update_self]
  . rw [Function.update_of_ne htc]
    exact hh.tail t ht

theorem finish_mem_update (hh : Hist s) {stack : List (Frame U H)}
    (hstack : .notReached ∈ stack ↔ .notReached ∈ s.stack s.currentThread)
    : ∀ t slot, .finish t slot ∈ s.schedLog →
        t < s.numThreads ∧ .notReached ∈ update s.stack s.currentThread stack t := by
  intro t slot hmem
  obtain ⟨ht, hfin⟩ := hh.finish_mem t slot hmem
  refine ⟨ht, ?_⟩
  by_cases htc : t = s.currentThread
  . subst htc
    rwa [Function.update_self, hstack]
  . rwa [Function.update_of_ne htc]

theorem finished_update (hh : Hist s) {stack : List (Frame U H)}
    (hstack : .notReached ∈ stack ↔ .notReached ∈ s.stack s.currentThread)
    : ∀ t, t < s.numThreads → .notReached ∈ update s.stack s.currentThread stack t →
        ∃ slot, .finish t slot ∈ s.schedLog := by
  intro t ht hfin
  apply hh.finished t ht
  by_cases htc : t = s.currentThread
  . subst htc
    rwa [Function.update_self, hstack] at hfin
  . rwa [Function.update_of_ne htc] at hfin

theorem silent (hh : Hist s) (hcur : s.currentThread < s.numThreads)
    (hstack : s.stack s.currentThread = frame :: rest)
    (hframe : frame ≠ .notReached) (htail : frame = .runTail → s.threadToBeDestroyed = none)
    (hframes : .runTail ∉ frames) (hreached : .notReached ∉ frames)
    (hcurrent : s'.currentThread = s.currentThread) (hnum : s'.numThreads = s.numThreads)
    (hst : s'.stack = s.stack) (hready : s'.readyList = s.readyList)
    (hslot : s'.threadToBeDestroyed = s.threadToBeDestroyed) (hlog : s'.schedLog = s.schedLog)
    : Hist (s'.setStack s.currentThread (frames ++ rest)) := by
  have hrest := hh.runTail_not_mem hcur hstack
  have hreached := notReached_mem hstack hframe hreached
  constructor
  case fifo => simpa [hlog, hready] using hh.fifo
  case suspended =>
    simp only [State.setStack_numThreads, State.setStack_currentThread, State.setStack_stack,
      hcurrent, hnum, hst]
    exact hh.suspended_update _
  case tail =>
    simp only [State.setStack_numThreads, State.setStack_stack, hnum, hst]
    apply hh.tail_update
    intro hmem
    have := List.mem_of_mem_tail hmem
    simp [hframes, hrest] at this
  case finish_mem =>
    simp only [State.setStack_numThreads, State.setStack_stack, State.setStack_schedLog, hnum, hst,
      hlog]
    exact hh.finish_mem_update hreached
  case finished =>
    simp only [State.setStack_numThreads, State.setStack_stack, State.setStack_schedLog, hnum, hst,
      hlog]
    exact hh.finished_update hreached
  case final => simpa [hlog] using hh.final
  case slot => simpa [hlog, hslot] using hh.slot
  case destroyed => simpa [hlog, hcurrent] using hh.destroyed
  case destroy_once => simpa [hlog] using hh.destroy_once
  case overwritten => simpa [hlog] using hh.overwritten
  case carcass => simpa [hlog, hslot] using hh.carcass
  case drained => simpa [hlog, hslot] using hh.drained
  case undrained =>
    simp only [State.setStack_threadToBeDestroyed, State.setStack_schedLog, hslot, hlog]
    intro hsome hdrained
    obtain ⟨rest', hold⟩ := hh.undrained hsome hdrained
    rw [hstack] at hold
    injection hold with hold
    exact absurd (htail hold) hsome
  case resumed =>
    simp only [State.setStack_currentThread, State.setStack_stack, hcurrent, hst,
      Function.update_self]
    intro rest' hnew
    have : .runTail ∈ frames ++ rest := by rw [hnew]; simp
    simp [hframes, hrest] at this
  case slots => simpa [hlog] using hh.slots

theorem readied (hh : Hist s) (woken : List Nat)
    (hcurrent : s'.currentThread = s.currentThread) (hnum : s'.numThreads = s.numThreads)
    (hst : s'.stack = s.stack) (hready : s'.readyList = s.readyList ++ woken)
    (hslot : s'.threadToBeDestroyed = s.threadToBeDestroyed)
    (hlog : s'.schedLog = s.schedLog ++ woken.map .readyToRun)
    : Hist s' := by
  have hfinish : ∀ t slot, .finish t slot ∈ s'.schedLog ↔ .finish t slot ∈ s.schedLog := by
    simp [hlog]
  have hdestroy : ∀ t, .destroy t ∈ s'.schedLog ↔ .destroy t ∈ s.schedLog := by
    simp [hlog]
  have hreclaimed : reclaimed s'.schedLog = reclaimed s.schedLog := by
    simp [hlog, reclaimed, foldl_reclaim_readyToRun]
  constructor
  case fifo =>
    have h1 : (woken.map readyToRun).filterMap readied? = woken := by
      rw [List.filterMap_map]
      exact List.filterMap_some
    have h2 : (woken.map readyToRun).filterMap dispatched? = [] := by
      induction woken <;> simp_all [dispatched?]
    rw [hlog, List.filterMap_append, List.filterMap_append, h1, h2, hready, hh.fifo]
    simp
  case suspended => simpa [hcurrent, hnum, hst] using hh.suspended
  case tail => simpa [hnum, hst] using hh.tail
  case finish_mem => simpa [hfinish, hnum, hst] using hh.finish_mem
  case finished => simpa [hfinish, hnum, hst] using hh.finished
  case final =>
    rw [hlog, List.pairwise_append]
    refine ⟨hh.final, ?_, ?_⟩
    . apply List.pairwise_of_forall_mem_list
      simp [Final]
    . simp [Final]
  case slot => simpa only [hfinish, hdestroy, hslot] using hh.slot
  case destroyed => simpa only [hfinish, hdestroy, hcurrent] using hh.destroyed
  case destroy_once =>
    intro t
    have : (woken.map readyToRun).count (.destroy t) = 0 := by
      rw [List.count_eq_zero]
      simp
    rw [hlog, List.count_append, this]
    exact hh.destroy_once t
  case overwritten => simpa only [hfinish] using hh.overwritten
  case carcass => simpa only [hfinish, hdestroy, hslot] using hh.carcass
  case drained => simpa only [hreclaimed, hslot] using hh.drained
  case undrained => simpa only [hreclaimed, hslot, hcurrent, hst] using hh.undrained
  case resumed => simpa only [hreclaimed, hcurrent, hst] using hh.resumed
  case slots =>
    rw [hlog, slotsMatch_append]
    exact ⟨hh.slots, slotsMatch_readyToRun woken _⟩

theorem wake (hh : Hist s) (woken : List Nat) (hcur : s.currentThread < s.numThreads)
    (hstack : s.stack s.currentThread = frame :: rest)
    (hframe : frame ≠ .notReached) (htail : frame ≠ .runTail) (hframes : .runTail ∉ frames)
    (hreached : .notReached ∉ frames)
    (hcurrent : s'.currentThread = s.currentThread) (hnum : s'.numThreads = s.numThreads)
    (hst : s'.stack = s.stack) (hready : s'.readyList = s.readyList ++ woken)
    (hslot : s'.threadToBeDestroyed = s.threadToBeDestroyed)
    (hlog : s'.schedLog = s.schedLog ++ woken.map .readyToRun)
    : Hist (s'.setStack s.currentThread (frames ++ rest)) := by
  have hwake : Hist { s with
      readyList := s.readyList ++ woken
      schedLog := s.schedLog ++ woken.map .readyToRun } :=
    hh.readied woken rfl rfl rfl rfl rfl rfl
  apply hwake.silent hcur hstack hframe (fun heq => absurd heq htail) hframes hreached hcurrent hnum
    hst hready hslot hlog

theorem dispatch (hh : Hist s) (hcur : s.currentThread < s.numThreads)
    (hstack : s.stack s.currentThread = frame :: rest)
    (hframe : frame ≠ .notReached) (htail : frame ≠ .runTail) (hframes : .runTail ∉ frames)
    (hreached : .notReached ∉ frames)
    {next : Nat} {ready : List Nat} (hready : s.readyList = next :: ready)
    (hnext : .notReached ∉ s.stack next) (hlt : next < s.numThreads)
    (hfresh : ∀ func, frame ≠ .threadRoot func)
    (hcurrent : s'.currentThread = next) (hnum : s'.numThreads = s.numThreads)
    (hst : s'.stack = s.stack) (hready' : s'.readyList = ready)
    (hslot : s'.threadToBeDestroyed = s.threadToBeDestroyed)
    (hlog : s'.schedLog = s.schedLog ++ [.dispatch next (s.isFresh next)])
    : Hist (s'.setStack s.currentThread (.runTail :: frames ++ rest)) := by
  have hrest := hh.runTail_not_mem hcur hstack
  have hreached : .notReached ∈ .runTail :: frames ++ rest ↔ .notReached ∈ s.stack s.currentThread := by
    apply notReached_mem hstack hframe
    simp [hreached]
  have hfinish : ∀ t slot, .finish t slot ∈ s'.schedLog ↔ .finish t slot ∈ s.schedLog := by
    simp [hlog]
  have hdestroy : ∀ t, .destroy t ∈ s'.schedLog ↔ .destroy t ∈ s.schedLog := by
    simp [hlog]
  -- nothing happened since the last step that could have left `runTail` on the stack
  have hundrained : s.threadToBeDestroyed ≠ none → reclaimed s.schedLog = false := by
    intro hsome
    by_contra hdrained
    obtain ⟨rest', hold⟩ := hh.undrained hsome (by simpa using hdrained)
    rw [hstack] at hold
    injection hold with hold
    exact htail hold
  constructor
  case fifo =>
    simp only [State.setStack_schedLog, State.setStack_readyList, hlog, hready',
      List.filterMap_append, hh.fifo, hready]
    simp [List.filterMap_cons, readied?, dispatched?]
  case suspended =>
    simp only [State.setStack_numThreads, State.setStack_currentThread, State.setStack_stack,
      hcurrent, hnum, hst]
    intro t ht htn
    by_cases htc : t = s.currentThread
    . subst htc
      exact .inr ⟨_, Function.update_self ..⟩
    . rw [Function.update_of_ne htc]
      exact hh.suspended t ht htc
  case tail =>
    simp only [State.setStack_numThreads, State.setStack_stack, hnum, hst]
    apply hh.tail_update
    simp [hframes, hrest]
  case finish_mem =>
    simp only [State.setStack_numThreads, State.setStack_stack, State.setStack_schedLog, hnum, hst,
      hfinish]
    exact hh.finish_mem_update hreached
  case finished =>
    simp only [State.setStack_numThreads, State.setStack_stack, State.setStack_schedLog, hnum, hst,
      hfinish]
    exact hh.finished_update hreached
  case final =>
    simp only [State.setStack_schedLog, hlog]
    rw [List.pairwise_append]
    refine ⟨hh.final, by simp, ?_⟩
    intro a ha b hb t slot hfin
    rw [List.mem_singleton.mp hb]
    refine ⟨fun fresh heq => ?_, by simp⟩
    subst hfin
    injection heq with heq
    subst heq
    exact hnext (hh.finish_mem _ slot ha).2
  case slot =>
    simpa only [State.setStack_threadToBeDestroyed, State.setStack_schedLog, hfinish, hdestroy,
      hslot] using hh.slot
  case destroyed =>
    simp only [State.setStack_schedLog, State.setStack_currentThread, hfinish, hdestroy, hcurrent]
    intro t hmem
    obtain ⟨⟨slot, hfin⟩, hno, _⟩ := hh.destroyed t hmem
    refine ⟨⟨slot, hfin⟩, hno, ?_⟩
    rintro rfl
    exact hnext (hh.finish_mem _ slot hfin).2
  case destroy_once => simpa [hlog, List.count_append] using hh.destroy_once
  case overwritten => simpa only [State.setStack_schedLog, hfinish] using hh.overwritten
  case carcass =>
    simpa only [State.setStack_threadToBeDestroyed, State.setStack_schedLog, hfinish, hdestroy,
      hslot] using hh.carcass
  case drained =>
    simp only [State.setStack_threadToBeDestroyed, State.setStack_schedLog, hslot, hlog]
    intro hnone
    have := hh.drained hnone
    cases s.isFresh next <;> simp_all [reclaimed, reclaim]
  case undrained =>
    simp only [State.setStack_threadToBeDestroyed, State.setStack_schedLog,
      State.setStack_currentThread, State.setStack_stack, hslot, hlog, hcurrent, hst]
    intro hsome hdrained
    by_cases hnc : next = s.currentThread
    . exact ⟨_, by rw [hnc]; exact Function.update_self ..⟩
    . rw [Function.update_of_ne hnc]
      cases hh.suspended next hlt hnc with
      | inl hroot =>
        obtain ⟨func, hroot⟩ := hroot
        have hfr : s.isFresh next = true := by simp [State.isFresh, hroot]
        have := hundrained hsome
        simp_all [reclaimed, reclaim]
      | inr htl => exact htl
  case resumed =>
    simp only [State.setStack_currentThread, State.setStack_stack, State.setStack_schedLog, hcurrent,
      hst, hlog]
    intro rest' hnew
    have hfr : s.isFresh next = false := by
      by_cases hnc : next = s.currentThread
      . subst hnc
        unfold State.isFresh
        rw [hstack]
        split
        . next heq =>
          injection heq with heq
          exact absurd heq (hfresh _)
        . rfl
      . rw [Function.update_of_ne hnc] at hnew
        simp [State.isFresh, hnew]
    simp [hfr, reclaimed, reclaim]
  case slots =>
    simp only [State.setStack_schedLog, hlog]
    rw [slotsMatch_append]
    exact ⟨hh.slots, trivial⟩

theorem slot_none_iff (hh : Hist s) (hstack : s.stack s.currentThread = .finish :: rest)
    : s.threadToBeDestroyed = none ↔ reclaimed s.schedLog = true := by
  refine ⟨hh.drained, fun hdrained => ?_⟩
  by_contra hsome
  obtain ⟨rest', hold⟩ := hh.undrained hsome hdrained
  rw [hstack] at hold
  simp at hold

theorem finish (hh : Hist s) (hcur : s.currentThread < s.numThreads)
    (hstack : s.stack s.currentThread = .finish :: rest)
    (hfin : .notReached ∉ s.stack s.currentThread)
    (hcurrent : s'.currentThread = s.currentThread) (hnum : s'.numThreads = s.numThreads)
    (hst : s'.stack = s.stack) (hready : s'.readyList = s.readyList)
    (hslot : s'.threadToBeDestroyed = some s.currentThread)
    (hlog : s'.schedLog =
      s.schedLog ++ [.finish s.currentThread s.threadToBeDestroyed])
    : Hist (s'.setStack s.currentThread ([.sleepLoop, .notReached] ++ rest)) := by
  have hrest := hh.runTail_not_mem hcur hstack
  have hnew : ∀ slot, .finish s.currentThread slot ∉ s.schedLog := by
    intro slot hmem
    exact hfin (hh.finish_mem _ slot hmem).2
  -- the thread in the slot is finished, the current thread is not
  have hother : s.threadToBeDestroyed ≠ some s.currentThread := by
    intro heq
    obtain ⟨⟨slot, hmem⟩, _⟩ := hh.slot _ heq
    exact hnew slot hmem
  have hnever : ∀ t', .finish t' (some s.currentThread) ∉ s.schedLog := by
    intro t' hmem
    obtain ⟨slot, hmem⟩ := hh.overwritten _ t' hmem
    exact hnew slot hmem
  constructor
  case fifo =>
    simp only [State.setStack_schedLog, State.setStack_readyList, hlog, hready,
      List.filterMap_append, hh.fifo]
    simp [List.filterMap_cons, readied?, dispatched?]
  case suspended =>
    simp only [State.setStack_numThreads, State.setStack_currentThread, State.setStack_stack,
      hcurrent, hnum, hst]
    exact hh.suspended_update _
  case tail =>
    simp only [State.setStack_numThreads, State.setStack_stack, hnum, hst]
    apply hh.tail_update
    simp [hrest]
  case finish_mem =>
    simp only [State.setStack_numThreads, State.setStack_stack, State.setStack_schedLog, hnum, hst,
      hlog, List.mem_append, List.mem_singleton]
    intro t slot hmem
    by_cases htc : t = s.currentThread
    . subst htc
      exact ⟨hcur, by simp⟩
    . rw [Function.update_of_ne htc]
      refine hh.finish_mem t slot (hmem.resolve_right ?_)
      simp [htc]
  case finished =>
    simp only [State.setStack_numThreads, State.setStack_stack, State.setStack_schedLog, hnum, hst,
      hlog, List.mem_append, List.mem_singleton]
    intro t ht hfin
    by_cases htc : t = s.currentThread
    . subst htc
      exact ⟨_, .inr rfl⟩
    . rw [Function.update_of_ne htc] at hfin
      obtain ⟨slot, hmem⟩ := hh.finished t ht hfin
      exact ⟨slot, .inl hmem⟩
  case final =>
    simp only [State.setStack_schedLog, hlog]
    rw [List.pairwise_append]
    refine ⟨hh.final, by simp, ?_⟩
    intro a ha b hb t slot heq
    rw [List.mem_singleton.mp hb]
    subst heq
    refine ⟨by simp, fun slot' heq => ?_⟩
    injection heq with heq
    subst heq
    exact hnew slot ha
  case slot =>
    simp only [State.setStack_threadToBeDestroyed, State.setStack_schedLog, hslot, hlog,
      List.mem_append, List.mem_singleton]
    intro t heq
    injection heq with heq
    subst heq
    refine ⟨⟨_, .inr rfl⟩, ?_, ?_⟩
    . rintro (hmem | hmem)
      . obtain ⟨⟨slot, hmem⟩, _⟩ := hh.destroyed _ hmem
        exact hnew slot hmem
      . simp at hmem
    . rintro t' (hmem | hmem)
      . exact hnever t' hmem
      . injection hmem with _ hmem
        exact hother hmem.symm
  case destroyed =>
    simp only [State.setStack_schedLog, State.setStack_currentThread, hcurrent, hlog,
      List.mem_append, List.mem_singleton]
    intro t hmem
    obtain ⟨⟨slot, hfin⟩, hno, hne⟩ := hh.destroyed t (by simpa using hmem)
    refine ⟨⟨slot, .inl hfin⟩, ?_, hne⟩
    rintro t' (hmem' | hmem')
    . exact hno t' hmem'
    . injection hmem' with _ hmem'
      exact (hh.slot t hmem'.symm).2.1 (by simpa using hmem)
  case destroy_once => simpa [hlog, List.count_append] using hh.destroy_once
  case overwritten =>
    simp only [State.setStack_schedLog, hlog, List.mem_append, List.mem_singleton]
    rintro t t' (hmem | hmem)
    . obtain ⟨slot, hmem⟩ := hh.overwritten t t' hmem
      exact ⟨slot, .inl hmem⟩
    . injection hmem with _ hmem
      obtain ⟨⟨slot, hmem⟩, _⟩ := hh.slot t hmem.symm
      exact ⟨slot, .inl hmem⟩
  case carcass =>
    simp only [State.setStack_threadToBeDestroyed, State.setStack_schedLog, hslot, hlog,
      List.mem_append, List.mem_singleton]
    rintro t slot (hmem | hmem)
    . rcases hh.carcass t slot hmem with h | h | ⟨t', h⟩
      . exact .inl (.inl h)
      . exact .inr (.inr ⟨s.currentThread, .inr (by rw [h])⟩)
      . exact .inr (.inr ⟨t', .inl h⟩)
    . injection hmem with hmem
      exact .inr (.inl (by rw [hmem]))
  case drained => simp [hslot]
  case undrained => simp [hlog, reclaimed, reclaim]
  case resumed => simp [hcurrent]
  case slots =>
    simp only [State.setStack_schedLog, hlog]
    rw [slotsMatch_append]
    exact ⟨hh.slots, hh.slot_none_iff hstack, trivial⟩

theorem destroy (hh : Hist s) (hcur : s.currentThread < s.numThreads)
    (hstack : s.stack s.currentThread = .runTail :: rest) {thread : Nat}
    (hslot : s.threadToBeDestroyed = some thread) (hne : thread ≠ s.currentThread)
    (hcurrent : s'.currentThread = s.currentThread) (hnum : s'.numThreads = s.numThreads)
    (hst : s'.stack = s.stack) (hready : s'.readyList = s.readyList)
    (hslot' : s'.threadToBeDestroyed = none)
    (hlog : s'.schedLog = s.schedLog ++ [.destroy thread])
    : Hist (s'.setStack s.currentThread rest) := by
  have hrest := hh.runTail_not_mem hcur hstack
  have hreached : .notReached ∈ rest ↔ .notReached ∈ s.stack s.currentThread := by
    rw [hstack]
    simp
  obtain ⟨⟨slot₀, hfin⟩, hfirst, hno⟩ := hh.slot thread hslot
  have hfinish : ∀ t slot, .finish t slot ∈ s'.schedLog ↔ .finish t slot ∈ s.schedLog := by
    simp [hlog]
  have hdestroy : ∀ t, .destroy t ∈ s'.schedLog ↔ .destroy t ∈ s.schedLog ∨ t = thread := by
    simp [hlog]
  have hreclaimed : reclaimed s'.schedLog = reclaimed s.schedLog := by
    simp [hlog, reclaimed, reclaim]
  constructor
  case fifo =>
    simp only [State.setStack_schedLog, State.setStack_readyList, hlog, hready,
      List.filterMap_append, hh.fifo]
    simp [List.filterMap_cons, readied?, dispatched?]
  case suspended =>
    simp only [State.setStack_numThreads, State.setStack_currentThread, State.setStack_stack,
      hcurrent, hnum, hst]
    exact hh.suspended_update _
  case tail =>
    simp only [State.setStack_numThreads, State.setStack_stack, hnum, hst]
    apply hh.tail_update
    exact fun hmem => hrest (List.mem_of_mem_tail hmem)
  case finish_mem =>
    simp only [State.setStack_numThreads, State.setStack_stack, State.setStack_schedLog, hnum, hst,
      hfinish]
    exact hh.finish_mem_update hreached
  case finished =>
    simp only [State.setStack_numThreads, State.setStack_stack, State.setStack_schedLog, hnum, hst,
      hfinish]
    exact hh.finished_update hreached
  case final =>
    simp only [State.setStack_schedLog, hlog]
    rw [List.pairwise_append]
    refine ⟨hh.final, by simp, ?_⟩
    simp [Final]
  case slot => simp [hslot']
  case destroyed =>
    simp only [State.setStack_schedLog, State.setStack_currentThread, hcurrent, hfinish, hdestroy]
    rintro t (hmem | rfl)
    . exact hh.destroyed t hmem
    . exact ⟨⟨slot₀, hfin⟩, hno, hne⟩
  case destroy_once =>
    intro t
    simp only [State.setStack_schedLog, hlog, List.count_append]
    by_cases ht : t = thread
    . subst ht
      rw [List.count_eq_zero_of_not_mem hfirst]
      simp
    . have := hh.destroy_once t
      have hne : thread ≠ t := fun h => ht h.symm
      simpa [List.count_singleton, hne] using this
  case overwritten => simpa only [State.setStack_schedLog, hfinish] using hh.overwritten
  case carcass =>
    simp only [State.setStack_threadToBeDestroyed, State.setStack_schedLog, hfinish, hdestroy,
      hslot']
    intro t slot hmem
    rcases hh.carcass t slot hmem with h | h | h
    . exact .inl (.inl h)
    . rw [hslot] at h
      injection h with h
      exact .inl (.inr h.symm)
    . exact .inr (.inr h)
  case drained =>
    intro _
    simp only [State.setStack_schedLog, hreclaimed]
    exact hh.resumed rest hstack
  case undrained => simp [hslot']
  case resumed =>
    intro _ _
    simp only [State.setStack_schedLog, hreclaimed]
    exact hh.resumed rest hstack
  case slots =>
    simp only [State.setStack_schedLog, hlog]
    rw [slotsMatch_append]
    exact ⟨hh.slots, trivial⟩

theorem fork (hh : Hist s) (func : U)
    (hcurrent : s'.currentThread = s.currentThread) (hnum : s'.numThreads = s.numThreads + 1)
    (hst : s'.stack = update s.stack s.numThreads [.threadRoot func])
    (hready : s'.readyList = s.readyList) (hcur : s.currentThread < s.numThreads)
    (hslot : s'.threadToBeDestroyed = s.threadToBeDestroyed) (hlog : s'.schedLog = s.schedLog)
    : Hist s' := by
  have hcurrent_stack : s'.stack s'.currentThread = s.stack s.currentThread := by
    rw [hst, hcurrent, Function.update_of_ne (by omega)]
  constructor
  case fifo => simpa [hlog, hready] using hh.fifo
  case suspended =>
    simp only [hcurrent, hnum, hst]
    intro t ht htc
    by_cases htn : t = s.numThreads
    . subst htn
      exact .inl ⟨func, Function.update_self ..⟩
    . rw [Function.update_of_ne htn]
      exact hh.suspended t (by omega) htc
  case tail =>
    simp only [hnum, hst]
    intro t ht
    by_cases htn : t = s.numThreads
    . subst htn
      simp
    . rw [Function.update_of_ne htn]
      exact hh.tail t (by omega)
  case finish_mem =>
    simp only [hnum, hst, hlog]
    intro t slot hmem
    obtain ⟨ht, hfin⟩ := hh.finish_mem t slot hmem
    rw [Function.update_of_ne (by omega)]
    exact ⟨by omega, hfin⟩
  case finished =>
    simp only [hnum, hst, hlog]
    intro t ht hfin
    by_cases htn : t = s.numThreads
    . subst htn
      simp at hfin
    . rw [Function.update_of_ne htn] at hfin
      exact hh.finished t (by omega) hfin
  case final => simpa [hlog] using hh.final
  case slot => simpa [hlog, hslot] using hh.slot
  case destroyed => simpa [hlog, hcurrent] using hh.destroyed
  case destroy_once => simpa [hlog] using hh.destroy_once
  case overwritten => simpa [hlog] using hh.overwritten
  case carcass => simpa [hlog, hslot] using hh.carcass
  case drained => simpa [hlog, hslot] using hh.drained
  case undrained => simpa only [hlog, hslot, hcurrent_stack] using hh.undrained
  case resumed => simpa only [hlog, hcurrent_stack] using hh.resumed
  case slots => simpa [hlog] using hh.slots

theorem outcome (hh : Hist s) (hp : Placed s) (hstack : s.stack s.currentThread = frame :: rest)
    (hout : Outcome prog s frame frames s')
    : Hist (s'.setStack s.currentThread (frames ++ rest)) := by
  have hcur := hp.current_lt
  have hreadied : ∀ t, t ∈ s.readyList → t < s.numThreads ∧ .notReached ∉ s.stack t := by
    intro t ht
    obtain ⟨hlt, hready⟩ := (hp.mem_ready t).mp ht
    refine ⟨hlt, fun hfin => ?_⟩
    have := (hp.finished t hlt hfin).1
    rw [hready] at this
    contradiction
  cases hout with
  | finish =>
    have hfin : .notReached ∉ s.stack s.currentThread := by
      intro hfin
      have hblocked := (hp.finished _ hcur hfin).1
      have := hp.current
      rw [hstack, hblocked] at this
      simp [Stack.Asleep] at this
    exact hh.finish hcur hstack hfin rfl rfl rfl rfl rfl rfl
  | sleepRun next ready hready =>
    obtain ⟨hlt, hnext⟩ := hreadied next (by simp [hready])
    exact hh.dispatch hcur hstack (by simp) (by simp) (by simp) (by simp) hready hnext
      hlt (by simp) rfl rfl rfl rfl rfl rfl
  | yieldSwitch next ready hready =>
    obtain ⟨hlt, hnext⟩ := hreadied next (by simp [hready])
    -- `ReadyToRun (this)` comes first, then the switch
    have hyield : Hist { s with
        readyList := s.readyList ++ [s.currentThread]
        schedLog := s.schedLog ++ [.readyToRun s.currentThread] } :=
      hh.readied [s.currentThread] rfl rfl rfl rfl rfl rfl
    have hready' : s.readyList ++ [s.currentThread] = next :: (ready ++ [s.currentThread]) := by
      simp [hready]
    refine hyield.dispatch hcur hstack (by simp) (by simp) (by simp) (by simp) hready' hnext hlt
      (by simp) rfl rfl rfl rfl rfl ?_
    simp [State.isFresh]
  | runTailNone hslot =>
    exact hh.silent hcur hstack (by simp) (fun _ => hslot) (by simp) (by simp) rfl rfl rfl rfl rfl rfl
  | runTailDestroy thread hslot hne =>
    exact hh.destroy hcur hstack hslot hne rfl rfl rfl rfl rfl rfl
  | vWake sem first queue =>
    exact hh.wake [first] hcur hstack (by simp) (by simp) (by simp) (by simp) rfl rfl rfl rfl rfl rfl
  | handlerVWake n calls first queue =>
    exact hh.wake [first] hcur hstack (by simp) (by simp) (by simp) (by simp) rfl rfl rfl rfl rfl rfl
  | signalWake c l howner first queue =>
    exact hh.wake [first] hcur hstack (by simp) (by simp) (by simp) (by simp) rfl rfl rfl rfl rfl rfl
  | broadcast c l =>
    exact hh.wake (s.condQueue c) hcur hstack (by simp) (by simp) (by simp) (by simp) rfl rfl rfl rfl
      rfl rfl
  | fork func =>
    have hne : s.currentThread ≠ s.numThreads := by omega
    have hfork : Hist { s with
        numThreads := s.numThreads + 1
        stack := update s.stack s.numThreads [.threadRoot func] } :=
      hh.fork func rfl rfl rfl rfl hcur rfl rfl
    have hstack' : update s.stack s.numThreads [.threadRoot func] s.currentThread
        = .fork func :: rest := by
      rw [Function.update_of_ne hne, hstack]
    exact hfork.wake [s.numThreads] (Nat.lt_succ_of_lt hcur) hstack' (by simp) (by simp) (by simp)
      (by simp) rfl rfl rfl rfl rfl rfl
  | user u =>
    refine hh.silent hcur hstack (by simp) (by simp) ?_ ?_ rfl rfl rfl rfl rfl rfl
    . cases (prog.code u s.shared).2.1 <;> simp [Call.frames]
    . cases (prog.code u s.shared).2.1 <;> simp [Call.frames]
  | _ => exact hh.silent hcur hstack (by simp) (by simp) (by simp) (by simp) rfl rfl rfl rfl rfl rfl

end Hist

theorem System.Reachable.hist {sys : System G U H} {s : State G U H} (h : sys.Reachable s)
    : Hist s := by
  have : Inv s ∧ Hist s := by
    refine Transition.Reachable.invariant (P := fun s => Inv s ∧ Hist s) ?_ ?_ h
    . rintro s ⟨pending, rfl⟩
      exact ⟨inv_boot sys pending, hist_boot sys pending⟩
    . rintro s s' _ ⟨hinv, hhist⟩ hstep
      refine ⟨hinv.step hstep, ?_⟩
      obtain ⟨frame, rest, frames, s₁, hstack, hout, rfl⟩ := step_cases hstep
      exact hhist.outcome hinv.placed hstack hout
  exact this.2

inductive Place where
  | running
  | ready
  | sem (q : SemId)
  | cond (c : Nat)
  | finished
  deriving DecidableEq, Repr

def Place.status : Place → ThreadStatus
  | .running => .running
  | .ready => .ready
  | .sem _ => .blocked
  | .cond _ => .blocked
  | .finished => .blocked

namespace State

variable (s : State G U H)

def occurrences (t : Nat) : Place → Nat
  | .running => if t = s.currentThread then 1 else 0
  | .ready => s.readyList.count t
  | .sem q => (s.sem q).queue.count t
  | .cond c => (s.condQueue c).count t
  | .finished => (s.schedLog.filterMap finished?).count t

def AtSwitch : Prop :=
  (∃ rest, s.stack s.currentThread = .runTail :: rest) ∨
    ∃ func rest, s.stack s.currentThread = .threadRoot func :: rest

def OffLists (t : Nat) : Prop :=
  t ∉ s.readyList ∧ (∀ q, t ∉ (s.sem q).queue) ∧ ∀ c, t ∉ s.condQueue c

end State

theorem Placed.running_of_atSwitch {s : State G U H} (hp : Placed s) (h : s.AtSwitch)
    : s.threadStatus s.currentThread = .running := by
  cases hp.current with
  | inl hrun => exact hrun.1
  | inr hsleep =>
    have hasleep := hsleep.2
    rcases h with ⟨rest, hstack⟩ | ⟨func, rest, hstack⟩
    . rw [hstack] at hasleep
      contradiction
    . rw [hstack] at hasleep
      contradiction

namespace Hist

variable {s : State G U H}

theorem finished_mem (hh : Hist s) (t : Nat)
    : t ∈ s.schedLog.filterMap finished? ↔ t < s.numThreads ∧ .notReached ∈ s.stack t := by
  have hmem : t ∈ s.schedLog.filterMap finished? ↔ ∃ slot, .finish t slot ∈ s.schedLog := by
    rw [List.mem_filterMap]
    constructor
    . rintro ⟨event, hevent, heq⟩
      cases event with
      | finish t' slot =>
        injection heq with heq
        subst heq
        exact ⟨slot, hevent⟩
      | _ => contradiction
    . rintro ⟨slot, hevent⟩
      exact ⟨_, hevent, rfl⟩
  rw [hmem]
  constructor
  . rintro ⟨slot, hevent⟩
    exact hh.finish_mem t slot hevent
  . rintro ⟨ht, hfin⟩
    exact hh.finished t ht hfin

theorem finished_nodup (hh : Hist s) : (s.schedLog.filterMap finished?).Nodup := by
  refine List.Pairwise.filterMap finished? ?_ hh.final
  intro a b hfinal t ha t' hb heq
  subst heq
  cases a with
  | finish t₁ slot₁ =>
    cases b with
    | finish t₂ slot₂ =>
      injection ha with ha
      injection hb with hb
      subst ha hb
      exact (hfinal _ slot₁ rfl).2 slot₂ rfl
    | _ => contradiction
  | _ => contradiction

theorem offLists (hh : Hist s) (hp : Placed s) {t : Nat} {slot : Option Nat}
    (h : .finish t slot ∈ s.schedLog)
    : s.OffLists t := by
  obtain ⟨ht, hmem⟩ := hh.finish_mem t slot h
  obtain ⟨hblocked, hpoint⟩ := hp.finished t ht hmem
  refine ⟨?_, ?_, ?_⟩
  . rw [hp.mem_ready]
    simp [hblocked]
  . intro q
    rw [hp.mem_sem]
    simp [hpoint]
  . intro c
    rw [hp.mem_cond]
    simp [hpoint]

theorem deleteThread_ne (hh : Hist s) (hp : Placed s) {frame : Frame U H}
    {rest : List (Frame U H)} (hstack : s.stack s.currentThread = frame :: rest) {a : Assertion}
    (hfault : Fault s frame a)
    : a ≠ .deleteThread := by
  rintro rfl
  cases hfault with
  | runTail hslot =>
    have hrun := hp.running_of_atSwitch (.inl ⟨rest, hstack⟩)
    obtain ⟨⟨slot, hfin⟩, _⟩ := hh.slot _ hslot
    obtain ⟨hlt, hmem⟩ := hh.finish_mem _ slot hfin
    have hblocked := (hp.finished _ hlt hmem).1
    rw [hrun] at hblocked
    contradiction

theorem place (hh : Hist s) (hp : Placed s) (hrun : s.threadStatus s.currentThread = .running)
    {t : Nat} (ht : t < s.numThreads)
    : ∃ place, s.occurrences t place = 1 ∧ (∀ other, other ≠ place → s.occurrences t other = 0) ∧
        s.threadStatus t = place.status := by
  have hready : s.threadStatus t ≠ .ready → s.readyList.count t = 0 := by
    intro h
    apply List.count_eq_zero_of_not_mem
    rw [hp.mem_ready]
    simp [h]
  have hcurrent : s.threadStatus t ≠ .running → t ≠ s.currentThread := by
    rintro h rfl
    exact h hrun
  have hsem : ∀ q, ¬(s.threadStatus t = .blocked ∧ Stack.waitPoint (s.stack t) = some (.sem q)) →
      (s.sem q).queue.count t = 0 := by
    intro q h
    apply List.count_eq_zero_of_not_mem
    rw [hp.mem_sem]
    exact fun hmem => h hmem.2
  have hcond : ∀ c, ¬(s.threadStatus t = .blocked ∧ Stack.waitPoint (s.stack t) = some (.cond c)) →
      (s.condQueue c).count t = 0 := by
    intro c h
    apply List.count_eq_zero_of_not_mem
    rw [hp.mem_cond]
    exact fun hmem => h hmem.2
  have hfinished :
      ¬(s.threadStatus t = .blocked ∧ Stack.waitPoint (s.stack t) = some .finished) →
      (s.schedLog.filterMap finished?).count t = 0 := by
    intro h
    apply List.count_eq_zero_of_not_mem
    rw [hh.finished_mem]
    exact fun hmem => h (hp.finished t ht hmem.2)
  cases hstatus : s.threadStatus t with
  | justCreated => exact absurd hstatus (hp.status t ht)
  | running =>
    refine ⟨.running, ?_, ?_, rfl⟩
    . simp [State.occurrences, hp.running t ht hstatus]
    . intro other hne
      cases other <;> simp_all [State.occurrences]
  | ready =>
    refine ⟨.ready, ?_, ?_, rfl⟩
    . exact List.count_eq_one_of_mem hp.ready_nodup ((hp.mem_ready t).mpr ⟨ht, hstatus⟩)
    . intro other hne
      cases other <;> simp_all [State.occurrences]
  | blocked =>
    cases hpoint : Stack.waitPoint (s.stack t) with
    | none => exact absurd hpoint (hp.blocked t ht hstatus)
    | some point =>
      cases point with
      | sem q =>
        refine ⟨.sem q, ?_, ?_, rfl⟩
        . exact List.count_eq_one_of_mem (hp.sem_nodup q)
            ((hp.mem_sem q t).mpr ⟨ht, hstatus, hpoint⟩)
        . intro other hne
          cases other <;> simp_all [State.occurrences]
          next q' => exact hsem q' (fun h => hne h.symm)
      | cond c =>
        refine ⟨.cond c, ?_, ?_, rfl⟩
        . exact List.count_eq_one_of_mem (hp.cond_nodup c)
            ((hp.mem_cond c t).mpr ⟨ht, hstatus, hpoint⟩)
        . intro other hne
          cases other <;> simp_all [State.occurrences]
          next c' => exact hcond c' (fun h => hne h.symm)
      | finished =>
        refine ⟨.finished, ?_, ?_, rfl⟩
        . apply List.count_eq_one_of_mem hh.finished_nodup
          rw [hh.finished_mem]
          exact ⟨ht, Stack.notReached_mem hpoint⟩
        . intro other hne
          cases other <;> simp_all [State.occurrences]

end Hist

/-! ### Placement and dispatch order -/

theorem threads_placed {sys : System G U H} {s : State G U H} (h : sys.Reachable s)
    : (s.AtSwitch → ∀ t, t < s.numThreads →
        ∃ place, s.occurrences t place = 1 ∧ (∀ other, other ≠ place → s.occurrences t other = 0) ∧
          s.threadStatus t = place.status) ∧
      (∀ before after t slot, s.schedLog = before ++ .finish t slot :: after →
        s.OffLists t ∧ ∀ fresh, .dispatch t fresh ∉ after) ∧
      (∀ t, s.schedLog.count (.destroy t) ≤ 1) ∧
      (∀ t, .destroy t ∈ s.schedLog → t ≠ s.currentThread ∧ s.OffLists t) ∧
      (∀ arrivals, step sys.toProgram arrivals s ≠ .error (.assertion .deleteThread)) ∧
      s.schedLog.filterMap readied? = s.schedLog.filterMap dispatched? ++ s.readyList := by
  have hp := h.inv.placed
  have hh := h.hist
  refine ⟨?_, ?_, hh.destroy_once, ?_, ?_, hh.fifo⟩
  . intro hswitch t ht
    exact hh.place hp (hp.running_of_atSwitch hswitch) ht
  . intro before after t slot hlog
    have hfin : .finish t slot ∈ s.schedLog := by simp [hlog]
    refine ⟨hh.offLists hp hfin, ?_⟩
    intro fresh hmem
    have hfinal := hh.final
    rw [hlog, List.pairwise_append, List.pairwise_cons] at hfinal
    exact (hfinal.2.1.1 _ hmem t slot rfl).1 fresh rfl
  . intro t hdestroy
    obtain ⟨⟨slot, hfin⟩, _, hne⟩ := hh.destroyed t hdestroy
    exact ⟨hne, hh.offLists hp hfin⟩
  . intro arrivals hfault
    obtain ⟨frame, rest, hstack, hfault⟩ := step_fault hfault
    exact hh.deleteThread_ne hp hstack hfault rfl

theorem threads_placed_blocked
    : (scriptRun [[.p 0]] [.fork 0, .yield] [] 17).AtSwitch ∧
      ∃ place, (scriptRun [[.p 0]] [.fork 0, .yield] [] 17).occurrences 1 place = 1 ∧
        (∀ other, other ≠ place →
          (scriptRun [[.p 0]] [.fork 0, .yield] [] 17).occurrences 1 other = 0) ∧
        (scriptRun [[.p 0]] [.fork 0, .yield] [] 17).threadStatus 1 = place.status := by
  have hswitch : (scriptRun [[.p 0]] [.fork 0, .yield] [] 17).AtSwitch :=
    .inl ⟨[.setLevel .intOn, .user [], .finish], by decide +kernel⟩
  exact ⟨hswitch, (threads_placed (reachable_scriptRun _ _ _ _)).1 hswitch 1 (by decide +kernel)⟩

/-! ### The carcass of a finished thread -/

theorem finish_slot_none_iff {sys : System G U H} {s : State G U H} (h : sys.Reachable s)
    {rest : List (Frame U H)} (hfinish : s.stack s.currentThread = .finish :: rest)
    : (s.threadToBeDestroyed = none ↔ reclaimed s.schedLog = true) ∧
      ((∀ t slot, .finish t slot ∈ s.schedLog → .destroy t ∈ s.schedLog) ↔
        reclaimed s.schedLog = true ∧
          ∀ before after t slot, s.schedLog = before ++ .finish t slot :: after →
            reclaimed before = true) := by
  have hh := h.hist
  have hslots : s.threadToBeDestroyed = none ↔ reclaimed s.schedLog = true :=
    hh.slot_none_iff hfinish
  refine ⟨hslots, ?_⟩
  constructor
  . intro hdestroyed
    constructor
    . rw [← hslots]
      by_contra hsome
      obtain ⟨t, ht⟩ := Option.ne_none_iff_exists'.mp hsome
      obtain ⟨⟨slot, hfin⟩, hno, _⟩ := hh.slot t ht
      exact hno (hdestroyed t slot hfin)
    . intro before after t slot hlog
      have hsplit := hh.slots
      rw [hlog] at hsplit
      apply hsplit.split.mp
      -- a thread that was overwritten in the slot is not deleted any more
      by_contra hsome
      obtain ⟨t', rfl⟩ := Option.ne_none_iff_exists'.mp hsome
      have hmem : .finish t (some t') ∈ s.schedLog := by simp [hlog]
      obtain ⟨slot', hfin⟩ := hh.overwritten t' t hmem
      exact (hh.destroyed t' (hdestroyed t' slot' hfin)).2.1 t hmem
  . rintro ⟨hnow, hbefore⟩ t slot hfin
    rcases hh.carcass t slot hfin with hdestroy | hslot | ⟨t', hover⟩
    . exact hdestroy
    . rw [hslots.mpr hnow] at hslot
      contradiction
    . obtain ⟨before, after, hlog⟩ := List.append_of_mem hover
      have hsplit := hh.slots
      rw [hlog] at hsplit
      have := hsplit.split.mpr (hbefore before after t' _ hlog)
      contradiction

theorem finish_slot_none_after_yield
    : (scriptRun [[]] [.fork 0, .yield] [] 22).threadToBeDestroyed = none ∧
      .destroy 1 ∈ (scriptRun [[]] [.fork 0, .yield] [] 22).schedLog := by
  have hstack : (scriptRun [[]] [.fork 0, .yield] [] 22).stack
      (scriptRun [[]] [.fork 0, .yield] [] 22).currentThread = [.finish] := by
    decide +kernel
  have h := finish_slot_none_iff (reachable_scriptRun [[]] [.fork 0, .yield] [] 22) hstack
  exact ⟨h.1.mpr (by decide +kernel), by decide +kernel⟩

/--
`main` forks a thread and returns. The forked thread starts in `ThreadRoot`, it does not pass through the end of
`Run`, and finds `main` in the slot when it finishes.
-/
theorem finish_slot_overwritten
    : ∃ s : State Unit (List Op) Unit, (script timeSlicing [[]] [.fork 0]).Reachable s ∧
        s.stack s.currentThread = [.finish] ∧ s.threadToBeDestroyed = some 0 :=
  ⟨_, reachable_scriptRun [[]] [.fork 0] [] 16, by decide +kernel, by decide +kernel⟩

end Nachos
