import Nachos.Machine.Drain

/-!
This module contains `ConsoleTest` of `progtest.cc`, on a machine with all its devices: a thread that echoes what
it reads from the console. Its two semaphores tie it to the interrupts of the console.
-/

namespace Nachos

open Function (update)

namespace ConsoleTest

open Devices (Handler Globals Hardware readAvail writeDone)

inductive Code where
  | main
  | loop
  -- behind `readAvail->P()`
  | getChar
  -- behind the call of `Schedule` in `PutChar`
  | written (ch : Int8)
  -- behind `writeDone->P()`
  | test (ch : Int8)
  | quit
  deriving DecidableEq

def q : Int8 := 113

section

variable {numBoxes : Nat} {C α X : Type}

def run (input : List UInt8) (g : Globals numBoxes α X) : Code → Globals numBoxes α X × Call Code Handler × Code
  | .main =>
    ({ g with console := .new input }, .schedule .consoleReadPoll Console.consoleTime .consoleReadInt, .loop)
  | .loop => (g, .p readAvail, .getChar)
  | .getChar =>
    let (ch, console) := g.console.getChar
    match console.putChar ch with
    | none => ({ g with console, failed := true }, .ret, .quit)
    | some console =>
      ({ g with console }, .schedule .consoleWriteDone Console.consoleTime .consoleWriteInt, .written ch)
  | .written ch => (g, .p writeDone, .test ch)
  | .test ch => if ch = q then (g, .ret, .quit) else (g, .p readAvail, .getChar)
  | .quit => (g, .ret, .quit)

def system (hw : Hardware numBoxes C) (input : List UInt8) (g : Globals numBoxes α X)
    : System (Globals numBoxes α X) Code Handler where
  code u g := run input g u
  handler handler g := hw.handler g handler
  globals := { g with console := .new input, failed := false }
  main := .main
  value _ := 0
  value_nonneg := System.zero_nonneg

def Other (handler : Handler) : Prop :=
  handler ≠ .consoleReadPoll ∧ handler ≠ .consoleWriteDone

/-! ### Where the thread is -/

inductive Stage where
  | start
  | reading
  | taken
  | writing (ch : Int8)
  | echoed (ch : Int8)
  | ended
  deriving DecidableEq

inductive Stands : List (Point Code) → Stage → Prop where
  | main : Stands [.user .main, .finish] .start
  | loop : Stands [.user .loop, .finish] .reading
  | p : Stands [.p (.sem readAvail), .user .getChar, .finish] .reading
  | pWhile : Stands [.pWhile (.sem readAvail), .user .getChar, .finish] .reading
  | getChar : Stands [.user .getChar, .finish] .taken
  | written (ch : Int8) : Stands [.user (.written ch), .finish] (.writing ch)
  | writeP (ch : Int8) : Stands [.p (.sem writeDone), .user (.test ch), .finish] (.writing ch)
  | writePWhile (ch : Int8) : Stands [.pWhile (.sem writeDone), .user (.test ch), .finish] (.writing ch)
  | test (ch : Int8) : Stands [.user (.test ch), .finish] (.echoed ch)
  | finish : Stands [.finish] .ended
  | notReached : Stands [.notReached] .ended

def Stage.Echo (writeFile : List UInt8) : Stage → Prop
  | .start => writeFile = []
  | .reading | .taken => q.toUInt8 ∉ writeFile
  | .writing ch | .echoed ch => ∃ front, writeFile = front ++ [ch.toUInt8] ∧ q.toUInt8 ∉ front
  | .ended => ∃ front, writeFile = front ++ [q.toUInt8] ∧ q.toUInt8 ∉ front

def Stage.taken? : Stage → Nat
  | .taken => 1
  | _ => 0

def Stage.written : Stage → Nat
  | .writing _ => 1
  | _ => 0

theorem Stage.written_le (stage : Stage) : stage.written ≤ 1 := by
  cases stage <;> simp [Stage.written]

/-! ### The thread and the console -/

structure View where
  stage : Stage
  console : Console
  -- the units of `readAvail`, with those that a handler is about to add
  announced : Nat
  finished : Nat
  polls : Nat
  writes : Nat

def echoed (c : Console) : Console :=
  { c with incoming := .ofInt Console.eof, writeFile := c.writeFile ++ [c.incoming.toUInt8], putBusy := true }

namespace View

inductive Step (input : List UInt8) (v : View) : View → Prop where
  | begin (hstage : v.stage = .start)
    : Step input v { v with stage := .reading, console := .new input, polls := v.polls + 1 }
  | readChar (b : UInt8) (rest : List UInt8) (hpolls : v.polls ≠ 0)
      (hempty : v.console.incoming = .ofInt Console.eof) (hfile : v.console.readFile = b :: rest)
    : Step input v { v with console := v.console.readChar b rest, announced := v.announced + 1 }
  | writeDone (writes : Nat) (hwrites : v.writes = writes + 1)
    : Step input v { v with console := v.console.writeDone, finished := v.finished + 1, writes := writes }
  | take (announced : Nat) (hstage : v.stage = .reading) (hannounced : v.announced = announced + 1)
    : Step input v { v with stage := .taken, announced := announced }
  | echo (hstage : v.stage = .taken)
    : Step input v
        { v with stage := .writing v.console.incoming, console := echoed v.console, writes := v.writes + 1 }
  | finish (ch : Int8) (finished : Nat) (hstage : v.stage = .writing ch) (hfinished : v.finished = finished + 1)
    : Step input v { v with stage := .echoed ch, finished := finished }
  | again (ch : Int8) (hstage : v.stage = .echoed ch) (hch : ch ≠ q)
    : Step input v { v with stage := .reading }
  | quit (hstage : v.stage = .echoed q)
    : Step input v { v with stage := .ended }

def reader (v : View) : Console.Reader where
  console := { v.console with writeFile := [], putBusy := false, numConsoleCharsWritten := 0 }
  notified := v.announced + v.stage.taken?
  returned := v.console.writeFile.map UInt8.toInt8

theorem reader_bytes (v : View) : v.reader.bytes = v.console.writeFile := by
  simp [reader, Console.Reader.bytes, Function.comp_def]

structure Inv (input : List UInt8) (v : View) : Prop where
  start : v.stage = .start → v.console = .new input
  reads : v.reader.Buffered input
  polls : v.polls = if v.stage = .start then 0 else 1
  -- the display is busy with a character, or it has announced the end of it
  display : v.finished + v.writes = v.stage.written
  busy : v.console.putBusy = decide (v.writes = 1)
  echo : v.stage.Echo v.console.writeFile

variable {input : List UInt8} {v v' : View}

theorem Inv.not_busy (h : Inv input v) (hwritten : v.stage.written = 0)
    : v.writes = 0 ∧ v.console.putBusy = false := by
  have hdisplay := h.display
  have hzero : v.writes = 0 := by omega
  refine ⟨hzero, ?_⟩
  rw [h.busy, hzero]
  rfl

theorem Inv.move {stage : Stage} {announced finished : Nat} (h : Inv input v) (hstart : v.stage ≠ .start)
    (hstart' : stage ≠ .start)
    (htaken : announced + stage.taken? = v.announced + v.stage.taken?)
    (hwritten : finished + v.stage.written = v.finished + stage.written) (hecho : stage.Echo v.console.writeFile)
    : Inv input { v with stage := stage, announced := announced, finished := finished } := by
  have hpolls := h.polls
  have hdisplay := h.display
  have hreads := h.reads
  unfold reader at hreads
  refine ⟨fun hstage => absurd hstage hstart', ?_, ?_, ?_, h.busy, hecho⟩
  . rw [reader, htaken]
    exact hreads
  . rw [if_neg hstart] at hpolls
    rw [if_neg hstart', hpolls]
  . change finished + v.writes = stage.written
    omega

theorem Inv.echoes (hinput : 0xff ∉ input.dropLast) (h : Inv input v) (hstage : v.stage = .taken)
    : Inv input
        { v with stage := .writing v.console.incoming, console := echoed v.console, writes := v.writes + 1 } := by
  have hdisplay := h.display
  have hecho := h.echo
  have hpolls := h.polls
  rw [hstage] at hdisplay hecho hpolls
  obtain ⟨hzero, _⟩ := h.not_busy (by rw [hstage]; rfl)
  have hpos : 0 < v.reader.notified := by
    rw [reader, hstage]
    exact Nat.succ_pos _
  constructor
  case start => exact fun hstart => absurd hstart (by simp)
  case reads =>
    convert h.reads.step hinput (.getChar hpos) using 1
    simp [reader, echoed, Console.getChar, hstage, Stage.taken?]
  case polls => exact hpolls
  case display =>
    change v.finished + v.writes = 0 at hdisplay
    change v.finished + (v.writes + 1) = 1
    omega
  case busy =>
    rw [hzero]
    rfl
  case echo => exact ⟨_, rfl, hecho⟩

theorem Inv.step (hinput : 0xff ∉ input.dropLast) (h : Inv input v) (hstep : Step input v v') : Inv input v' := by
  have hpolls := h.polls
  have hdisplay := h.display
  have hecho := h.echo
  have hreads := h.reads
  have hbusy := h.busy
  cases hstep with
  | begin hstage =>
    have hconsole := h.start hstage
    unfold reader at hreads
    rw [hstage] at hpolls hdisplay hreads
    rw [hconsole] at hbusy hreads
    exact ⟨fun hstart => absurd hstart (by simp), hreads, by rw [hpolls]; rfl, hdisplay, hbusy, List.not_mem_nil⟩
  | readChar b rest hone hempty hfile =>
    have hstart : v.stage ≠ .start := by
      intro hstage
      rw [if_pos hstage] at hpolls
      exact hone hpolls
    refine ⟨fun hstage => absurd hstage hstart, ?_, hpolls, hdisplay, hbusy, hecho⟩
    convert hreads.step hinput (Console.Reader.step_of_empty hempty hfile) using 1
    rw [reader, Nat.add_right_comm]
    rfl
  | writeDone writes hwrites =>
    have hwritten := v.stage.written_le
    have hzero : writes = 0 := by omega
    refine ⟨?_, hreads, hpolls, by rw [← hdisplay, hwrites]; ring, by rw [hzero]; rfl, hecho⟩
    intro hstage
    rw [hstage, hwrites] at hdisplay
    cases hdisplay
  | take announced hstage hannounced =>
    rw [hstage] at hecho
    refine h.move (by simp [hstage]) (by simp) ?_ (by rw [hstage]; rfl) hecho
    rw [hstage, hannounced]
    rfl
  | echo hstage => exact h.echoes hinput hstage
  | finish ch finished hstage hfinished =>
    rw [hstage] at hecho
    refine h.move (by simp [hstage]) (by simp) (by rw [hstage]; rfl) ?_ hecho
    rw [hstage, hfinished]
    rfl
  | again ch hstage hch =>
    rw [hstage] at hecho
    refine h.move (by simp [hstage]) (by simp) (by rw [hstage]; rfl) (by rw [hstage]; rfl) ?_
    obtain ⟨front, heq, hfront⟩ := hecho
    change q.toUInt8 ∉ _
    rw [heq, List.mem_append, List.mem_singleton, not_or]
    refine ⟨hfront, ?_⟩
    intro hbyte
    apply hch
    simpa using congrArg UInt8.toInt8 hbyte.symm
  | quit hstage =>
    rw [hstage] at hecho
    exact h.move (by simp [hstage]) (by simp) (by rw [hstage]; rfl) (by rw [hstage]; rfl) hecho

end View

/-! ### The kernel runs as the view does -/

/--
What is in a semaphore that only thread 0 waits for, and what an interrupt handler is about to add.
-/
structure Units (n units : Nat) (r : Rig (Globals numBoxes α X) Code Handler) : Prop where
  nonneg : 0 ≤ (r.client.sem (.sem n)).value
  value : (r.client.sem (.sem n)).value + r.posts.count n = units
  queue : (r.client.sem (.sem n)).queue = [] ∨
    (r.client.sem (.sem n)).queue = [0] ∧ (r.client.sem (.sem n)).value = 0

structure Abs (r : Rig (Globals numBoxes α X) Code Handler) (v : View) : Prop where
  numThreads : r.client.numThreads = 1
  stands : Stands (r.client.points 0) v.stage
  console : r.client.shared.console = v.console
  announced : Units readAvail v.announced r
  finished : Units writeDone v.finished r
  polls : r.due.count .consoleReadPoll = v.polls
  writes : r.due.count .consoleWriteDone = v.writes

variable {input : List UInt8} {r r' : Rig (Globals numBoxes α X) Code Handler} {v : View} {n m units : Nat}

theorem Units.congr (h : Units n units r) (hsem : r'.client.sem (.sem n) = r.client.sem (.sem n))
    (hposts : r'.posts.count n = r.posts.count n)
    : Units n units r' := by
  obtain ⟨hnonneg, hvalue, hqueue⟩ := h
  rw [← hsem] at hnonneg hvalue hqueue
  rw [← hposts] at hvalue
  exact ⟨hnonneg, hvalue, hqueue⟩

theorem Units.post {posts : Multiset Nat} (h : Units n units r) (hposts : r.posts = m ::ₘ posts) (t : Nat)
    : Units n units { r with client := r.client.post (.sem m) t, posts := posts } := by
  by_cases hm : n = m
  . subst hm
    have hnonneg := h.nonneg
    have hvalue := h.value
    rw [hposts, Multiset.count_cons_self] at hvalue
    constructor
    . simp only [Client.post_sem, Function.update_self]
      omega
    . simp only [Client.post_sem, Function.update_self]
      omega
    . obtain hqueue | ⟨hqueue, _⟩ := h.queue <;> simp [hqueue]
  . refine h.congr (by simp [hm]) ?_
    rw [hposts, Multiset.count_cons_of_ne hm]

theorem Units.queue_of_awake (h : Units n units r) (hawake : r.client.Awake 0)
    : (r.client.sem (.sem n)).queue = [] := by
  obtain hqueue | ⟨hqueue, _⟩ := h.queue
  . exact hqueue
  . apply absurd _ (hawake.1 (.sem n))
    rw [hqueue]
    exact .head _

variable {points : List (Point Code)}

def moved (r : Rig (Globals numBoxes α X) Code Handler) (client : Client (Globals numBoxes α X) Code)
    (points : List (Point Code)) (schedules : Multiset Handler) : Rig (Globals numBoxes α X) Code Handler :=
  { r with client := client.setPoints 0 points, due := r.due + schedules }

theorem points_moved (r : Rig (Globals numBoxes α X) Code Handler) (client : Client (Globals numBoxes α X) Code)
    (points : List (Point Code)) (schedules : Multiset Handler)
    : (moved r client points schedules).client.points 0 = points := by
  simp [moved]

theorem Units.enqueue (h : Units n units r) (hawake : r.client.Awake 0) (hvalue : (r.client.sem (.sem m)).value = 0)
    : Units n units (moved r (r.client.enqueue (.sem m) 0) points 0) := by
  by_cases hm : n = m
  . subst hm
    constructor
    . simpa [moved] using h.nonneg
    . simpa [moved] using h.value
    . exact .inr ⟨by simp [moved, h.queue_of_awake hawake], by simp [moved, hvalue]⟩
  . exact h.congr (by simp [moved, hm]) rfl

theorem Units.take (h : Units n units r) (hawake : r.client.Awake 0) (hvalue : (r.client.sem (.sem n)).value ≠ 0)
    (points : List (Point Code))
    : ∃ units', units = units' + 1 ∧ Units n units' (moved r (r.client.take (.sem n) 0) points 0) := by
  have hqueue := h.queue_of_awake hawake
  obtain ⟨hnonneg, heq, _⟩ := h
  refine ⟨units - 1, by omega, ?_, ?_, ?_⟩
  . simp [moved]
    omega
  . simp [moved]
    omega
  . exact .inl (by simpa [moved] using hqueue)

theorem Units.take_of_ne (h : Units n units r) (hm : n ≠ m)
    : Units n units (moved r (r.client.take (.sem m) 0) points 0) :=
  h.congr (by simp [moved, hm]) rfl

/-! ### The interrupts -/

variable {hw : Hardware numBoxes C}

theorem officeNames_handler (handler : PostOffice.Handler Empty) : Other (Devices.officeNames.handler handler) := by
  cases handler with
  | readPoll | sendDone => simp [Other, Devices.officeNames]
  | user handler => exact handler.elim

theorem other_handler (hw : Hardware numBoxes C) (g : Globals numBoxes α X) {handler : Handler} (h : Other handler)
    : (hw.handler g handler).1.console = g.console ∧
        (HandlerCall.posts (hw.handler g handler).2).count readAvail = 0 ∧
        (HandlerCall.posts (hw.handler g handler).2).count writeDone = 0 ∧
        (HandlerCall.schedules (hw.handler g handler).2).count .consoleReadPoll = 0 ∧
        (HandlerCall.schedules (hw.handler g handler).2).count .consoleWriteDone = 0 := by
  cases handler with
  | consoleReadPoll => exact absurd rfl h.1
  | consoleWriteDone => exact absurd rfl h.2
  | timerHandler | diskDone => exact ⟨rfl, rfl, rfl, rfl, rfl⟩
  | networkReadPoll | networkSendDone =>
    refine ⟨rfl, ?_, ?_, ?_, ?_⟩
    . exact HandlerCall.count_posts_rename (fun n => by simp [Devices.officeNames, readAvail]) _
    . exact HandlerCall.count_posts_rename (fun n => by simp [Devices.officeNames, writeDone]) _
    . exact HandlerCall.count_schedules_rename (fun handler => (officeNames_handler handler).1) _
    . exact HandlerCall.count_schedules_rename (fun handler => (officeNames_handler handler).2) _

def fired (hw : Hardware numBoxes C) (r : Rig (Globals numBoxes α X) Code Handler) (handler : Handler)
    (due : Multiset Handler) : Rig (Globals numBoxes α X) Code Handler where
  client := { r.client with shared := (hw.handler r.client.shared handler).1 }
  due := due + HandlerCall.schedules (hw.handler r.client.shared handler).2
  posts := r.posts + HandlerCall.posts (hw.handler r.client.shared handler).2

theorem Units.fired (h : Units n units r) (hw : Hardware numBoxes C) (handler : Handler) (due : Multiset Handler)
    : Units n (units + (HandlerCall.posts (hw.handler r.client.shared handler).2).count n)
        (fired hw r handler due) := by
  refine ⟨h.nonneg, ?_, h.queue⟩
  have hvalue := h.value
  rw [ConsoleTest.fired, Multiset.count_add]
  push_cast
  omega

theorem Abs.other (h : Abs r v) {handler : Handler} {due : Multiset Handler} (hdue : r.due = handler ::ₘ due)
    (hother : Other handler)
    : Abs (fired hw r handler due) v := by
  obtain ⟨hconsole, hreads, hwrites, hpoll, hdone⟩ := other_handler hw r.client.shared hother
  have hannounced := h.announced.fired hw handler due
  have hfinished := h.finished.fired hw handler due
  have hpolls := h.polls
  have hends := h.writes
  rw [hdue, Multiset.count_cons_of_ne hother.1.symm] at hpolls
  rw [hdue, Multiset.count_cons_of_ne hother.2.symm] at hends
  rw [hreads] at hannounced
  rw [hwrites] at hfinished
  refine ⟨h.numThreads, h.stands, hconsole.trans h.console, hannounced, hfinished, ?_, ?_⟩
  . rw [fired, Multiset.count_add, hpoll, Nat.add_zero, hpolls]
  . rw [fired, Multiset.count_add, hdone, Nat.add_zero, hends]

theorem handler_readPoll (hw : Hardware numBoxes C) (g : Globals numBoxes α X)
    : HandlerCall.schedules (hw.handler g .consoleReadPoll).2 = {.consoleReadPoll} ∧
        ((hw.handler g .consoleReadPoll).1.console = g.console ∧
            HandlerCall.posts (hw.handler g .consoleReadPoll).2 = 0 ∨
          ∃ b rest, g.console.incoming = .ofInt Console.eof ∧ g.console.readFile = b :: rest ∧
            (hw.handler g .consoleReadPoll).1.console = g.console.readChar b rest ∧
            HandlerCall.posts (hw.handler g .consoleReadPoll).2 = {readAvail}) := by
  change HandlerCall.schedules (hw.checkCharAvail g).2 = _ ∧ ((hw.checkCharAvail g).1.console = _ ∧
    HandlerCall.posts (hw.checkCharAvail g).2 = _ ∨ ∃ b rest, _ ∧ _ ∧ (hw.checkCharAvail g).1.console = _ ∧
    HandlerCall.posts (hw.checkCharAvail g).2 = _)
  unfold Hardware.checkCharAvail
  dsimp only
  split
  next => exact ⟨rfl, .inl ⟨rfl, rfl⟩⟩
  next console called hcheck =>
    obtain ⟨rfl, rfl⟩ | ⟨b, rest, hempty, hfile, rfl, rfl⟩ := Console.checkCharAvail_cases hcheck
    . exact ⟨rfl, .inl ⟨rfl, rfl⟩⟩
    . exact ⟨rfl, .inr ⟨b, rest, hempty, hfile, rfl, rfl⟩⟩

theorem Abs.readPoll (h : Abs r v) {due : Multiset Handler} (hdue : r.due = .consoleReadPoll ::ₘ due)
    : ∃ v', (v' = v ∨ View.Step input v v') ∧ Abs (fired hw r .consoleReadPoll due) v' := by
  obtain ⟨hschedules, hcases⟩ := handler_readPoll hw r.client.shared
  have hdue' : (fired hw r .consoleReadPoll due).due = r.due := by
    rw [fired, hschedules, hdue, ← Multiset.singleton_add, add_comm]
  have hpolls := h.polls
  have hwrites := h.writes
  have hannounced := h.announced.fired hw .consoleReadPoll due
  have hfinished := h.finished.fired hw .consoleReadPoll due
  rw [← hdue'] at hpolls hwrites
  obtain ⟨hconsole, hposts⟩ | ⟨b, rest, hempty, hfile, hconsole, hposts⟩ := hcases
  . rw [hposts] at hannounced hfinished
    exact ⟨v, .inl rfl, h.numThreads, h.stands, hconsole.trans h.console, hannounced, hfinished, hpolls, hwrites⟩
  . rw [hposts] at hannounced hfinished
    rw [h.console] at hempty hfile
    have hone : v.polls ≠ 0 := by
      rw [← h.polls, hdue, Multiset.count_cons_self]
      exact Nat.succ_ne_zero _
    refine ⟨_, .inr (.readChar b rest hone hempty hfile), h.numThreads, h.stands, ?_, hannounced, hfinished, hpolls,
      hwrites⟩
    rw [← h.console]
    exact hconsole

theorem Abs.consoleWriteDone (hw : Hardware numBoxes C) (h : Abs r v) {due : Multiset Handler}
    (hdue : r.due = .consoleWriteDone ::ₘ due)
    : ∃ v', (v' = v ∨ View.Step input v v') ∧ Abs (fired hw r .consoleWriteDone due) v' := by
  have hpolls := h.polls
  have hwrites := h.writes
  rw [hdue, Multiset.count_cons_of_ne (by decide)] at hpolls
  rw [hdue, Multiset.count_cons_self] at hwrites
  have hdue' : (fired hw r .consoleWriteDone due).due = due := add_zero due
  rw [← hdue'] at hpolls
  refine ⟨_, .inr (.writeDone _ hwrites.symm), h.numThreads, h.stands, ?_,
    h.announced.fired hw .consoleWriteDone due, h.finished.fired hw .consoleWriteDone due, hpolls, ?_⟩
  . rw [← h.console]
    rfl
  . rw [hdue']

theorem Abs.post {posts : Multiset Nat} (h : Abs r v) (hposts : r.posts = n ::ₘ posts) (t : Nat)
    : Abs { r with client := r.client.post (.sem n) t, posts := posts } v :=
  ⟨h.numThreads, h.stands, h.console, h.announced.post hposts t, h.finished.post hposts t, h.polls, h.writes⟩

theorem count_eq_zero_of_other {arrived : Multiset Handler} (hother : ∀ handler ∈ arrived, Other handler)
    : arrived.count .consoleReadPoll = 0 ∧ arrived.count .consoleWriteDone = 0 := by
  constructor
  . rw [Multiset.count_eq_zero]
    intro hmem
    exact (hother _ hmem).1 rfl
  . rw [Multiset.count_eq_zero]
    intro hmem
    exact (hother _ hmem).2 rfl

theorem Abs.arrive (h : Abs r v) {arrived : Multiset Handler} (hother : ∀ handler ∈ arrived, Other handler)
    : Abs { r with due := r.due + arrived } v := by
  obtain ⟨hpoll, hdone⟩ := count_eq_zero_of_other hother
  refine ⟨h.numThreads, h.stands, h.console, h.announced.congr rfl rfl, h.finished.congr rfl rfl, ?_, ?_⟩
  . rw [Multiset.count_add, hpoll, Nat.add_zero, h.polls]
  . rw [Multiset.count_add, hdone, Nat.add_zero, h.writes]

/-! ### The thread -/

theorem Abs.code {stage : Stage} (h : Abs r v) (g : Globals numBoxes α X) (hstands : Stands points stage)
    (schedules : Multiset Handler)
    : Abs (moved r { r.client with shared := g } points schedules)
        { v with
          stage := stage
          console := g.console
          polls := v.polls + schedules.count .consoleReadPoll
          writes := v.writes + schedules.count .consoleWriteDone } := by
  refine ⟨h.numThreads, ?_, rfl, h.announced.congr rfl rfl, h.finished.congr rfl rfl, ?_, ?_⟩
  . rw [points_moved]
    exact hstands
  . rw [moved, Multiset.count_add, h.polls]
  . rw [moved, Multiset.count_add, h.writes]

theorem Abs.call {stage : Stage} (h : Abs r v) (hstands : Stands points stage)
    : Abs (moved r r.client points 0) { v with stage := stage } := by
  have hcode := h.code r.client.shared hstands 0
  rw [h.console] at hcode
  exact hcode

theorem Abs.block (h : Abs r v) (hstands : Stands points v.stage) (hawake : r.client.Awake 0)
    (hvalue : (r.client.sem (.sem n)).value = 0)
    : Abs (moved r (r.client.enqueue (.sem n) 0) points 0) v := by
  refine ⟨h.numThreads, ?_, h.console, h.announced.enqueue hawake hvalue, h.finished.enqueue hawake hvalue, ?_, ?_⟩
  . rw [points_moved]
    exact hstands
  . rw [moved, add_zero, h.polls]
  . rw [moved, add_zero, h.writes]

theorem Abs.takeRead (h : Abs r v) (hstage : v.stage = .reading) (hstands : Stands points .taken)
    (hawake : r.client.Awake 0) (hvalue : (r.client.sem (.sem readAvail)).value ≠ 0)
    : ∃ v', (v' = v ∨ View.Step input v v') ∧ Abs (moved r (r.client.take (.sem readAvail) 0) points 0) v' := by
  obtain ⟨announced, heq, hunits⟩ := h.announced.take hawake hvalue points
  refine ⟨_, .inr (.take announced hstage heq), h.numThreads, ?_, h.console, hunits,
    h.finished.take_of_ne (by decide), ?_, ?_⟩
  . rw [points_moved]
    exact hstands
  . rw [moved, add_zero, h.polls]
  . rw [moved, add_zero, h.writes]

theorem Abs.takeWrite {ch : Int8} (h : Abs r v) (hstage : v.stage = .writing ch)
    (hstands : Stands points (.echoed ch)) (hawake : r.client.Awake 0)
    (hvalue : (r.client.sem (.sem writeDone)).value ≠ 0)
    : ∃ v', (v' = v ∨ View.Step input v v') ∧ Abs (moved r (r.client.take (.sem writeDone) 0) points 0) v' := by
  obtain ⟨finished, heq, hunits⟩ := h.finished.take hawake hvalue points
  refine ⟨_, .inr (.finish ch finished hstage heq), h.numThreads, ?_, h.console, h.announced.take_of_ne (by decide),
    hunits, ?_, ?_⟩
  . rw [points_moved]
    exact hstands
  . rw [moved, add_zero, h.polls]
  . rw [moved, add_zero, h.writes]

theorem run_getChar (input : List UInt8) {g : Globals numBoxes α X} (hbusy : g.console.putBusy = false)
    : run input g .getChar =
        ({ g with console := echoed g.console }, .schedule .consoleWriteDone Console.consoleTime .consoleWriteInt,
          .written g.console.incoming) := by
  simp [run, Console.getChar, Console.putChar, hbusy, echoed]

def ran (r : Rig (Globals numBoxes α X) Code Handler) (res : Globals numBoxes α X × Call Code Handler × Code)
    : Rig (Globals numBoxes α X) Code Handler :=
  moved r { r.client with shared := res.1 } (res.2.1.points res.2.2 ++ [.finish]) res.2.1.schedules

theorem Abs.getChar (h : Abs r v) (hinv : v.Inv input) (hstage : v.stage = .taken)
    : ∃ v', (v' = v ∨ View.Step input v v') ∧ Abs (ran r (run input r.client.shared .getChar)) v' := by
  have hbusy : r.client.shared.console.putBusy = false := by
    rw [h.console]
    exact (hinv.not_busy (by rw [hstage]; rfl)).2
  rw [run_getChar input hbusy]
  refine ⟨_, .inr (.echo hstage), ?_⟩
  rw [← h.console]
  exact h.code _ (.written _) _

theorem Abs.test {ch : Int8} (h : Abs r v) (hstage : v.stage = .echoed ch)
    : ∃ v', (v' = v ∨ View.Step input v v') ∧ Abs (ran r (run input r.client.shared (.test ch))) v' := by
  rw [run]
  split
  next hch =>
    subst hch
    exact ⟨_, .inr (.quit hstage), h.call .finish⟩
  next hch => exact ⟨_, .inr (.again ch hstage hch), h.call .p⟩

theorem Abs.thread {g : Globals numBoxes α X} (h : Abs r v) (hinv : v.Inv input) {point : Point Code}
    {points rest : List (Point Code)} {a' : Client (Globals numBoxes α X) Code} (hawake : r.client.Awake 0)
    (hpoints : r.client.points 0 = point :: rest)
    (hact : Client.Act (system hw input g).toProgram r.client 0 point points a')
    : ∃ v', (v' = v ∨ View.Step input v v') ∧
        Abs (moved r a' (points ++ rest) (point.schedules (system hw input g).toProgram r.client.shared)) v' := by
  have hstands := h.stands
  rw [hpoints] at hstands
  generalize hstage : v.stage = stage at hstands
  generalize hlist : point :: rest = list at hstands
  cases hstands <;> cases hlist <;> cases hact
  case main.refl.user => exact ⟨_, .inr (.begin hstage), h.code _ .loop _⟩
  case loop.refl.user => exact ⟨v, .inl rfl, h.call (hstage ▸ .p)⟩
  case p.refl.pTake hvalue => exact h.takeRead hstage .getChar hawake hvalue
  case p.refl.pBlock hvalue => exact ⟨v, .inl rfl, h.block (hstage ▸ .pWhile) hawake hvalue⟩
  case pWhile.refl.pWhileTake hvalue => exact h.takeRead hstage .getChar hawake hvalue
  case pWhile.refl.pWhileBlock hvalue => exact ⟨v, .inl rfl, h.block (hstage ▸ .pWhile) hawake hvalue⟩
  case getChar.refl.user => exact h.getChar hinv hstage
  case written.refl.user ch => exact ⟨v, .inl rfl, h.call (hstage ▸ .writeP ch)⟩
  case writeP.refl.pTake ch hvalue => exact h.takeWrite hstage (.test ch) hawake hvalue
  case writeP.refl.pBlock ch hvalue => exact ⟨v, .inl rfl, h.block (hstage ▸ .writePWhile ch) hawake hvalue⟩
  case writePWhile.refl.pWhileTake ch hvalue => exact h.takeWrite hstage (.test ch) hawake hvalue
  case writePWhile.refl.pWhileBlock ch hvalue =>
    exact ⟨v, .inl rfl, h.block (hstage ▸ .writePWhile ch) hawake hvalue⟩
  case test.refl.user ch => exact h.test hstage
  case finish.refl.finish => exact ⟨v, .inl rfl, h.call (hstage ▸ .notReached)⟩

theorem Abs.step {g : Globals numBoxes α X} (h : Abs r v) (hinv : v.Inv input)
    (hstep : Rig.Step Other (system hw input g).toProgram r r')
    : ∃ v', (v' = v ∨ View.Step input v v') ∧ Abs r' v' := by
  cases hstep with
  | thread t point points rest a' ht hawake hpoints hact =>
    obtain rfl : t = 0 := by
      rw [h.numThreads] at ht
      omega
    exact h.thread hinv hawake hpoints hact
  | fire handler due hdue =>
    by_cases hread : handler = .consoleReadPoll
    . subst hread
      exact h.readPoll hdue
    . by_cases hwrite : handler = .consoleWriteDone
      . subst hwrite
        exact h.consoleWriteDone hw hdue
      . exact ⟨v, .inl rfl, h.other hdue ⟨hread, hwrite⟩⟩
  | post t n posts hposts => exact ⟨v, .inl rfl, h.post hposts t⟩
  | arrive arrived hext => exact ⟨v, .inl rfl, h.arrive hext⟩

def View.boot (input : List UInt8) : View where
  stage := .start
  console := .new input
  announced := 0
  finished := 0
  polls := 0
  writes := 0

theorem View.inv_boot (input : List UInt8) : (View.boot input).Inv input where
  start _ := rfl
  reads := ⟨[], rfl, .inl ⟨rfl, rfl, rfl⟩⟩
  polls := rfl
  display := rfl
  busy := rfl
  echo := rfl

theorem abs_boot {g : Globals numBoxes α X} (h : (system hw input g).RigBoot Other r) : Abs r (.boot input) := by
  obtain ⟨hclient, hother, hposts⟩ := h
  obtain ⟨hpoll, hdone⟩ := count_eq_zero_of_other hother
  have hunits : ∀ n, Units n 0 r := by
    intro n
    constructor <;> rw [hclient]
    . exact le_rfl
    . rw [hposts]
      rfl
    . exact .inl rfl
  refine ⟨?_, ?_, ?_, hunits _, hunits _, hpoll, hdone⟩
  all_goals rw [hclient]
  . rfl
  . exact .main
  . rfl

theorem abs_of_reachable {g : Globals numBoxes α X} (hinput : 0xff ∉ input.dropLast)
    (h : (system hw input g).RigReachable Other r)
    : ∃ v, Abs r v ∧ v.Inv input := by
  refine Transition.Reachable.invariant (P := fun r => ∃ v : View, Abs r v ∧ v.Inv input) ?_ ?_ h
  . intro r hboot
    exact ⟨_, abs_boot hboot, View.inv_boot input⟩
  . rintro r r' _ ⟨v, habs, hinv⟩ hstep
    obtain ⟨v', rfl | hview, habs'⟩ := habs.step hinv hstep
    . exact ⟨v', habs', hinv⟩
    . exact ⟨v', habs', hinv.step hinput hview⟩

/-! ### What this says about the kernel -/

namespace View

variable {v : View}

theorem Inv.not_mem_dropLast (h : v.Inv input) : q.toUInt8 ∉ v.console.writeFile.dropLast := by
  have hecho := h.echo
  generalize v.console.writeFile = writeFile at hecho
  cases hstage : v.stage <;> rw [hstage] at hecho
  case start =>
    subst hecho
    simp
  case reading | taken => exact fun hmem => hecho (List.dropLast_subset _ hmem)
  case writing | echoed | ended =>
    obtain ⟨front, rfl, hfront⟩ := hecho
    rw [List.dropLast_concat]
    exact hfront

theorem Inv.input_eq (h : v.Inv input)
    : ∃ buffered, buffered.length ≤ 1 ∧ input = v.console.writeFile ++ buffered ++ v.console.readFile ∧
        (v.announced + v.stage.taken? = 0 → buffered = []) := by
  obtain ⟨delivered, hinput, ⟨_, _, heq⟩ | ⟨hone, b, _, heq⟩⟩ := h.reads
  . refine ⟨[], by simp, ?_, fun _ => rfl⟩
    rw [hinput, heq, reader_bytes, List.append_nil]
    rfl
  . refine ⟨[b], by simp, ?_, ?_⟩
    . rw [hinput, heq, reader_bytes]
      rfl
    . intro hzero
      change v.announced + v.stage.taken? = 1 at hone
      omega

end View

theorem Abs.not_putBusy (h : Abs r v) (hinv : v.Inv input) (hpoint : .user .getChar ∈ r.client.points 0)
    : r.client.shared.console.putBusy = false := by
  have hwritten : v.stage.written = 0 := by
    have hstands := h.stands
    generalize v.stage = stage at hstands ⊢
    generalize r.client.points 0 = points at hstands hpoint
    cases hstands <;> first | rfl | simp at hpoint
  rw [h.console]
  exact (hinv.not_busy hwritten).2

theorem Abs.ended (h : Abs r v) (hpoint : .notReached ∈ r.client.points 0) : v.stage = .ended := by
  have hstands := h.stands
  generalize v.stage = stage at hstands ⊢
  generalize r.client.points 0 = points at hstands hpoint
  cases hstands <;> first | rfl | simp at hpoint

theorem Units.zero_of_waits (h : Units n units r) (hposts : r.posts = 0) (hmem : 0 ∈ (r.client.sem (.sem n)).queue)
    : units = 0 := by
  have hvalue := h.value
  obtain hqueue | ⟨_, hzero⟩ := h.queue
  . rw [hqueue] at hmem
    cases hmem
  . rw [hzero, hposts, Multiset.count_zero] at hvalue
    omega

theorem due_of_waits {g : Globals numBoxes α X} {s : State (Globals numBoxes α X) Code Handler}
    (h : (system hw input g).ReachableBy Other s) (hnum : s.numThreads = 1) (hhandler : s.inHandler = false)
    (hmem : 0 ∈ (s.sem (.sem n)).queue)
    : s.rig.due = handlers s.pending := by
  have hweigh : s.weigh Frame.due = 0 := by
    apply Multiset.eq_zero_of_forall_notMem
    intro handler hdue
    obtain ⟨t, ht, frame, hframe, hdue⟩ := State.mem_weigh.mp hdue
    cases frame with
    | handler calls =>
      rw [inHandler_of_mem h.reachable ht hframe] at hhandler
      contradiction
    | schedule handler' fromNow type =>
      obtain ⟨u, hstack, _⟩ := schedule_mem h.reachable t ht _ _ _ hframe
      obtain rfl : t = 0 := by omega
      have hwait := (h.reachable.inv.placed.mem_sem (.sem n) 0).1 hmem
      rw [hstack] at hwait
      cases hwait.2.2
    | _ => exact absurd hdue (Multiset.notMem_zero _)
  change handlers s.pending + s.weigh Frame.due = _
  rw [hweigh, add_zero]

theorem consoleTest_echoes (hw : Hardware numBoxes C) (g : Globals numBoxes α X) (hinput : 0xff ∉ input.dropLast)
    {s : State (Globals numBoxes α X) Code Handler} (h : (system hw input g).ReachableBy Other s)
    : (∃ buffered, buffered.length ≤ 1 ∧
        input = s.shared.console.writeFile ++ buffered ++ s.shared.console.readFile) ∧
      q.toUInt8 ∉ s.shared.console.writeFile.dropLast ∧
      (.user .getChar ∈ s.stack 0 → s.shared.console.putBusy = false) ∧
      (.notReached ∈ s.stack 0 → ∃ front, s.shared.console.writeFile = front ++ [q.toUInt8]) ∧
      (s.inHandler = false → 0 ∈ (s.sem (.sem readAvail)).queue →
        input = s.shared.console.writeFile ++ s.shared.console.readFile ∧
          ∃ toOccur ∈ s.pending, toOccur.handler = .consoleReadPoll) ∧
      (s.inHandler = false → 0 ∈ (s.sem (.sem writeDone)).queue →
        ∃ toOccur ∈ s.pending, toOccur.handler = .consoleWriteDone) := by
  obtain ⟨v, habs, hinv⟩ := abs_of_reachable hinput h.rig
  have hconsole : s.shared.console = v.console := habs.console
  have hpoint : ∀ {frame : Frame Code Handler} {point : Point Code}, frame ∈ s.stack 0 → frame.point? = some point →
      point ∈ s.rig.client.points 0 := by
    intro frame point hmem hpoint
    exact List.mem_filterMap.2 ⟨frame, hmem, hpoint⟩
  have hwait : ∀ {n : Nat}, 0 ∈ (s.sem (.sem n)).queue →
      ∃ rest, Stands (.pWhile (.sem n) :: rest) v.stage := by
    intro n hmem
    obtain ⟨rest, hpoints⟩ := Stack.waitPoint_isAt ((h.reachable.inv.placed.mem_sem (.sem n) 0).1 hmem).2.2
    exact ⟨rest, hpoints ▸ habs.stands⟩
  have hpending : ∀ {n : Nat} {handler : Handler}, s.inHandler = false → 0 ∈ (s.sem (.sem n)).queue →
      s.rig.due.count handler = 1 → ∃ toOccur ∈ s.pending, toOccur.handler = handler := by
    intro n handler hhandler hmem hcount
    have hdue : handler ∈ s.rig.due := by
      rw [← Multiset.count_pos, hcount]
      exact Nat.one_pos
    rw [due_of_waits h habs.numThreads hhandler hmem] at hdue
    exact List.mem_map.1 (Multiset.mem_coe.1 hdue)
  obtain ⟨buffered, hlength, heq, hempty⟩ := hinv.input_eq
  have hreads := habs.polls
  have hwrites := habs.writes
  rw [hinv.polls] at hreads
  rw [hconsole]
  refine ⟨⟨buffered, hlength, heq⟩, hinv.not_mem_dropLast, ?_, ?_, ?_, ?_⟩
  . intro hmem
    rw [← hconsole]
    exact habs.not_putBusy hinv (hpoint hmem rfl)
  . intro hmem
    have hecho := hinv.echo
    rw [habs.ended (hpoint hmem rfl)] at hecho
    obtain ⟨front, heq, _⟩ := hecho
    exact ⟨front, heq⟩
  . intro hhandler hmem
    have hzero := habs.announced.zero_of_waits (posts_eq_zero h.reachable hhandler) hmem
    obtain ⟨rest, hstands⟩ := hwait hmem
    generalize hstage : v.stage = stage at hstands
    cases hstands
    rw [hstage, hzero] at hempty
    rw [hempty rfl, List.append_nil] at heq
    exact ⟨heq, hpending hhandler hmem (by rw [hreads, hstage]; rfl)⟩
  . intro hhandler hmem
    have hzero := habs.finished.zero_of_waits (posts_eq_zero h.reachable hhandler) hmem
    obtain ⟨rest, hstands⟩ := hwait hmem
    generalize hstage : v.stage = stage at hstands
    cases hstands
    have hdisplay := hinv.display
    rw [hstage, hzero, Nat.zero_add] at hdisplay
    exact hpending hhandler hmem (hwrites.trans hdisplay)

end

/-! ### A run with three characters -/

def keyboard : Hardware 0 Unit := { Devices.quietHardware with ready := fun _ => true }

def typed : List UInt8 := [97, 113, 98]

def typedSystem : System (Globals 0 Unit Unit) Code Handler :=
  system keyboard typed Devices.quietKernel.globals

def typedRun (n : Nat) : State (Globals 0 Unit Unit) Code Handler :=
  runFor typedSystem.toProgram n (boot typedSystem [])

theorem consoleTest_echoes_aqb
    : (0 ∈ ((typedRun 32).sem (.sem writeDone)).queue ∧
        ∃ toOccur ∈ (typedRun 32).pending, toOccur.handler = .consoleWriteDone) ∧
      ∃ front buffered, (typedRun 80).shared.console.writeFile = front ++ [q.toUInt8] ∧ buffered.length ≤ 1 ∧
        typed = (typedRun 80).shared.console.writeFile ++ buffered ++ (typedRun 80).shared.console.readFile := by
  have hreach : ∀ n, typedSystem.ReachableBy Other (typedRun n) := by
    intro n
    exact System.ReachableBy.runFor (.init ⟨[], by simp, rfl⟩) n
  have hwaits : 0 ∈ ((typedRun 32).sem (.sem writeDone)).queue := by decide +kernel
  obtain ⟨_, _, _, _, _, hpending⟩ :=
    consoleTest_echoes keyboard Devices.quietKernel.globals (by decide) (hreach 32)
  obtain ⟨⟨buffered, hlength, heq⟩, _, _, hended, _⟩ :=
    consoleTest_echoes keyboard Devices.quietKernel.globals (by decide) (hreach 80)
  obtain ⟨front, hfront⟩ := hended (by decide +kernel)
  exact ⟨⟨hwaits, hpending (by decide +kernel) hwaits⟩, front, buffered, hfront, hlength, heq⟩

end ConsoleTest

end Nachos
