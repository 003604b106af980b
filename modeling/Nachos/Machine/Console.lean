import Nachos.Lib.Transition

/-!
This module contains the device of `console.cc`. Its buffer for the incoming character has no room for the
question whether there is one: the code takes the value of `EOF` for an empty buffer.
-/

namespace Nachos

open Relation

/--
`readFile` is what can still be read from the UNIX file of the keyboard, `writeFile` what was written to the one of
the display. A `char` is signed.
-/
structure Console where
  readFile : List UInt8
  writeFile : List UInt8
  putBusy : Bool
  incoming : Int8
  numConsoleCharsRead : Nat
  numConsoleCharsWritten : Nat

namespace Console

def consoleTime : Nat := 100

def eof : Int := -1

def new (input : List UInt8) : Console where
  readFile := input
  writeFile := []
  putBusy := false
  incoming := .ofInt eof
  numConsoleCharsRead := 0
  numConsoleCharsWritten := 0

def readChar (c : Console) (b : UInt8) (rest : List UInt8) : Console :=
  { c with readFile := rest, incoming := b.toInt8, numConsoleCharsRead := c.numConsoleCharsRead + 1 }

/--
`CheckCharAvail` after the call of `Schedule`, and whether it calls `readHandler`. `ready` is what `PollFile`
returns. A file that is at its end is ready too, then the `ASSERT` in `Read` fails.
-/
def checkCharAvail (c : Console) (ready : Bool) : Option (Console × Bool) :=
  if c.incoming.toInt ≠ eof ∨ ready = false then
    some (c, false)
  else
    match c.readFile with
    | [] => none
    | b :: rest => some (c.readChar b rest, true)

def getChar (c : Console) : Int8 × Console :=
  (c.incoming, { c with incoming := .ofInt eof })

def putChar (c : Console) (ch : Int8) : Option Console :=
  if c.putBusy = false then
    some { c with writeFile := c.writeFile ++ [ch.toUInt8], putBusy := true }
  else
    none

def writeDone (c : Console) : Console :=
  { c with putBusy := false, numConsoleCharsWritten := c.numConsoleCharsWritten + 1 }

/-! ### A reader -/

/--
The console and a thread that reads from it. `notified` are the calls of `readHandler` for which the thread has not
called `GetChar` yet, `returned` is what it got.
-/
structure Reader where
  console : Console
  notified : Nat
  returned : List Int8

namespace Reader

def start (input : List UInt8) : Reader where
  console := .new input
  notified := 0
  returned := []

inductive Step : Reader → Reader → Prop where
  | poll {s : Reader} {ready called : Bool} {console : Console}
      (h : s.console.checkCharAvail ready = some (console, called))
    : Step s { s with console, notified := if called then s.notified + 1 else s.notified }
  | getChar {s : Reader} (h : 0 < s.notified)
    : Step s
        { console := s.console.getChar.2
          notified := s.notified - 1
          returned := s.returned ++ [s.console.getChar.1] }

abbrev Reachable (input : List UInt8) : Reader → Prop :=
  Transition.Reachable (· = start input) Step

def bytes (s : Reader) : List UInt8 :=
  s.returned.map Int8.toUInt8

def Lossless (input : List UInt8) (s : Reader) : Prop :=
  ∃ delivered, input = delivered ++ s.console.readFile ∧ s.bytes <+: delivered ∧
    delivered.length = s.bytes.length + s.notified ∧ s.notified ≤ 1

end Reader

theorem toInt_eq_eof {ch : Int8} : ch.toInt = eof ↔ ch = .ofInt eof :=
  Int8.toInt_inj (y := .ofInt eof)

theorem toInt8_eq_eof {b : UInt8} : b.toInt8 = .ofInt eof ↔ b = 0xff := by
  constructor
  . intro h
    have hbyte := congrArg Int8.toUInt8 h
    rw [UInt8.toUInt8_toInt8] at hbyte
    exact hbyte
  . intro h
    subst h
    decide

theorem checkCharAvail_cases {c c' : Console} {ready called : Bool}
    (h : c.checkCharAvail ready = some (c', called))
    : c' = c ∧ called = false ∨
      ∃ b rest, c.incoming = .ofInt eof ∧ c.readFile = b :: rest ∧ c' = c.readChar b rest ∧ called = true := by
  unfold checkCharAvail at h
  split at h
  next =>
    cases h
    exact .inl ⟨rfl, rfl⟩
  next hempty =>
    split at h
    next => cases h
    next b rest heq =>
      cases h
      rw [not_or, not_not, toInt_eq_eof] at hempty
      exact .inr ⟨b, rest, hempty.1, heq, rfl, rfl⟩

theorem checkCharAvail_of_empty {c : Console} {b : UInt8} {rest : List UInt8} (hempty : c.incoming = .ofInt eof)
    (heq : c.readFile = b :: rest)
    : c.checkCharAvail true = some (c.readChar b rest, true) := by
  unfold checkCharAvail
  rw [if_neg (by rw [not_or, not_not, toInt_eq_eof]; exact ⟨hempty, by decide⟩), heq]

namespace Reader

variable {input : List UInt8} {s s' : Reader}

@[simp]
theorem bytes_getChar (s : Reader) (ch : Int8) (c : Console) (n : Nat)
    : bytes ⟨c, n, s.returned ++ [ch]⟩ = s.bytes ++ [ch.toUInt8] := by
  simp [bytes]

def Buffered (input : List UInt8) (s : Reader) : Prop :=
  ∃ delivered, input = delivered ++ s.console.readFile ∧
    (s.notified = 0 ∧ s.console.incoming = .ofInt eof ∧ delivered = s.bytes ∨
      s.notified = 1 ∧ ∃ b : UInt8, s.console.incoming = b.toInt8 ∧ delivered = s.bytes ++ [b])

theorem Buffered.lossless (h : s.Buffered input) : s.Lossless input := by
  obtain ⟨delivered, hinput, ⟨hnone, _, heq⟩ | ⟨hone, b, _, heq⟩⟩ := h
  . subst heq
    exact ⟨_, hinput, List.prefix_rfl, by rw [hnone, Nat.add_zero], by omega⟩
  . subst heq
    exact ⟨_, hinput, List.prefix_append _ _, by rw [hone]; simp, by omega⟩

theorem Buffered.step (hinput : 0xff ∉ input.dropLast) (h : s.Buffered input) (hstep : Step s s')
    : s'.Buffered input := by
  obtain ⟨delivered, heq, hbuffer⟩ := h
  cases hstep with
  | @poll ready called console hpoll =>
    obtain ⟨hsame, hcalled⟩ | ⟨b, rest, hempty, hfile, hread, hcalled⟩ := checkCharAvail_cases hpoll
    . rw [hsame, hcalled]
      exact ⟨delivered, heq, hbuffer⟩
    . obtain ⟨hnone, _, hdelivered⟩ | ⟨_, b', hfull, hdelivered⟩ := hbuffer
      . rw [hread, hcalled, hnone]
        refine ⟨delivered ++ [b], ?_, .inr ⟨rfl, b, rfl, ?_⟩⟩
        . rw [heq, hfile, List.append_assoc]
          rfl
        . rw [hdelivered]
          rfl
      . -- a full buffer looks empty only if it has the byte 255, and that byte is the last one
        rw [hempty] at hfull
        have hbyte := toInt8_eq_eof.1 hfull.symm
        rw [hfile, hdelivered, hbyte] at heq
        apply absurd ?_ hinput
        rw [heq]
        simp
  | getChar hnotified =>
    obtain ⟨hnone, _⟩ | ⟨hone, b, hincoming, hdelivered⟩ := hbuffer
    . omega
    . refine ⟨delivered, heq, .inl ⟨by rw [hone], rfl, ?_⟩⟩
      rw [bytes_getChar, hdelivered]
      unfold getChar
      rw [hincoming, UInt8.toUInt8_toInt8]

theorem step_of_empty {b : UInt8} {rest : List UInt8} (hempty : s.console.incoming = .ofInt eof)
    (heq : s.console.readFile = b :: rest)
    : Step s ⟨s.console.readChar b rest, s.notified + 1, s.returned⟩ :=
  Step.poll (checkCharAvail_of_empty hempty heq)

theorem exists_run (front : List UInt8) (hempty : s.console.incoming = .ofInt eof) (hnone : s.notified = 0)
    {rest : List UInt8} (heq : s.console.readFile = front ++ rest)
    : ∃ s', ReflTransGen Step s s' ∧ s'.console.incoming = .ofInt eof ∧ s'.notified = 0 ∧
        s'.console.readFile = rest := by
  induction front generalizing s with
  | nil => exact ⟨s, .refl, hempty, hnone, heq⟩
  | cons b front ih =>
    have hpoll := step_of_empty hempty heq
    have hget := Step.getChar (s := ⟨s.console.readChar b (front ++ rest), s.notified + 1, s.returned⟩)
      (Nat.succ_pos _)
    generalize hs : Reader.mk (Console.getChar _).2 _ _ = s₂ at hget
    obtain ⟨s', hrun, h⟩ := ih (s := s₂) (by rw [← hs]; rfl) (by rw [← hs]; exact hnone) (by rw [← hs]; rfl)
    exact ⟨s', .head hpoll (.head hget hrun), h⟩

theorem exists_split {α : Type} {a : α} {l : List α} (h : a ∈ l.dropLast)
    : ∃ front b rest, l = front ++ a :: b :: rest := by
  obtain ⟨front, rest, heq⟩ := List.append_of_mem h
  cases l using List.reverseRecOn with
  | nil => cases h
  | append_singleton l b =>
    rw [List.dropLast_concat] at heq
    cases rest with
    | nil => exact ⟨front, b, [], by rw [heq]; simp⟩
    | cons b' rest => exact ⟨front, b', rest ++ [b], by rw [heq]; simp⟩

theorem console_lossless_iff (input : List UInt8)
    : (∀ s, Reachable input s → s.Lossless input) ↔ 0xff ∉ input.dropLast := by
  constructor
  . intro h hmem
    obtain ⟨front, b, rest, heq⟩ := exists_split hmem
    obtain ⟨s, hrun, hempty, hnone, hfile⟩ := exists_run (s := start input) front rfl rfl heq
    -- the second poll overwrites the byte 255
    have hpoll := step_of_empty hempty hfile
    have hpoll' := step_of_empty (s := ⟨s.console.readChar 0xff (b :: rest), s.notified + 1, s.returned⟩)
      (toInt8_eq_eof.2 rfl) rfl
    have hlossless := h _ ⟨start input, rfl, (hrun.tail hpoll).tail hpoll'⟩
    obtain ⟨_, _, _, _, hle⟩ := hlossless
    simp at hle
  . intro hinput s hreach
    apply Buffered.lossless
    apply Transition.Reachable.invariant ?_ ?_ hreach
    . intro s heq
      subst heq
      exact ⟨[], rfl, .inl ⟨rfl, rfl, rfl⟩⟩
    . intro s s' _ hbuffered hstep
      exact hbuffered.step hinput hstep

theorem byte_255_overwritten
    : ∃ s, Reachable [0xff, 0x61] s ∧ s.notified = 0 ∧ s.console.readFile = [] ∧ s.bytes = [0x61, 0xff] ∧
        ¬s.Lossless [0xff, 0x61] := by
  -- Two polls before the first `GetChar`: the byte 255 comes last, as the value of the empty buffer.
  have hpoll := step_of_empty (s := start [0xff, 0x61]) rfl rfl
  have hpoll' := step_of_empty (s := ⟨(Console.new [0xff, 0x61]).readChar 0xff [0x61], 1, []⟩)
    (toInt8_eq_eof.2 rfl) rfl
  have hget := Step.getChar
    (s := ⟨((Console.new [0xff, 0x61]).readChar 0xff [0x61]).readChar 0x61 [], 2, []⟩) (by decide)
  have hget' := Step.getChar
    (s := ⟨(((Console.new [0xff, 0x61]).readChar 0xff [0x61]).readChar 0x61 []).getChar.2, 1,
      [(0x61 : UInt8).toInt8]⟩) (by decide)
  refine ⟨_, ⟨_, rfl, .tail (.tail (.tail (.tail .refl hpoll) hpoll') hget) hget'⟩, rfl, rfl, by decide, ?_⟩
  intro ⟨delivered, hinput, hprefix, _⟩
  have heq : delivered = [0xff, 0x61] := by
    rw [hinput]
    exact (List.append_nil delivered).symm
  rw [heq] at hprefix
  exact absurd hprefix (by decide)

end Reader

end Console

end Nachos
