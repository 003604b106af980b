import Mathlib.Logic.Relation
import Nachos.Lib.Ram

/-!
This module contains a part of the i386: moves between registers and memory, the stack, and calls. Blocks of
code without calls are executed as a whole.
-/

namespace I386

open Function (update)
open Relation (ReflTransGen)

inductive Reg where
  | eax
  | ebx
  | ecx
  | edx
  | esp
  | ebp
  | esi
  | edi
  deriving DecidableEq, Repr

/--
`mem disp base` is `disp(%base)`, and `var a` is a variable at the address `a`.
-/
inductive Operand where
  | reg (r : Reg)
  | mem (disp : BitVec 32) (base : Reg)
  | var (a : BitVec 32)

inductive Plain where
  | movl (src dst : Operand)
  | pushl (src : Operand)
  | popl (dst : Operand)

/--
`call` is the one through a pointer.
-/
inductive Instr where
  | plain (i : Plain)
  | call (target : Operand)
  | ret

structure Data where
  regs : Reg → BitVec 32
  ram : Ram

structure Cpu extends Data where
  eip : BitVec 32

namespace Data

def read (d : Data) : Operand → BitVec 32
  | .reg r => d.regs r
  | .mem disp base => d.ram.load (d.regs base + disp)
  | .var a => d.ram.load a

def write (d : Data) (dst : Operand) (value : BitVec 32) : Data :=
  match dst with
  | .reg r => { d with regs := update d.regs r value }
  | .mem disp base => { d with ram := d.ram.store (d.regs base + disp) value }
  | .var a => { d with ram := d.ram.store a value }

def push (d : Data) (value : BitVec 32) : Data where
  regs := update d.regs .esp (d.regs .esp - 4)
  ram := d.ram.store (d.regs .esp - 4) value

def drop (d : Data) : Data :=
  { d with regs := update d.regs .esp (d.regs .esp + 4) }

def exec (d : Data) : Plain → Data
  | .movl src dst => d.write dst (d.read src)
  | .pushl src => d.push (d.read src)
  | .popl dst => d.drop.write dst (d.ram.load (d.regs .esp))

def execAll (d : Data) (block : List Plain) : Data :=
  block.foldl exec d

theorem execAll_cons (d : Data) (i : Plain) (block : List Plain)
    : d.execAll (i :: block) = (d.exec i).execAll block := rfl

theorem execAll_append (d : Data) (block block' : List Plain)
    : d.execAll (block ++ block') = (d.execAll block).execAll block' :=
  List.foldl_append

theorem push_esp (d : Data) (value : BitVec 32) : (d.push value).regs .esp = d.regs .esp - 4 := by
  simp [push]

theorem push_regs (d : Data) (value : BitVec 32) {r : Reg} (h : r ≠ .esp) : (d.push value).regs r = d.regs r := by
  simp [push, h]

theorem load_push (d : Data) (value : BitVec 32) : (d.push value).ram.load ((d.push value).regs .esp) = value := by
  rw [push_esp]
  exact Ram.load_store d.ram (d.regs .esp - 4) value

theorem push_ram (d : Data) (value : BitVec 32) {x : BitVec 32} {n : Nat} (hn : n + 4 ≤ 2 ^ 32)
    (hx : x ∈ Ram.area (d.regs .esp) n)
    : (d.push value).ram x = d.ram x := by
  apply Ram.store_apply_of_notMem
  rw [Ram.mem_area] at *
  bv_omega

theorem load_push_next (d : Data) (value : BitVec 32)
    : (d.push value).ram.load ((d.push value).regs .esp + 4) = d.ram.load (d.regs .esp) := by
  rw [push_esp, sub_add_cancel]
  apply Ram.load_congr
  intro x hx
  exact d.push_ram value (n := 4) (by omega) hx

theorem execAll_stores (d : Data) (offset : Reg → BitVec 32) (base : Reg) (rs : List Reg)
    : d.execAll (rs.map fun r => .movl (.reg r) (.mem (offset r) base)) =
        { d with ram := d.ram.storeAll (rs.map fun r => (d.regs base + offset r, d.regs r)) } := by
  induction rs generalizing d with
  | nil => rfl
  | cons r rs ih =>
    rw [List.map_cons, execAll_cons, ih]
    rfl

theorem execAll_loads (d : Data) (offset : Reg → BitVec 32) {base : Reg} {rs : List Reg} (h : base ∉ rs)
    : d.execAll (rs.map fun r => .movl (.mem (offset r) base) (.reg r)) =
        { d with regs := fun r => if r ∈ rs then d.ram.load (d.regs base + offset r) else d.regs r } := by
  induction rs generalizing d with
  | nil => rfl
  | cons r rs ih =>
    rw [List.mem_cons, not_or] at h
    rw [List.map_cons, execAll_cons, ih _ h.2]
    simp only [exec, read, write, mk.injEq, and_true]
    funext q
    rw [Function.update_of_ne h.1]
    by_cases hq : q = r
    . simp [hq]
    . simp [hq, Function.update_of_ne]

end Data

def Cpu.exec (s : Cpu) (next : BitVec 32) : Instr → Cpu
  | .plain i => { s.toData.exec i with eip := next }
  | .call target => { s.toData.push next with eip := s.toData.read target }
  | .ret => { s.toData.drop with eip := s.ram.load (s.regs .esp) }

abbrev Code : Type :=
  BitVec 32 → Option (Instr × BitVec 32)

def step (code : Code) (s : Cpu) : Option Cpu :=
  (code s.eip).map fun (i, next) => s.exec next i

def Step (code : Code) (s s' : Cpu) : Prop :=
  step code s = some s'

def Loaded (code : Code) (start : BitVec 32) (instrs : List Instr) (stop : BitVec 32) : Prop :=
  match instrs with
  | [] => start = stop
  | i :: instrs => ∃ next, code start = some (i, next) ∧ Loaded code next instrs stop

theorem Loaded.of_append {code : Code} {start stop : BitVec 32} {instrs instrs' : List Instr}
    (h : Loaded code start (instrs ++ instrs') stop)
    : ∃ mid, Loaded code start instrs mid ∧ Loaded code mid instrs' stop := by
  induction instrs generalizing start with
  | nil => exact ⟨start, rfl, h⟩
  | cons i instrs ih =>
    obtain ⟨next, hi, h⟩ := h
    obtain ⟨mid, hmid, h⟩ := ih h
    exact ⟨mid, ⟨next, hi, hmid⟩, h⟩

theorem Loaded.step {code : Code} {s : Cpu} {stop : BitVec 32} {i : Instr} (h : Loaded code s.eip [i] stop)
    : Step code s (s.exec stop i) := by
  obtain ⟨_, hi, rfl⟩ := h
  unfold Step I386.step
  rw [hi]
  rfl

theorem Loaded.steps {code : Code} {s : Cpu} {stop : BitVec 32} {block : List Plain}
    (h : Loaded code s.eip (block.map .plain) stop)
    : ReflTransGen (Step code) s { s.toData.execAll block with eip := stop } := by
  induction block generalizing s with
  | nil =>
    cases h
    exact .refl
  | cons i block ih =>
    obtain ⟨next, hi, h⟩ := h
    exact .head (Loaded.step (i := .plain i) ⟨next, hi, rfl⟩) (ih (s := s.exec next (.plain i)) h)

/-! ### Calls of C functions -/

/--
A function that got `args` words has returned. The `kept` bytes above them are the caller's.
-/
structure Returned (args kept : Nat) (s s' : Cpu) : Prop where
  eip : s'.eip = s.ram.load (s.regs .esp)
  esp : s'.regs .esp = s.regs .esp + 4
  regs : ∀ r ∈ [Reg.ebx, .ebp, .esi, .edi], s'.regs r = s.regs r
  frame : ∀ x ∈ Ram.area (s.regs .esp + 4 + BitVec.ofNat 32 (4 * args)) kept, s'.ram x = s.ram x

structure Callee where
  args : Nat
  kept : Nat
  entry : Cpu → Prop

def CallsAll (code : Code) (s : Cpu) : List Callee → Prop
  | [] => True
  | callee :: callees => ∃ s', ReflTransGen (Step code) s s' ∧ callee.entry s' ∧
      ∀ s'', Returned callee.args callee.kept s' s'' → CallsAll code s'' callees

structure Behind (args kept : Nat) (next : BitVec 32) (s s' : Cpu) : Prop where
  eip : s'.eip = next
  esp : s'.regs .esp = s.regs .esp
  regs : ∀ r ∈ [Reg.ebx, .ebp, .esi, .edi], s'.regs r = s.regs r
  frame : ∀ x ∈ Ram.area (s.regs .esp + BitVec.ofNat 32 (4 * args)) kept, s'.ram x = s.ram x

theorem Returned.behind {args kept : Nat} {s s' : Cpu} {next eip : BitVec 32} (hkept : 4 * args + kept + 4 ≤ 2 ^ 32)
    (h : Returned args kept ⟨s.toData.push next, eip⟩ s')
    : Behind args kept next s s' where
  eip := h.eip.trans (s.toData.load_push next)
  esp := by
    rw [h.esp, s.toData.push_esp, sub_add_cancel]
  regs := by
    intro r hr
    rw [h.regs r hr]
    apply s.toData.push_regs
    rintro rfl
    exact absurd hr (by decide)
  frame := by
    intro x hx
    have hframe := h.frame x
    rw [s.toData.push_esp, sub_add_cancel] at hframe
    rw [hframe hx]
    apply s.toData.push_ram next (n := 4 * args + kept) hkept
    rw [Ram.mem_area] at *
    bv_omega

theorem CallsAll.call {code : Code} {s : Cpu} {r : Reg} {next : BitVec 32} {callee : Callee}
    {callees : List Callee} (hi : code s.eip = some (.call (.reg r), next))
    (hkept : 4 * callee.args + callee.kept + 4 ≤ 2 ^ 32)
    (hentry : callee.entry ⟨s.toData.push next, s.regs r⟩)
    (hrest : ∀ s', Behind callee.args callee.kept next s s' → CallsAll code s' callees)
    : CallsAll code s (callee :: callees) := by
  refine ⟨_, .single (Loaded.step (i := .call (.reg r)) ⟨next, hi, rfl⟩), hentry, ?_⟩
  intro s' h
  exact hrest s' (h.behind hkept)

theorem CallsAll.head {code : Code} {s s' : Cpu} {callees : List Callee} (hsteps : ReflTransGen (Step code) s s')
    (h : CallsAll code s' callees)
    : CallsAll code s callees := by
  cases callees with
  | nil => trivial
  | cons callee callees =>
    obtain ⟨s'', hsteps', h⟩ := h
    exact ⟨s'', hsteps.trans hsteps', h⟩

end I386
