import Mathlib.Algebra.Ring.Nat
import Mathlib.Logic.Function.Basic
import Nachos.Lib.Exit

/-!
This module contains the simulated machine of `machine.h`: the registers, the main memory and the address
translation of `translate.cc`.
-/

namespace Nachos

open Function (update)

abbrev Word := BitVec 32
abbrev Byte := BitVec 8

def pageSize : Nat := 128
def numPhysPages : Nat := 32
def memorySize : Nat := numPhysPages * pageSize
def tlbSize : Nat := 4

inductive ExceptionType where
  | syscallException
  | pageFaultException
  | readOnlyException
  | busErrorException
  | addressErrorException
  | overflowException
  | illegalInstrException
  deriving DecidableEq, Repr

instance neZeroNumGPRegs : NeZero 32 := ⟨by decide⟩

inductive Register where
  | gp (i : Fin 32)
  | hi
  | lo
  | pc
  | nextPC
  | prevPC
  | load
  | loadValue
  | badVAddr
  deriving DecidableEq, Repr

def Register.ofIndex (i : Nat) : Option Register :=
  if h : i < 32 then
    some (.gp ⟨i, h⟩)
  else
    [hi, lo, pc, nextPC, prevPC, load, loadValue, badVAddr][i - 32]?

structure TranslationEntry where
  virtualPage : Word
  physicalPage : Word
  valid : Bool
  readOnly : Bool
  use : Bool
  dirty : Bool
  deriving DecidableEq, Repr

structure Machine where
  registers : Register → Word
  mainMemory : Nat → Byte
  tlb : Option (Vector TranslationEntry tlbSize)
  pageTable : Option (List TranslationEntry)

namespace Machine

def setRegister (m : Machine) (r : Register) (value : Word) : Machine :=
  { m with registers := update m.registers r value }

/--
If `LoadReg` is beyond the array, then the first store hits other memory.
-/
def delayedLoad (m : Machine) (nextReg nextValue : Word) : Machine :=
  let m :=
    match Register.ofIndex (m.registers .load).toNat with
    | some r => m.setRegister r (m.registers .loadValue)
    | none => m
  ((m.setRegister .load nextReg).setRegister .loadValue nextValue).setRegister (.gp 0) 0

inductive Slot where
  | page (vpn : Nat)
  | tlb (i : Fin tlbSize)

def findEntry (m : Machine) (vpn : Nat) : Except ExceptionType (Slot × TranslationEntry) :=
  match m.tlb with
  | none =>
    match (m.pageTable.getD [])[vpn]? with
    | none => .error .addressErrorException
    | some entry =>
      if entry.valid then
        .ok (.page vpn, entry)
      else
        .error .pageFaultException
  | some tlb =>
    match (List.finRange tlbSize).find?
      fun i => (tlb.get i).valid && (tlb.get i).virtualPage.toNat = vpn with
    | none => .error .pageFaultException
    | some i => .ok (.tlb i, tlb.get i)

def setEntry (m : Machine) (slot : Slot) (entry : TranslationEntry) : Machine :=
  match slot with
  | .page vpn => { m with pageTable := m.pageTable.map fun table => table.set vpn entry }
  | .tlb i => { m with tlb := m.tlb.map fun tlb => tlb.set i entry i.isLt }

inductive Abort where
  | bothTables
  | noTable
  | physAddr
  | size
  | alignment
  | default
  deriving DecidableEq, Repr

/--
The result is the exception, or the physical address for `NoException`.
-/
def translate (m : Machine) (virtAddr : Word) (size : Nat) (writing : Bool)
    : Except Abort (Except ExceptionType Nat × Machine) :=
  if (size = 4 ∧ virtAddr &&& 3 ≠ 0) ∨ (size = 2 ∧ virtAddr &&& 1 ≠ 0) then
    .ok (.error .addressErrorException, m)
  else if m.tlb.isSome ∧ m.pageTable.isSome then
    .error .bothTables
  else if m.tlb.isNone ∧ m.pageTable.isNone then
    .error .noTable
  else
    let vpn := virtAddr.toNat / pageSize
    let offset := virtAddr.toNat % pageSize
    match m.findEntry vpn with
    | .error exception => .ok (.error exception, m)
    | .ok (slot, entry) =>
      if entry.readOnly ∧ writing then
        .ok (.error .readOnlyException, m)
      else
        let pageFrame := entry.physicalPage.toNat
        if pageFrame ≥ numPhysPages then
          .ok (.error .busErrorException, m)
        else
          let m := m.setEntry slot { entry with use := true, dirty := entry.dirty || writing }
          let physAddr := pageFrame * pageSize + offset
          if physAddr + size ≤ memorySize then
            .ok (.ok physAddr, m)
          else
            .error .physAddr

/--
Little endian, as the host is. `char` is signed.
-/
def load (m : Machine) (physicalAddress size : Nat) : Option Word :=
  let byte i := m.mainMemory (physicalAddress + i)
  match size with
  | 1 => some ((byte 0).signExtend 32)
  | 2 => some ((byte 1 ++ byte 0).setWidth 32)
  | 4 => some (byte 3 ++ byte 2 ++ byte 1 ++ byte 0)
  | _ => none

def store (m : Machine) (physicalAddress size : Nat) (value : Word) : Option Machine :=
  let byte i := value.extractLsb' (8 * i) 8
  let stored := fun n address =>
    if physicalAddress ≤ address ∧ address < physicalAddress + n then
      byte (address - physicalAddress)
    else
      m.mainMemory address
  match size with
  | 1 => some { m with mainMemory := stored 1 }
  | 2 => some { m with mainMemory := stored 2 }
  | 4 => some { m with mainMemory := stored 4 }
  | _ => none

end Machine

/--
A call of `RaiseException`, with the machine that `ExceptionHandler` finds.
-/
structure Raised where
  which : ExceptionType
  badVAddr : Word
  machine : Machine

structure Simulation where
  machine : Machine
  raised : List Raised

/--
A function of the simulation. It exits early where the source returns after an exception.
-/
abbrev Sim := Exit Machine.Abort Simulation

namespace Sim

open Exit

def setRegister (r : Register) (value : Word) : Sim Unit :=
  modify fun s => { s with machine := s.machine.setRegister r value }

def delayedLoad (nextReg nextValue : Word) : Sim Unit :=
  modify fun s => { s with machine := s.machine.delayedLoad nextReg nextValue }

section

-- what `ExceptionHandler` does to the machine
variable (handler : ExceptionType → Machine → Machine)

def raiseException (which : ExceptionType) (badVAddr : Word) : Sim Unit := do
  setRegister .badVAddr badVAddr
  delayedLoad 0 0
  modify fun s =>
    { machine := handler which s.machine, raised := s.raised ++ [⟨which, badVAddr, s.machine⟩] }

def translate (addr : Word) (size : Nat) (writing : Bool) : Sim Nat := do
  let m ← read Simulation.machine
  match m.translate addr size writing with
  | .error assertion => abort assertion
  | .ok (.error exception, m) =>
    modify fun s => { s with machine := m }
    raiseException handler exception addr
    exit
  | .ok (.ok physicalAddress, m) =>
    modify fun s => { s with machine := m }
    return physicalAddress

def readMem (addr : Word) (size : Nat) : Sim Word := do
  let physicalAddress ← translate handler addr size false
  let m ← read Simulation.machine
  match m.load physicalAddress size with
  | some value => return value
  | none => abort .size

def writeMem (addr : Word) (size : Nat) (value : Word) : Sim Unit := do
  let physicalAddress ← translate handler addr size true
  let m ← read Simulation.machine
  match m.store physicalAddress size value with
  | some m => modify fun s => { s with machine := m }
  | none => abort .size

end

end Sim

end Nachos
