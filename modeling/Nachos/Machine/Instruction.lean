import Nachos.Machine.Basic

/-!
This module contains the simulation of MIPS instructions of `mipssim.cc`.
-/

namespace Nachos

open Function (update)

inductive OpCode where
  | add | addi | addiu | addu | and | andi | beq | bgez | bgezal | bgtz | blez | bltz | bltzal | bne
  | div | divu | j | jal | jalr | jr | lb | lbu | lh | lhu | lui | lw | lwl | lwr | mfhi | mflo | mthi
  | mtlo | mult | multu | nor | or | ori | rfe | sb | sh | sll | sllv | slt | slti | sltiu | sltu | sra
  | srav | srl | srlv | sub | subu | sw | swl | swr | xor | xori | syscall | unimp | res
  | special | bcond
  deriving DecidableEq, Repr

inductive Format where
  | ifmt
  | jfmt
  | rfmt
  deriving DecidableEq, Repr

def opTable : Vector (OpCode × Format) 64 := #v[
  (.special, .rfmt), (.bcond, .ifmt), (.j, .jfmt), (.jal, .jfmt),
  (.beq, .ifmt), (.bne, .ifmt), (.blez, .ifmt), (.bgtz, .ifmt),
  (.addi, .ifmt), (.addiu, .ifmt), (.slti, .ifmt), (.sltiu, .ifmt),
  (.andi, .ifmt), (.ori, .ifmt), (.xori, .ifmt), (.lui, .ifmt),
  (.unimp, .ifmt), (.unimp, .ifmt), (.unimp, .ifmt), (.unimp, .ifmt),
  (.res, .ifmt), (.res, .ifmt), (.res, .ifmt), (.res, .ifmt),
  (.res, .ifmt), (.res, .ifmt), (.res, .ifmt), (.res, .ifmt),
  (.res, .ifmt), (.res, .ifmt), (.res, .ifmt), (.res, .ifmt),
  (.lb, .ifmt), (.lh, .ifmt), (.lwl, .ifmt), (.lw, .ifmt),
  (.lbu, .ifmt), (.lhu, .ifmt), (.lwr, .ifmt), (.res, .ifmt),
  (.sb, .ifmt), (.sh, .ifmt), (.swl, .ifmt), (.sw, .ifmt),
  (.res, .ifmt), (.res, .ifmt), (.swr, .ifmt), (.res, .ifmt),
  (.unimp, .ifmt), (.unimp, .ifmt), (.unimp, .ifmt), (.unimp, .ifmt),
  (.res, .ifmt), (.res, .ifmt), (.res, .ifmt), (.res, .ifmt),
  (.unimp, .ifmt), (.unimp, .ifmt), (.unimp, .ifmt), (.unimp, .ifmt),
  (.res, .ifmt), (.res, .ifmt), (.res, .ifmt), (.res, .ifmt)]

def specialTable : Vector OpCode 64 := #v[
  .sll, .res, .srl, .sra, .sllv, .res, .srlv, .srav,
  .jr, .jalr, .res, .res, .syscall, .unimp, .res, .res,
  .mfhi, .mthi, .mflo, .mtlo, .res, .res, .res, .res,
  .mult, .multu, .div, .divu, .res, .res, .res, .res,
  .add, .addu, .sub, .subu, .and, .or, .xor, .nor,
  .res, .res, .slt, .sltu, .res, .res, .res, .res,
  .res, .res, .res, .res, .res, .res, .res, .res,
  .res, .res, .res, .res, .res, .res, .res, .res]

structure Instruction where
  opCode : OpCode
  rs : Fin 32
  rt : Fin 32
  rd : Fin 32
  extra : Word
  deriving DecidableEq, Repr

namespace Instruction

def field (value : Word) (start : Nat) : Fin 32 :=
  (value.extractLsb' start 5).toFin

def decode (value : Word) : Instruction :=
  let (opCode, format) := opTable.get (value.extractLsb' 26 6).toFin
  let extra :=
    match format with
    | .ifmt => (value.extractLsb' 0 16).signExtend 32
    | .rfmt => (value.extractLsb' 6 5).setWidth 32
    | .jfmt => (value.extractLsb' 0 26).setWidth 32
  let opCode :=
    match opCode with
    | .special => specialTable.get (value.extractLsb' 0 6).toFin
    | .bcond =>
      let i := value &&& 0x1f0000
      if i = 0 then
        .bltz
      else if i = 0x10000 then
        .bgez
      else if i = 0x100000 then
        .bltzal
      else if i = 0x110000 then
        .bgezal
      else
        .unimp
    | opCode => opCode
  { opCode, rs := field value 21, rt := field value 16, rd := field value 11, extra }

end Instruction

def signBit : Word := 0x80000000

def indexToAddr (x : Word) : Word := x <<< 2

structure MultState where
  a : Word
  bLo : Word
  bHi : Word
  lo : Word
  hi : Word

def multLoop : Nat → MultState → MultState
  | 0, s => s
  | n + 1, s =>
    if s.a &&& 1 ≠ 0 then
      let lo := s.lo + s.bLo
      let hi := if lo < s.bLo then s.hi + 1 else s.hi
      let s := { s with lo, hi := hi + s.bHi }
      if s.a &&& 0xfffffffe = 0 then
        s
      else
        multLoop n (shift s)
    else
      multLoop n (shift s)
where
  shift (s : MultState) : MultState :=
    let bHi := s.bHi <<< 1
    { s with
      bHi := if s.bLo &&& 0x80000000 ≠ 0 then bHi ||| 1 else bHi
      bLo := s.bLo <<< 1
      a := s.a.sshiftRight 1 }

def mult (a b : Word) (signedArith : Bool) : Word × Word :=
  if a = 0 ∨ b = 0 then
    (0, 0)
  else
    let negA := signedArith && a.slt 0
    let negB := signedArith && b.slt 0
    let negative := negA ^^ negB
    let a := if negA then -a else a
    let b := if negB then -b else b
    let s := multLoop 32 { a, bLo := b, bHi := 0, lo := 0, hi := 0 }
    if negative then
      let hi := ~~~s.hi
      let lo := ~~~s.lo + 1
      (if lo = 0 then hi + 1 else hi, lo)
    else
      (s.hi, s.lo)

structure Next where
  pcAfter : Word
  nextLoadReg : Word := 0
  nextLoadValue : Word := 0

namespace Sim

open Exit

variable (handler : ExceptionType → Machine → Machine)

def trap (which : ExceptionType) (badVAddr : Word) : Sim α := do
  raiseException handler which badVAddr
  exit

/--
The `switch` of `OneInstruction`. `next` are its variables if the case leaves them as they are.
-/
def execute (instr : Instruction) (pcAfter : Word) : Sim Next := do
  let registers ← read fun s => s.machine.registers
  let rs := registers (.gp instr.rs)
  let rt := registers (.gp instr.rt)
  let nextPC := registers .nextPC
  let extra := instr.extra
  let next : Next := { pcAfter }
  let branch : Next := { pcAfter := nextPC + indexToAddr extra }
  let tmp := rs + extra
  let nextLoad (value : Word) : Next :=
    { pcAfter, nextLoadReg := BitVec.ofNat 32 instr.rt, nextLoadValue := value }
  match instr.opCode with
  | .add =>
    let sum := rs + rt
    if (rs ^^^ rt) &&& signBit = 0 ∧ (rs ^^^ sum) &&& signBit ≠ 0 then
      trap handler .overflowException 0
    else
      setRegister (.gp instr.rd) sum
      return next
  | .addi =>
    let sum := rs + extra
    if (rs ^^^ extra) &&& signBit = 0 ∧ (extra ^^^ sum) &&& signBit ≠ 0 then
      trap handler .overflowException 0
    else
      setRegister (.gp instr.rt) sum
      return next
  | .addiu =>
    setRegister (.gp instr.rt) (rs + extra)
    return next
  | .addu =>
    setRegister (.gp instr.rd) (rs + rt)
    return next
  | .and =>
    setRegister (.gp instr.rd) (rs &&& rt)
    return next
  | .andi =>
    setRegister (.gp instr.rt) (rs &&& (extra &&& 0xffff))
    return next
  | .beq => return if rs = rt then branch else next
  | .bgezal =>
    setRegister (.gp 31) (nextPC + 4)
    let registers ← read fun s => s.machine.registers
    return if registers (.gp instr.rs) &&& signBit = 0 then branch else next
  | .bgez => return if rs &&& signBit = 0 then branch else next
  -- the registers are unsigned
  | .bgtz => return if rs > 0 then branch else next
  | .blez => return if rs ≤ 0 then branch else next
  | .bltzal =>
    setRegister (.gp 31) (nextPC + 4)
    let registers ← read fun s => s.machine.registers
    return if registers (.gp instr.rs) &&& signBit ≠ 0 then branch else next
  | .bltz => return if rs &&& signBit ≠ 0 then branch else next
  | .bne => return if rs ≠ rt then branch else next
  -- `DIV` divides unsigned numbers as well
  | .div | .divu =>
    if rt = 0 then
      setRegister .lo 0
      setRegister .hi 0
      return next
    else
      setRegister .lo (rs / rt)
      setRegister .hi (rs % rt)
      return next
  | .jal =>
    setRegister (.gp 31) (nextPC + 4)
    return { pcAfter := (pcAfter &&& 0xf0000000) ||| indexToAddr extra }
  | .j => return { pcAfter := (pcAfter &&& 0xf0000000) ||| indexToAddr extra }
  | .jalr =>
    setRegister (.gp instr.rd) (nextPC + 4)
    let registers ← read fun s => s.machine.registers
    return { pcAfter := registers (.gp instr.rs) }
  | .jr => return { pcAfter := rs }
  | .lb =>
    let value ← readMem handler tmp 1
    return nextLoad (if value &&& 0x80 ≠ 0 then value ||| 0xffffff00 else value &&& 0xff)
  | .lbu =>
    let value ← readMem handler tmp 1
    return nextLoad (value &&& 0xff)
  | .lh =>
    if tmp &&& 1 ≠ 0 then
      trap handler .addressErrorException tmp
    else
      let value ← readMem handler tmp 2
      return nextLoad (if value &&& 0x8000 ≠ 0 then value ||| 0xffff0000 else value &&& 0xffff)
  | .lhu =>
    if tmp &&& 1 ≠ 0 then
      trap handler .addressErrorException tmp
    else
      let value ← readMem handler tmp 2
      return nextLoad (value &&& 0xffff)
  | .lui =>
    setRegister (.gp instr.rt) (extra <<< 16)
    return next
  | .lw =>
    if tmp &&& 3 ≠ 0 then
      trap handler .addressErrorException tmp
    else
      let value ← readMem handler tmp 4
      return nextLoad value
  | .lwl =>
    if tmp &&& 3 ≠ 0 then
      abort .alignment
    else
      let value ← readMem handler tmp 4
      let registers ← read fun s => s.machine.registers
      let old :=
        if registers .load = BitVec.ofNat 32 instr.rt then
          registers .loadValue
        else
          registers (.gp instr.rt)
      return nextLoad <|
        if tmp &&& 3 = 0 then
          value
        else if tmp &&& 3 = 1 then
          (old &&& 0xff) ||| (value <<< 8)
        else if tmp &&& 3 = 2 then
          (old &&& 0xffff) ||| (value <<< 16)
        else
          (old &&& 0xffffff) ||| (value <<< 24)
  | .lwr =>
    if tmp &&& 3 ≠ 0 then
      abort .alignment
    else
      let value ← readMem handler tmp 4
      let registers ← read fun s => s.machine.registers
      let old :=
        if registers .load = BitVec.ofNat 32 instr.rt then
          registers .loadValue
        else
          registers (.gp instr.rt)
      return nextLoad <|
        if tmp &&& 3 = 0 then
          (old &&& 0xffffff00) ||| (value.sshiftRight 24 &&& 0xff)
        else if tmp &&& 3 = 1 then
          (old &&& 0xffff0000) ||| (value.sshiftRight 16 &&& 0xffff)
        else if tmp &&& 3 = 2 then
          (old &&& 0xff000000) ||| (value.sshiftRight 8 &&& 0xffffff)
        else
          value
  | .mfhi =>
    setRegister (.gp instr.rd) (registers .hi)
    return next
  | .mflo =>
    setRegister (.gp instr.rd) (registers .lo)
    return next
  | .mthi =>
    setRegister .hi rs
    return next
  | .mtlo =>
    setRegister .lo rs
    return next
  | .mult =>
    let (hi, lo) := mult rs rt true
    setRegister .hi hi
    setRegister .lo lo
    return next
  | .multu =>
    let (hi, lo) := mult rs rt false
    setRegister .hi hi
    setRegister .lo lo
    return next
  | .nor =>
    setRegister (.gp instr.rd) (~~~(rs ||| rt))
    return next
  -- both operands are `rs`
  | .or =>
    setRegister (.gp instr.rd) (rs ||| rs)
    return next
  | .ori =>
    setRegister (.gp instr.rt) (rs ||| (extra &&& 0xffff))
    return next
  | .sb =>
    writeMem handler tmp 1 rt
    return next
  | .sh =>
    writeMem handler tmp 2 rt
    return next
  | .sll =>
    setRegister (.gp instr.rd) (rt <<< extra.toNat)
    return next
  | .sllv =>
    setRegister (.gp instr.rd) (rt <<< (rs &&& 0x1f).toNat)
    return next
  | .slt =>
    setRegister (.gp instr.rd) (if rs < rt then 1 else 0)
    return next
  | .slti =>
    setRegister (.gp instr.rt) (if rs < extra then 1 else 0)
    return next
  | .sltiu =>
    setRegister (.gp instr.rt) (if rs < extra then 1 else 0)
    return next
  | .sltu =>
    setRegister (.gp instr.rd) (if rs < rt then 1 else 0)
    return next
  -- a shift of an unsigned number
  | .sra =>
    setRegister (.gp instr.rd) (rt >>> extra.toNat)
    return next
  | .srav =>
    setRegister (.gp instr.rd) (rt >>> (rs &&& 0x1f).toNat)
    return next
  -- `tmp` is an `int`
  | .srl =>
    setRegister (.gp instr.rd) (rt.sshiftRight extra.toNat)
    return next
  | .srlv =>
    setRegister (.gp instr.rd) (rt.sshiftRight (rs &&& 0x1f).toNat)
    return next
  | .sub =>
    let diff := rs - rt
    if (rs ^^^ rt) &&& signBit ≠ 0 ∧ (rs ^^^ diff) &&& signBit ≠ 0 then
      trap handler .overflowException 0
    else
      setRegister (.gp instr.rd) diff
      return next
  | .subu =>
    setRegister (.gp instr.rd) (rs - rt)
    return next
  | .sw =>
    writeMem handler tmp 4 rt
    return next
  | .swl =>
    if tmp &&& 3 ≠ 0 then
      abort .alignment
    else
      let value ← readMem handler (tmp &&& ~~~3) 4
      writeMem handler (tmp &&& ~~~3) 4 <|
        if tmp &&& 3 = 0 then
          rt
        else if tmp &&& 3 = 1 then
          (value &&& 0xff000000) ||| (rt >>> 8 &&& 0xffffff)
        else if tmp &&& 3 = 2 then
          (value &&& 0xffff0000) ||| (rt >>> 16 &&& 0xffff)
        else
          (value &&& 0xffffff00) ||| (rt >>> 24 &&& 0xff)
      return next
  | .swr =>
    if tmp &&& 3 ≠ 0 then
      abort .alignment
    else
      let value ← readMem handler (tmp &&& ~~~3) 4
      writeMem handler (tmp &&& ~~~3) 4 <|
        if tmp &&& 3 = 0 then
          (value &&& 0xffffff) ||| (rt <<< 24)
        else if tmp &&& 3 = 1 then
          (value &&& 0xffff) ||| (rt <<< 16)
        else if tmp &&& 3 = 2 then
          (value &&& 0xff) ||| (rt <<< 8)
        else
          rt
      return next
  | .syscall => trap handler .syscallException 0
  | .xor =>
    setRegister (.gp instr.rd) (rs ^^^ rt)
    return next
  | .xori =>
    setRegister (.gp instr.rt) (rs ^^^ (extra &&& 0xffff))
    return next
  | .res | .unimp => trap handler .illegalInstrException 0
  | .rfe | .special | .bcond => abort .default

def advance (next : Next) : Sim Unit := do
  delayedLoad next.nextLoadReg next.nextLoadValue
  let registers ← read fun s => s.machine.registers
  setRegister .prevPC (registers .pc)
  setRegister .pc (registers .nextPC)
  setRegister .nextPC next.pcAfter

def oneInstruction : Sim Unit := do
  let registers ← read fun s => s.machine.registers
  let raw ← readMem handler (registers .pc) 4
  let registers ← read fun s => s.machine.registers
  let next ← execute handler (.decode raw) (registers .nextPC + 4)
  advance next

end Sim

end Nachos
