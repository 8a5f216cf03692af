import H8S.Alu.Bit
import H8S.Alu.Decimal
import H8S.Alu.Product
import H8S.Alu.Shift
import H8S.Cpu.Exception
import H8S.Cpu.Transfer

/-!
# Execution of an instruction

Operations on registers alone are functions of the register file; the others are actions of the core.  The program counter
moves past the instruction before it is executed, so calls push the return address and branches write over it.
-/

namespace H8S

namespace Registers

/-- Takes a result into a register and its flags into the condition codes. -/
def commit (r : Registers) (width : Width) (dst : UInt8) (result : Alu.Result) : Registers :=
  { r with ccr := result.flags }.write width dst result.value

def unary (r : Registers) (op : UnaryOp) (width : Width) (dst : UInt8) : Registers :=
  r.commit width dst (Alu.unary op width (r.read width dst) r.ccr)

def increment (r : Registers) (width : Width) (amount dst : UInt8) : Registers :=
  r.commit width dst (Alu.increment width (r.read width dst) amount.toUInt32 r.ccr)

def decrement (r : Registers) (width : Width) (amount dst : UInt8) : Registers :=
  r.commit width dst (Alu.decrement width (r.read width dst) amount.toUInt32 r.ccr)

def adjustAddition (r : Registers) (dst : UInt8) : Registers :=
  r.commit .byte dst (Alu.adjustAddition (r.readByte dst) r.ccr)

def adjustSubtraction (r : Registers) (dst : UInt8) : Registers :=
  r.commit .byte dst (Alu.adjustSubtraction (r.readByte dst) r.ccr)

def shift (r : Registers) (op : ShiftOp) (width : Width) (count dst : UInt8) : Registers :=
  r.commit width dst (Alu.shift op width count (r.read width dst) r.ccr)

/-- A comparison takes only the flags. -/
def alu (r : Registers) (op : AluOp) (width : Width) (source : UInt32) (dst : UInt8) : Registers :=
  let result := Alu.binary op width (r.read width dst) source r.ccr
  if op = .cmp then { r with ccr := result.flags } else r.commit width dst result

/-- The number of the bit that an operation is about. -/
def bitNumber (r : Registers) : BitNumber → UInt8
  | .imm n => n
  | .reg id => r.readByte id

def controlLogic (r : Registers) (op : LogicOp) (imm : UInt8) (dst : ControlReg) : Registers :=
  let value := r.control dst
  r.setControl dst <|
    match op with
    | .and => value &&& imm
    | .or => value ||| imm
    | .xor => value ^^^ imm

end Registers

namespace CpuM

variable {β : Type} [Bus β]

/-- A bit operation on a byte that was read, with the action that writes it back. -/
def operateBit (op : BitOp) (mask byte : UInt8) (writeBack : UInt8 → CpuM β Unit) : CpuM β Unit := do
  match op with
  | .bset | .bclr | .bnot | .bst | .bist => writeBack (op.updated byte mask (← getRegs).ccr.c)
  | _ => modifyRegs fun r => { r with ccr := op.observed (byte &&& mask != 0) r.ccr }

omit [Bus β] in
/-- The operations that write the byte back are those that modify it. -/
theorem operateBit_eq (op : BitOp) (mask byte : UInt8) (writeBack : UInt8 → CpuM β Unit) :
    operateBit op mask byte writeBack =
      if op.modifies then getRegs >>= fun r => writeBack (op.updated byte mask r.ccr.c)
      else modifyRegs fun r => { r with ccr := op.observed (byte &&& mask != 0) r.ccr } := by
  cases op <;> rfl

/-- The number of the bit is read before the target, and a byte in memory is written back where it was read. -/
def bitOperation (op : BitOp) (number : BitNumber) (target : BitTarget) : CpuM β Unit := do
  let mask := bitMask ((← getRegs).bitNumber number)
  match target with
  | .reg id =>
    let byte := (← getRegs).readByte id
    operateBit op mask byte fun value => modifyRegs (·.writeByte id value)
  | .mem m =>
    let addr ← resolve m .byte
    let byte ← read8 addr
    operateBit op mask byte (write8 addr)

def jumpAddress (target : JumpTarget) : CpuM β UInt32 := do
  match target with
  | .indirect p => return Address.trunc ((← getRegs).readLong p)
  | .absolute addr => return addr
  | .stored addr => read32 (addr &&& 0xFE).toUInt32

/-- Carries out an operation, with the program counter already past it. -/
def perform (op : Operation) : CpuM β Unit := do
  match op with
  | .nop => pure ()
  | .sleep => modifyCpu fun c => { c with sleeping := true }
  | .mov width src dst => move width src dst
  | .alu op width src dst =>
    let source ← readOperand width src
    modifyRegs (·.alu op width source dst)
  | .adds amount dst => modifyRegs fun r => r.writeLong dst (r.readLong dst + amount.toUInt32)
  | .subs amount dst => modifyRegs fun r => r.writeLong dst (r.readLong dst - amount.toUInt32)
  | .inc width amount dst => modifyRegs (·.increment width amount dst)
  | .dec width amount dst => modifyRegs (·.decrement width amount dst)
  | .unary op width dst => modifyRegs (·.unary op width dst)
  | .daa dst => modifyRegs (·.adjustAddition dst)
  | .das dst => modifyRegs (·.adjustSubtraction dst)
  | .mulDiv op width src dst => modifyRegs (·.mulDiv op width src dst)
  | .shift op width count dst => modifyRegs (·.shift op width count dst)
  | .bit op number target => bitOperation op number target
  | .bcc cond target _ =>
    if cond.holds (← getRegs).ccr then jump target
  | .bsr target _ => call target
  | .jmp target => jump (← jumpAddress target)
  | .jsr target => call (← jumpAddress target)
  | .rts => returnFromCall
  | .rte => returnFromException
  | .trapa n => trap n
  | .ldc src dst => loadControl src dst
  | .stc src dst => storeControl src dst
  | .controlLogic op imm dst => modifyRegs (·.controlLogic op imm dst)
  | .ldm last count => popRegisters last count.toNat
  | .stm first count => pushRegisters first count.toNat
  | .tas pointer => testAndSet pointer
  | .eepmov width => blockMove width

/-- Executes an instruction; its internal cycles are spent only if it succeeds. -/
def execute (i : Instruction) : CpuM β Unit := do
  modifyRegs fun r => { r with pc := i.nextPc }
  perform i.op
  spend i.op.internalCycles.toUInt64

end CpuM

end H8S
