import H8S.Cpu.Access
import H8S.Instruction

/-!
# Operands and the stack

A memory operand is resolved to an address in the address space.  A pointer that moves down does so as the operand is
resolved; one that moves up does so after the access, so that a load into the pointer itself is counted up, too.  The stack
grows down by longs.
-/

namespace H8S

namespace MemOperand

/-- The address of an operand of a width, and the registers with the pointer moved down. -/
def resolve (m : MemOperand) (width : Width) (r : Registers) : UInt32 × Registers :=
  match m with
  | indirect p | postInc p => (Address.trunc (r.readLong p), r)
  | preDec p =>
    let addr := r.readLong p - width.bytes
    (Address.trunc addr, r.writeLong p addr)
  | displaced disp base => (Address.trunc (r.readLong base + disp), r)
  | absolute addr => (Address.trunc addr, r)

/-- The registers with the pointer moved up. -/
def afterAccess (m : MemOperand) (width : Width) (r : Registers) : Registers :=
  match m with
  | postInc p => r.writeLong p (r.readLong p + width.bytes)
  | _ => r

end MemOperand

namespace CpuM

variable {β : Type} [Bus β]

def resolve (m : MemOperand) (width : Width) : CpuM β UInt32 := do
  let (addr, regs) := m.resolve width (← getRegs)
  setRegs regs
  return addr

/-- The value of an operand in memory. -/
def loadOperand (m : MemOperand) (width : Width) : CpuM β UInt32 := do
  let addr ← resolve m width
  let value ← readSized width addr
  modifyRegs (m.afterAccess width)
  return value

/-- The value of a source operand. -/
def readOperand (width : Width) (operand : Operand) : CpuM β UInt32 := do
  match operand with
  | .reg id => return (← getRegs).read width id
  | .imm value => return value &&& width.mask
  | .mem m => loadOperand m width

def push32 (value : UInt32) : CpuM β Unit := do
  let sp := (← getRegs).sp - 4
  modifyRegs (·.setSp sp)
  write32 (Address.trunc sp) value

def pop32 : CpuM β UInt32 := do
  let sp := (← getRegs).sp
  let value ← read32 (Address.trunc sp)
  modifyRegs (·.setSp (sp + 4))
  return value

end CpuM

end H8S
