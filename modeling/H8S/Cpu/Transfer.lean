import H8S.Alu.Arithmetic
import H8S.Cpu.Operand

/-!
# Transfers

Moves in all addressing modes, several registers at once, blocks, the control registers, and test-and-set.
-/

namespace H8S.CpuM

variable {β : Type} [Bus β]

/-- The address that a move stores to, if it stores. -/
def destinationAddress (width : Width) : Operand → CpuM β (Option UInt32)
  | .mem m => some <$> resolve m width
  | _ => pure none

/-- The value that a move takes, with a source pointer still where it was. -/
def sourceValue (width : Width) : Operand → CpuM β UInt32
  | .mem m => do readSized width (← resolve m width)
  | .reg id => do return (← getRegs).read width id
  | .imm value => pure (value &&& width.mask)

/-- Stores or keeps the value of a move, after its flags are set. -/
def deliver (width : Width) (dst : Operand) (addr : Option UInt32) (value : UInt32) : CpuM β Unit :=
  match addr, dst with
  | some addr, _ => writeSized width addr value
  | none, .reg id => modifyRegs (·.write width id value)
  | none, _ => pure ()

/-- Moves a source pointer up. -/
def advanceSource (width : Width) : Operand → CpuM β Unit
  | .mem m => modifyRegs (m.afterAccess width)
  | _ => pure ()

/-- A destination pointer moves down before the source is read, and a source pointer moves up after the value has arrived.
So a pointer pushed through itself is stored as it is after the push, and one popped through itself is counted up after it
was loaded. -/
def move (width : Width) (src dst : Operand) : CpuM β Unit := do
  let addr ← destinationAddress width dst
  let value ← sourceValue width src
  modifyRegs fun r => { r with ccr := Alu.moveFlags width value r.ccr }
  deliver width dst addr value
  advanceSource width src

/-- Pushes registers upwards from one. -/
def pushRegisters (first : UInt8) : Nat → CpuM β Unit
  | 0 => pure ()
  | n + 1 => do
    push32 ((← getRegs).readLong first)
    pushRegisters (first + 1) n

/-- Pops registers downwards from one. -/
def popRegisters (last : UInt8) : Nat → CpuM β Unit
  | 0 => pure ()
  | n + 1 => do
    let value ← pop32
    modifyRegs (·.writeLong last value)
    popRegisters (last - 1) n

/-- The registers of a block move: the source and destination pointers, and the counter, of which the byte form counts in
the low byte. -/
def blockSource : UInt8 := 5

def blockDestination : UInt8 := 6

def blockCounter : Width → UInt8
  | .byte => 12
  | _ => 4

/-- Copies bytes upwards.  The registers keep up with every byte, so that a move that failed can go on. -/
def copyBlock (width : Width) : Nat → CpuM β Unit
  | 0 => pure ()
  | n + 1 => do
    let regs ← getRegs
    let src := regs.readLong blockSource
    let dst := regs.readLong blockDestination
    let byte ← read8 (Address.trunc src)
    write8 (Address.trunc dst) byte
    modifyRegs fun r =>
      ((r.writeLong blockSource (src + 1)).writeLong blockDestination (dst + 1)).write width (blockCounter width)
        n.toUInt32
    copyBlock width n

def blockMove (width : Width) : CpuM β Unit := do
  copyBlock width ((← getRegs).read width (blockCounter width)).toNat

/-- Reads a byte, sets the flags by it, and sets its top bit. -/
def testAndSet (pointer : UInt8) : CpuM β Unit := do
  let addr := Address.trunc ((← getRegs).readLong pointer)
  let value ← read8 addr
  modifyRegs fun r => { r with ccr := Alu.moveFlags .byte value.toUInt32 r.ccr }
  write8 addr (value ||| 0x80)

/-! ### Control registers -/

/-- The byte that a control register is loaded with: of a word in memory, the low one. -/
def controlValue : Operand → CpuM β UInt8
  | .reg id => do return (← getRegs).readByte id
  | .imm value => pure value.toUInt8
  | .mem m => do return (← loadOperand m .word).toUInt8

def loadControl (src : Operand) (dst : ControlReg) : CpuM β Unit := do
  let value ← controlValue src
  modifyRegs (·.setControl dst value)

/-- A control register is stored as a word in memory, with a zero before it. -/
def storeControl (src : ControlReg) (dst : Operand) : CpuM β Unit := do
  let value := (← getRegs).control src
  match dst with
  | .reg id => modifyRegs (·.writeByte id value)
  | .mem m => do write16 (← resolve m .word) value.toUInt16
  | .imm _ => pure ()

end H8S.CpuM
