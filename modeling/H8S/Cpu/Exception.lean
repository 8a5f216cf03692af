import H8S.Cpu.Operand

/-!
# Calls, traps and interrupts

A call pushes the return address.  Traps and interrupts push it with the condition codes in the top byte, mask further
interrupts and jump through a vector.  Of the interrupts that wait, the one with the lowest number is entered.
-/

namespace H8S

namespace Cpu

/-- The interrupt mask that an exception sets; without the user enable bit it sets `U` as well. -/
def masked (userEnable : Bool) (f : ConditionCodes) : ConditionCodes :=
  { f with i := true, u := f.u || !userEnable }

/-- What an exception pushes. -/
def frame (r : Registers) : UInt32 := r.pc ||| (r.ccr.toByte.toUInt32 <<< 24)

/-- The interrupt to enter, if one waits and is not masked. -/
def dueInterrupt? (c : Cpu) : Option UInt8 := if c.regs.ccr.i then none else c.pending.lowest?

end Cpu

namespace CpuM

variable {β : Type} [Bus β]

def call (target : UInt32) : CpuM β Unit := do
  push32 (← getRegs).pc
  jump target
  modifyCpu Cpu.entered

/-- Jumps to the target stored at an address. -/
def jumpThrough (addr : UInt32) : CpuM β Unit := do
  jump (← read32 (Address.trunc addr))

/-- The user enable bit of the system control register. -/
def userEnable : CpuM β Bool := do
  return (← read8 (← read).syscrAddress) &&& 0x08 != 0

def maskInterrupts (userEnable : Bool) : CpuM β Unit :=
  modifyRegs fun r => { r with ccr := Cpu.masked userEnable r.ccr }

def pushFrame : CpuM β Unit := do
  push32 (Cpu.frame (← getRegs))

/-- The trap vectors lie at fixed addresses. -/
def trap (n : UInt8) : CpuM β Unit := do
  pushFrame
  maskInterrupts (← userEnable)
  jumpThrough (0x20 + 4 * n.toUInt32)
  modifyCpu Cpu.entered

def returnFromCall : CpuM β Unit := do
  jump (← pop32)
  modifyCpu Cpu.left

def returnFromException : CpuM β Unit := do
  let frame ← pop32
  modifyRegs fun r => { r with ccr := .ofByte (frame >>> 24).toUInt8 }
  jump frame
  modifyCpu Cpu.left

/-- Enters an interrupt: it no longer waits, and it wakes the core. -/
def enterInterrupt (n : UInt8) : CpuM β Unit := do
  let userEnable ← userEnable
  modifyCpu fun c => { c with pending := c.pending.erase n, sleeping := false }
  pushFrame
  spend 4
  maskInterrupts userEnable
  jumpThrough ((← read).vectorBase + 4 * n.toUInt32)
  modifyCpu Cpu.entered

/-- Whether the enable register lets an interrupt through; only for gated ones is it read. -/
def isEnabled (n : UInt8) : CpuM β Bool := do
  match (← read).ierAddress with
  | some addr => if InterruptSet.isGated n then return InterruptSet.enables (← read8 addr) n else return true
  | none => return true

/-- Requests an interrupt.  Numbers from 64 on are ignored, and gated ones unless the enable register has their bit. -/
def raise (n : UInt8) : CpuM β Unit := do
  if n < 64 then
    if (← isEnabled n) then modifyCpu fun c => { c with pending := c.pending.insert n }

end CpuM

end H8S
