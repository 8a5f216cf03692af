import H8S.Cpu.Basic

/-!
# Memory accesses of the core

Each byte of an access is charged before any of it moves.  One address never reaches the bus: there the core shows the
pending interrupts 12 to 17 itself, and a zero written to a bit takes that interrupt back.  Words go to the bus in one piece
unless they cover that address, and longs are two words.  A fault is reported with the width of the whole access, except that
a word read byte by byte reports the byte.
-/

namespace H8S

namespace CpuM

variable {β : Type} [Bus β]

def charge (direction : Direction) (addr : UInt32) : CpuM β Unit := modifyCpu (·.charged direction addr)

/-- Whether a range holds the status register. -/
def coversStatus (config : Config) (addr len : UInt32) : Bool :=
  match config.isrAddress with
  | some isr => addr ≤ isr && isr - addr < len
  | none => false

/-! ### Accesses that are not charged -/

def load8 (addr : UInt32) : CpuM β UInt8 := do
  if (← read).isrAddress = some addr then return (← get).cpu.pending.status
  else onBus (Bus.read8 addr)

def store8 (addr : UInt32) (value : UInt8) : CpuM β Unit := do
  if (← read).isrAddress = some addr then
    modifyCpu fun c => { c with pending := c.pending.acknowledge value }
  else onBus (Bus.write8 addr value)

def load16 (addr : UInt32) : CpuM β UInt16 := do
  if coversStatus (← read) addr 2 then
    let hi ← load8 addr
    let lo ← load8 (addr + 1)
    return wordOf hi lo
  else widening 16 (onBus (Bus.read16 addr))

def store16 (addr : UInt32) (value : UInt16) : CpuM β Unit := widening 16 do
  if coversStatus (← read) addr 2 then
    store8 addr (highByte value)
    store8 (addr + 1) value.toUInt8
  else onBus (Bus.write16 addr value)

/-! ### Accesses with their cost -/

def read8 (addr : UInt32) : CpuM β UInt8 := do
  charge .read addr
  load8 addr

def write8 (addr : UInt32) (value : UInt8) : CpuM β Unit := do
  charge .write addr
  store8 addr value

def read16 (addr : UInt32) : CpuM β UInt16 := do
  charge .read addr
  charge .read (addr + 1)
  load16 addr

def write16 (addr : UInt32) (value : UInt16) : CpuM β Unit := do
  charge .write addr
  charge .write (addr + 1)
  store16 addr value

def read32 (addr : UInt32) : CpuM β UInt32 := widening 32 do
  let hi ← read16 addr
  let lo ← read16 (addr + 2)
  return hi.toUInt32 <<< 16 ||| lo.toUInt32

def write32 (addr value : UInt32) : CpuM β Unit := widening 32 do
  write16 addr (value >>> 16).toUInt16
  write16 (addr + 2) value.toUInt16

def readSized (width : Width) (addr : UInt32) : CpuM β UInt32 := do
  match width with
  | .byte => return (← read8 addr).toUInt32
  | .word => return (← read16 addr).toUInt32
  | .long => read32 addr

def writeSized (width : Width) (addr value : UInt32) : CpuM β Unit :=
  match width with
  | .byte => write8 addr value.toUInt8
  | .word => write16 addr value.toUInt16
  | .long => write32 addr value

end CpuM

end H8S
