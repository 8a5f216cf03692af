import H8S.Peripheral

/-!
# Instruments

Two devices serve to observe and to disturb a machine.  A probe keeps a log of its accesses.  An alarm goes off at a cycle
count and then asks for whatever it was set up to ask for; it may hold a handle of the machine and halt it.  An
`Instrumented` device is one of them or a device on the chip.
-/

namespace H8S

/-- A probe that is `wide` takes words in one piece. -/
structure Probe where
  wide : Bool := false
  log : List String := []

namespace Probe

def logged (p : Probe) (entry : String) : Probe := { p with log := p.log ++ [entry] }

/-- A byte reads as the low byte of its address. -/
def read8 (p : Probe) (addr : UInt32) : UInt8 × Probe := (addr.toUInt8, p.logged ("r8 " ++ Hex.address addr))

def write8 (p : Probe) (addr : UInt32) (value : UInt8) : Probe :=
  p.logged ("w8 " ++ Hex.address addr ++ "=" ++ Hex.byte value)

def read16 (p : Probe) (addr : UInt32) : UInt16 × Probe :=
  if p.wide then (0xBEEF ^^^ addr.toUInt16, p.logged ("r16 " ++ Hex.address addr))
  else
    let (hi, p) := p.read8 addr
    let (lo, p) := p.read8 (addressAfter addr)
    (wordOf hi lo, p)

def write16 (p : Probe) (addr : UInt32) (value : UInt16) : Probe :=
  if p.wide then p.logged ("w16 " ++ Hex.address addr ++ "=" ++ Hex.padded 4 value.toNat)
  else (p.write8 addr (highByte value)).write8 (addressAfter addr) value.toUInt8

end Probe

structure Alarm where
  /-- The cycle count at which the alarm goes off. -/
  time : UInt64
  interrupts : List UInt8 := []
  /-- An address to copy a byte from, and one to copy it to. -/
  copy : Option (UInt32 × UInt32) := none
  /-- Whether the machine is halted in the end. -/
  halt : Bool := false
  fired : Bool := false

namespace Alarm

def requests (a : Alarm) : List TickRequest :=
  (match a.copy with
    | some (src, dst) => [.copy src dst]
    | none => [])
    ++ a.interrupts.map .interrupt

/-- Whether the alarm goes off at a cycle count. -/
def due (a : Alarm) (now : UInt64) : Bool := !a.fired && a.time ≤ now

end Alarm

inductive Instrumented where
  | chip (part : Peripheral)
  | probe (probe : Probe)
  | alarm (alarm : Alarm)

namespace Instrumented

/-- An alarm reads as whether it went off. -/
def read8 (d : Instrumented) (addr : UInt32) : UInt8 × Instrumented :=
  match d with
  | chip part => (part.read8 addr, d)
  | probe p => (p.read8 addr).map id probe
  | alarm a => (a.fired.toUInt8, d)

def write8 (d : Instrumented) (addr : UInt32) (value : UInt8) : Instrumented :=
  match d with
  | chip part => chip (part.write8 addr value)
  | probe p => probe (p.write8 addr value)
  | alarm a => alarm { a with fired := value != 0 }

def read16 (d : Instrumented) (addr : UInt32) : UInt16 × Instrumented :=
  match d with
  | probe p => (p.read16 addr).map id probe
  | other =>
    let (hi, d) := other.read8 addr
    let (lo, d) := d.read8 (addressAfter addr)
    (wordOf hi lo, d)

def write16 (d : Instrumented) (addr : UInt32) (value : UInt16) : Instrumented :=
  match d with
  | probe p => probe (p.write16 addr value)
  | other => (other.write8 addr (highByte value)).write8 (addressAfter addr) value.toUInt8

def tick (d : Instrumented) (now : UInt64) : TickProgram Instrumented :=
  match d with
  | chip part => .ofRequests ((part.tick now).map chip id)
  | probe _ => .ends d (.ok ())
  | alarm a =>
    if a.due now then
      let fired := alarm { a with fired := true }
      .requesting fired a.requests <|
        if a.halt then .setHalted true (.ends fired (.ok ())) else .ends fired (.ok ())
    else .ends d (.ok ())

/-- No instrument uses a handle of the machine in an access. -/
instance : Device Instrumented where
  read8 d addr := (d.device.read8 addr).map id ({ d with device := · })
  write8 d addr value := { d with device := d.device.write8 addr value }
  read16 d addr := (d.device.read16 addr).map id ({ d with device := · })
  write16 d addr value := { d with device := d.device.write16 addr value }
  tick := tick

end Instrumented

end H8S
