import H8S.Memory

/-!
# Buses

A bus carries byte and word accesses, which may fail and may change what is behind it.  Words are big-endian, and unless a
bus says otherwise they are two byte accesses.  A memory is a bus; `Recorder` puts a log of the byte accesses on any bus.
-/

namespace H8S

/-- Actions on a bus: a fault does not undo what was done before it. -/
abbrev BusM (β : Type) := EStateM Fault β

/-- An action that does not fail but tells what came of it. -/
def BusM.attempt {β α : Type} (action : BusM β α) : BusM β (Except Fault α) := fun bus =>
  let result := action bus
  .ok (verdict result) (outcome result)

/-- The high byte of a word. -/
def highByte (v : UInt16) : UInt8 := (v >>> 8).toUInt8

/-- A word of two bytes. -/
def wordOf (hi lo : UInt8) : UInt16 := hi.toUInt16 <<< 8 ||| lo.toUInt16

/-- The address after another; there is none after the last. -/
def addressAfter (addr : UInt32) : UInt32 := if addr = 0xFFFFFFFF then addr else addr + 1

class Bus (β : Type) where
  read8 : UInt32 → BusM β UInt8
  write8 : UInt32 → UInt8 → BusM β Unit
  read16 : UInt32 → BusM β UInt16 := fun addr => do
    let hi ← read8 addr
    let lo ← read8 (addressAfter addr)
    return wordOf hi lo
  write16 : UInt32 → UInt16 → BusM β Unit := fun addr value => do
    write8 addr (highByte value)
    write8 (addressAfter addr) value.toUInt8

namespace Memory

def busRead (addr : UInt32) : BusM Memory UInt8 := fun m =>
  match m.read? addr with
  | .ok b => .ok b m
  | .error e => .error e m

def busWrite (addr : UInt32) (value : UInt8) : BusM Memory Unit := fun m =>
  if m.contains addr then .ok () (m.store addr value) else .error (.outOfRange addr ⟨.write, 8⟩) m

instance : Bus Memory where
  read8 := busRead
  write8 := busWrite

end Memory

/-- A byte access as a log shows it. -/
inductive BusAccess where
  | read (addr : UInt32)
  | write (addr : UInt32) (value : UInt8)
  deriving DecidableEq

namespace BusAccess

def isWrite : BusAccess → Bool
  | read _ => false
  | write _ _ => true

def describe : BusAccess → String
  | read addr => "r" ++ Hex.address addr
  | write addr value => "w" ++ Hex.address addr ++ "=" ++ Hex.byte value

end BusAccess

/-- A bus with a log of its byte accesses, failing ones included. -/
structure Recorder (β : Type) where
  bus : β
  log : Array BusAccess := #[]

namespace Recorder

variable {β : Type}

/-- An action on the bus below, after an entry in the log. -/
def logged {α : Type} (access : BusAccess) (action : BusM β α) : BusM (Recorder β) α := fun ⟨bus, log⟩ =>
  match action bus with
  | .ok a bus => .ok a ⟨bus, log.push access⟩
  | .error e bus => .error e ⟨bus, log.push access⟩

instance [Bus β] : Bus (Recorder β) where
  read8 addr := logged (.read addr) (Bus.read8 addr)
  write8 addr value := logged (.write addr value) (Bus.write8 addr value)

end Recorder

end H8S
