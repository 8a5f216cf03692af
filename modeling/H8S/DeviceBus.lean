import H8S.Address
import H8S.Bus
import H8S.InterruptSet
import H8S.PartitionPoint

/-!
# Devices on a bus

Devices are mapped over ranges of the address space, in front of a memory.  An address in a range is served by its device
alone, and all others by the memory.  A device may hold a handle of its machine, by which it looks at the halt flag, sets it
or clears it whenever it is at work (`Active`).

A device is ticked from outside and then runs a program (`TickProgram`): it reads and writes bytes on the bus, goes on by
what came of them, requests interrupts, and ends well or with a fault.  Meanwhile its own range is closed: reads answer with
all bits set and writes are lost.

Ranges never overlap and are kept in the order of their addresses, so that the range of an address is found by halving and a
new range is compared with its neighbours only.  Several ranges may belong to one device.
-/

namespace H8S

/-- A device at work, and the halt flag of its machine, which is in its reach. -/
structure Active (δ : Type) where
  device : δ
  halted : Bool

/-- What a device does when it is ticked. -/
inductive TickProgram (δ : Type) where
  /-- The tick is over, with the device as it is then. -/
  | ends (d : δ) (result : Except Fault Unit)
  | read8 (addr : UInt32) (next : Except Fault UInt8 → TickProgram δ)
  | write8 (addr : UInt32) (value : UInt8) (next : Except Fault Unit → TickProgram δ)
  /-- The request of an interrupt. -/
  | raise (n : UInt8) (next : TickProgram δ)
  | isHalted (next : Bool → TickProgram δ)
  | setHalted (halted : Bool) (next : TickProgram δ)

/-- A device sees absolute addresses.  Unless it says otherwise a word is two bytes, and a tick does nothing. -/
class Device (δ : Type) where
  read8 : Active δ → UInt32 → UInt8 × Active δ
  write8 : Active δ → UInt32 → UInt8 → Active δ
  read16 : Active δ → UInt32 → UInt16 × Active δ := fun d addr =>
    let (hi, d) := read8 d addr
    let (lo, d) := read8 d (addressAfter addr)
    (wordOf hi lo, d)
  write16 : Active δ → UInt32 → UInt16 → Active δ := fun d addr value =>
    write8 (write8 d addr (highByte value)) (addressAfter addr) value.toUInt8
  tick : δ → UInt64 → TickProgram δ := fun d _ => .ends d (.ok ())

/-- The range from `base` up to but without `stop`, and the number of its device. -/
structure Mapping where
  base : UInt32
  stop : UInt32
  device : Nat
  deriving DecidableEq

namespace Mapping

def contains (m : Mapping) (addr : UInt32) : Bool := m.base ≤ addr && addr < m.stop

def overlaps (m : Mapping) (base stop : UInt32) : Bool := m.base < stop && base < m.stop

end Mapping

/-- Why a range cannot be mapped. -/
inductive MappingError where
  | overlapping (base stop otherBase otherStop : UInt32)
  | empty (base : UInt32)
  | outOfBounds (base len : UInt32)
  deriving DecidableEq

def MappingError.message : MappingError → String
  | overlapping base stop otherBase otherStop =>
    "device range 0x" ++ Hex.address base ++ "..0x" ++ Hex.address stop ++ " overlaps 0x" ++ Hex.address otherBase
      ++ "..0x" ++ Hex.address otherStop
  | empty base => "device range at 0x" ++ Hex.address base ++ " is empty"
  | outOfBounds base len =>
    "device range 0x" ++ Hex.address base ++ "+0x" ++ Hex.minimal len.toNat ++ " lies outside the 0x"
      ++ Hex.minimal Address.spaceSize ++ "-byte address space"

structure DeviceBus (δ : Type) where
  memory : Memory
  mappings : List Mapping := []
  devices : Array δ := #[]
  /-- The base of the range whose device is being ticked. -/
  busy : Option UInt32 := none
  /-- The halt flag of the machine. -/
  halted : Bool := false

namespace DeviceBus

variable {δ : Type}

/-! ### Mapping -/

/-- The mapping that serves an address, if a device does: it can only be the last that begins at or before it. -/
def mapping? (bus : DeviceBus δ) (addr : UInt32) : Option Mapping :=
  match partitionPoint (·.base ≤ addr) bus.mappings with
  | 0 => none
  | index + 1 => bus.mappings[index]?.filter (·.contains addr)

/-- The mapping that is found is one of the bus and holds the address, in whatever order the mappings are. -/
theorem mapping?_sound {bus : DeviceBus δ} {addr : UInt32} {m : Mapping} (h : bus.mapping? addr = some m) :
    m ∈ bus.mappings ∧ m.contains addr = true := by
  unfold mapping? at h
  split at h
  · cases h
  · obtain ⟨hget, hc⟩ := Option.filter_eq_some_iff.1 h
    exact ⟨List.mem_of_getElem? hget, hc⟩

theorem mapping?_of_unmapped {bus : DeviceBus δ} (addr : UInt32) (h : bus.mappings = []) : bus.mapping? addr = none := by
  refine Option.eq_none_iff_forall_ne_some.2 fun m hm => ?_
  have hmem := (mapping?_sound hm).1
  rw [h] at hmem
  cases hmem

def isMapped (bus : DeviceBus δ) (addr : UInt32) : Bool := (bus.mapping? addr).isSome

/-- The place of a range that begins at `base`, before all that begin there or later. -/
def place (bus : DeviceBus δ) (base : UInt32) : Nat := partitionPoint (·.base < base) bus.mappings

/-- The mappings on both sides of a place. -/
def neighbours (bus : DeviceBus δ) (place : Nat) : List Mapping :=
  (if place = 0 then none else bus.mappings[place - 1]?).toList ++ bus.mappings[place]?.toList

/-- The end of a range that is free to be mapped. -/
def freeRange (bus : DeviceBus δ) (base len : UInt32) : Except MappingError UInt32 :=
  if len = 0 then .error (.empty base)
  else if Address.spaceSize < base.toNat + len.toNat then .error (.outOfBounds base len)
  else
    match (bus.neighbours (bus.place base)).find? (·.overlaps base (base + len)) with
    | some m => .error (.overlapping base (base + len) m.base m.stop)
    | none => .ok (base + len)

/-- Takes in a device without mapping it, and gives its number. -/
def attach (bus : DeviceBus δ) (d : δ) : Nat × DeviceBus δ :=
  (bus.devices.size, { bus with devices := bus.devices.push d })

/-- Maps a range to a device that was taken in. -/
def map (bus : DeviceBus δ) (base len : UInt32) (device : Nat) : Except MappingError (DeviceBus δ) := do
  let stop ← bus.freeRange base len
  return { bus with mappings := bus.mappings.insertIdx (bus.place base) ⟨base, stop, device⟩ }

/-- Takes in a device and maps a range to it; if that fails the bus stays as it was. -/
def install (bus : DeviceBus δ) (base len : UInt32) (d : δ) : Except MappingError (Nat × DeviceBus δ) := do
  let (number, attached) := bus.attach d
  return (number, ← attached.map base len number)

def device? (bus : DeviceBus δ) (number : Nat) : Option δ := bus.devices[number]?

def setDevice (bus : DeviceBus δ) (number : Nat) (d : δ) : DeviceBus δ :=
  { bus with devices := bus.devices.setIfInBounds number d }

/-- A device at work on this bus. -/
def active (bus : DeviceBus δ) (d : δ) : Active δ := ⟨d, bus.halted⟩

/-- The device that serves a mapping, unless its range is closed. -/
def serving? (bus : DeviceBus δ) (m : Mapping) : Option (Active δ) :=
  if bus.busy = some m.base then none else (bus.device? m.device).map bus.active

/-- The bus after a device was at work. -/
def served (bus : DeviceBus δ) (number : Nat) (d : Active δ) : DeviceBus δ :=
  { bus.setDevice number d.device with halted := d.halted }

/-- A look at the memory, also where a device is mapped. -/
def peek8 (bus : DeviceBus δ) (addr : UInt32) : Except Fault UInt8 := bus.memory.read? addr

variable [Device δ]

/-! ### Accesses -/

def read8 (addr : UInt32) : BusM (DeviceBus δ) UInt8 := fun bus =>
  match bus.mapping? addr with
  | none =>
    match bus.memory.read? addr with
    | .ok b => .ok b bus
    | .error e => .error e bus
  | some m =>
    match bus.serving? m with
    | none => .ok 0xFF bus
    | some d =>
      let (b, d) := Device.read8 d addr
      .ok b (bus.served m.device d)

def write8 (addr : UInt32) (value : UInt8) : BusM (DeviceBus δ) Unit := fun bus =>
  match bus.mapping? addr with
  | none =>
    if bus.memory.contains addr then .ok () { bus with memory := bus.memory.store addr value }
    else .error (.outOfRange addr ⟨.write, 8⟩) bus
  | some m =>
    match bus.serving? m with
    | none => .ok () bus
    | some d => .ok () (bus.served m.device (Device.write8 d addr value))

/-- The mapping that serves both bytes of a word. -/
def wordMapping? (bus : DeviceBus δ) (addr : UInt32) : Option Mapping :=
  match bus.mapping? addr with
  | some m => if bus.mapping? (addressAfter addr) = some m then some m else none
  | none => none

/-- A word of one device is one access to it; any other word is two bytes. -/
def read16 (addr : UInt32) : BusM (DeviceBus δ) UInt16 := fun bus =>
  match bus.wordMapping? addr with
  | some m =>
    match bus.serving? m with
    | none => .ok 0xFFFF bus
    | some d =>
      let (v, d) := Device.read16 d addr
      .ok v (bus.served m.device d)
  | none =>
    (do let hi ← read8 addr
        let lo ← read8 (addressAfter addr)
        return wordOf hi lo : BusM (DeviceBus δ) UInt16) bus

def write16 (addr : UInt32) (value : UInt16) : BusM (DeviceBus δ) Unit := fun bus =>
  match bus.wordMapping? addr with
  | some m =>
    match bus.serving? m with
    | none => .ok () bus
    | some d => .ok () (bus.served m.device (Device.write16 d addr value))
  | none =>
    (do write8 addr (highByte value)
        write8 (addressAfter addr) value.toUInt8 : BusM (DeviceBus δ) Unit) bus

instance : Bus (DeviceBus δ) where
  read8 := read8
  write8 := write8
  read16 := read16
  write16 := write16

/-! ### Ticks -/

/-- The bus after the device of a mapping was put back and its range opened. -/
def reopened (bus : DeviceBus δ) (m : Mapping) (d : δ) : DeviceBus δ := { bus.setDevice m.device d with busy := none }

/-- Runs a program of the device of a mapping, which is put back at its end, also after a failure.  The interrupts that it
requests are collected. -/
def perform (m : Mapping) : TickProgram δ → InterruptSet → BusM (DeviceBus δ) InterruptSet
  | .ends d result, raised => do
    modify (·.reopened m d)
    match result with
    | .ok () => return raised
    | .error e => throw e
  | .read8 addr next, raised => do perform m (next (← BusM.attempt (read8 addr))) raised
  | .write8 addr value next, raised => do perform m (next (← BusM.attempt (write8 addr value))) raised
  | .raise n next, raised => perform m next (raised.request n)
  | .isHalted next, raised => do perform m (next (← get).halted) raised
  | .setHalted halted next, raised => do
    modify fun bus => { bus with halted := halted }
    perform m next raised

/-- Ticks the device of one mapping, with its range closed. -/
def tickMapping (now : UInt64) (m : Mapping) : BusM (DeviceBus δ) InterruptSet := fun bus =>
  match bus.device? m.device with
  | none => .ok {} bus
  | some d => perform m (Device.tick d now) {} { bus with busy := some m.base }

def tickMappings (now : UInt64) : List Mapping → InterruptSet → BusM (DeviceBus δ) InterruptSet
  | [], raised => pure raised
  | m :: ms, raised => do tickMappings now ms (raised.union (← tickMapping now m))

/-- Brings all devices to a cycle count and collects the interrupts they request.  A failure ends the tick. -/
def tick (now : UInt64) : BusM (DeviceBus δ) InterruptSet := do
  tickMappings now (← get).mappings {}

end DeviceBus

end H8S
