import H8S.Peripheral

/-!
# Boards

A board maps the devices on the chip where the data sheet has them, then any holes that it was given, and fills what is left
of the register area with one store of bytes.
-/

namespace H8S

structure BoardConfig where
  /-- The interrupt offsets of the two serial channels. -/
  serialIrqOffset0 : UInt8 := 0
  serialIrqOffset1 : UInt8 := 4
  dmaIrqOffset : UInt8 := 0
  /-- What the A/D converter answers. -/
  adcValue : UInt16 := 0
  dma : Bool := true
  refresh : Bool := true
  /-- Further ranges, by base and length, that answer for nothing. -/
  holes : List (UInt32 × UInt32) := []

/-- The numbers of the devices that the host works with. -/
structure Board where
  serial0 : Nat
  serial1 : Nat
  timers : Nat
  adc : Nat

namespace Board

/-- The first address of the register area, which ends with the address space. -/
def registerArea : Nat := 0xFFFF1C

/-- A device and the range to map it to. -/
structure Part where
  base : UInt32
  len : UInt32
  device : Peripheral

def dmaPart (c : BoardConfig) : Part := ⟨0xFFFF20, 16, .dma { irqOffset := c.dmaIrqOffset }⟩

def timersPart : Part := ⟨TimerUnit.base, TimerUnit.length, .timers {}⟩

def refreshPart : Part := ⟨0xFFFFAC, 4, .refresh {}⟩

def serialPart (base : UInt32) (irqOffset : UInt8) : Part := ⟨base, 8, .serial { irqOffset := irqOffset }⟩

def adcPart (c : BoardConfig) : Part := ⟨0xFFFFE0, 8, .adc c.adcValue⟩

def enablePart : Part := ⟨0xFFFFF5, 1, .enableRegister 0⟩

/-- The parts of a range that sorted ranges leave free, where `cursor` is the end of what is settled. -/
def gapsFrom (stop : Nat) : Nat → List (Nat × Nat) → List (Nat × Nat)
  | cursor, [] => if cursor < stop then [(cursor, stop)] else []
  | cursor, (first, last) :: ranges =>
    (if cursor < first then [(cursor, first)] else []) ++ gapsFrom stop (max cursor last) ranges

/-- Whether one range comes before another. -/
def precedes (a b : Nat × Nat) : Bool := a.1 < b.1 || (a.1 == b.1 && a.2 ≤ b.2)

/-- The parts of `[start, stop)` that ranges, in any order, leave free. -/
def gaps (start stop : Nat) (ranges : List (Nat × Nat)) : List (Nat × Nat) :=
  gapsFrom stop start ((ranges.filter fun r => start < r.2).mergeSort precedes)

/-- Actions that map devices; what was mapped before an error stays mapped. -/
abbrev MapM (δ : Type) := EStateM MappingError (DeviceBus δ)

variable {δ : Type}

/-- Maps a part and gives the number of its device. -/
def mapPart (wrap : Peripheral → δ) (part : Part) : MapM δ Nat := fun bus =>
  match bus.install part.base part.len (wrap part.device) with
  | .ok (number, bus) => .ok number bus
  | .error e => .error e bus

/-- Maps one more range to a device. -/
def mapWindow (device : Nat) (first last : Nat) : MapM δ Unit := fun bus =>
  match bus.map first.toUInt32 (last - first).toUInt32 device with
  | .ok bus => .ok () bus
  | .error e => .error e bus

/-- Fills what the board left free of the register area. -/
def mapStore (wrap : Peripheral → δ) (claimed : List (Nat × Nat)) : MapM δ Unit := do
  let store ← modifyGet fun bus => bus.attach (wrap .emptyStore)
  (gaps registerArea Address.spaceSize claimed).forM fun gap => mapWindow store gap.1 gap.2

/-- The range that a part claims. -/
def Part.range (p : Part) : Nat × Nat := (p.base.toNat, p.base.toNat + p.len.toNat)

def optional (present : Bool) (part : Part) : List Part := if present then [part] else []

/-- Maps the devices of a board. -/
def install (wrap : Peripheral → δ) (c : BoardConfig) : MapM δ Board := do
  let early := optional c.dma (dmaPart c)
  let middle := optional c.refresh refreshPart
  let channel0 := serialPart 0xFFFFB0 c.serialIrqOffset0
  let channel1 := serialPart 0xFFFFB8 c.serialIrqOffset1
  let late := enablePart :: c.holes.map fun h => ⟨h.1, h.2, .hole⟩
  early.forM fun part => do let _ ← mapPart wrap part
  let timers ← mapPart wrap timersPart
  middle.forM fun part => do let _ ← mapPart wrap part
  let serial0 ← mapPart wrap channel0
  let serial1 ← mapPart wrap channel1
  let adc ← mapPart wrap (adcPart c)
  late.forM fun part => do let _ ← mapPart wrap part
  mapStore wrap ((early ++ [timersPart] ++ middle ++ [channel0, channel1, adcPart c] ++ late).map Part.range)
  return ⟨serial0, serial1, timers, adc⟩

end Board

end H8S
