import H8S.Peripheral.BlockTransfer
import H8S.Peripheral.Refresh
import H8S.Peripheral.SerialChannel
import H8S.Peripheral.TimerUnit

/-!
# The devices on the chip

`Peripheral` is any of the devices on the chip.  Besides those with modules of their own there are plain registers: the
result of the A/D converter, which is read by halves and never written, the interrupt enable register, a store of 256 bytes
that ranges share by the low byte of the address, and a device that answers for holes in the memory map.
-/

namespace H8S

inductive Peripheral where
  | serial (channel : SerialChannel)
  | timers (timers : TimerUnit)
  | adc (value : UInt16)
  | dma (transfer : BlockTransfer)
  | enableRegister (value : UInt8)
  | refresh (controller : Refresh)
  | hole
  | store (bytes : Vector UInt8 256)
  deriving Inhabited

namespace Peripheral

/-- A store of zeros. -/
def emptyStore : Peripheral := store (Vector.replicate 256 0)

/-- The place of an address in a store. -/
def storeIndex (addr : UInt32) : Fin 256 := ⟨addr.toNat % 256, Nat.mod_lt _ (by decide)⟩

def read8 (p : Peripheral) (addr : UInt32) : UInt8 :=
  match p with
  | serial channel => channel.read8 addr
  | timers unit => unit.read8 addr
  | adc value => if addr &&& 1 = 0 then highByte value else value.toUInt8
  | dma transfer => transfer.read8 addr
  | enableRegister value => value
  | refresh controller => controller.read8 addr
  | hole => 0
  | store bytes => bytes[storeIndex addr]

def write8 (p : Peripheral) (addr : UInt32) (value : UInt8) : Peripheral :=
  match p with
  | serial channel => serial (channel.write8 addr value)
  | timers unit => timers (unit.write8 addr value)
  | adc result => adc result
  | dma transfer => dma (transfer.write8 addr value)
  | enableRegister _ => enableRegister value
  | refresh controller => refresh (controller.write8 addr value)
  | hole => hole
  | store bytes => store (bytes.set (storeIndex addr) value)

def tick (p : Peripheral) (now : UInt64) : Peripheral × List TickRequest :=
  match p with
  | serial channel => (channel.tick now).map serial id
  | timers unit => (unit.tick now).map timers id
  | dma transfer => (transfer.tick now).map dma id
  | refresh controller => (controller.tick now).map refresh id
  | other => (other, [])

instance : ChipDevice Peripheral where
  read8 := read8
  write8 := write8
  tick := tick

end Peripheral

end H8S
