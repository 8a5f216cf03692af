import H8S.ChipDevice

/-!
# The refresh controller

A counter of eight bits runs on a divided clock.  When it reaches its compare register it begins anew, sets a flag, and
requests an interrupt if that is enabled.
-/

namespace H8S

structure Refresh where
  rfshcr : UInt8 := 0x02
  /-- Bit 7 is the flag of a match, bit 6 enables its interrupt, and bits 3 to 5 select the clock. -/
  rtmcsr : UInt8 := 0x07
  rtcnt : UInt8 := 0x00
  rtcor : UInt8 := 0xFF
  /-- How far the clock is divided; a zero stops it. -/
  shift : UInt64 := 0
  lastCycles : UInt64 := 0
  deriving DecidableEq, Inhabited

namespace Refresh

/-- The interrupt of a match. -/
def matchInterrupt : UInt8 := 21

/-- The division that a value of the control register selects. -/
def prescaler (rtmcsr : UInt8) : UInt64 :=
  ([0, 1, 3, 5, 7, 9, 11, 12] : List UInt64).getD ((rtmcsr >>> 3) &&& 7).toNat 0

def interruptEnabled (r : Refresh) : Bool := r.rtmcsr &&& 0x40 != 0

/-- Some bits always read as ones. -/
def read8 (r : Refresh) (addr : UInt32) : UInt8 :=
  match (addr &&& 3).toNat with
  | 0 => r.rfshcr ||| 0x02
  | 1 => r.rtmcsr ||| 0x07
  | 2 => r.rtcnt
  | _ => r.rtcor

/-- A write to the control register clears the flag. -/
def write8 (r : Refresh) (addr : UInt32) (b : UInt8) : Refresh :=
  match (addr &&& 3).toNat with
  | 0 => { r with rfshcr := b }
  | 1 => { r with rtmcsr := b &&& 0x7F, shift := prescaler b }
  | 2 => { r with rtcnt := b }
  | _ => { r with rtcor := b }

/-- Whether the next count is a match. -/
def matchesNext (r : Refresh) : Bool := r.rtcnt + 1 == r.rtcor

def count (r : Refresh) : Refresh :=
  if r.matchesNext then { r with rtcnt := 0, rtmcsr := r.rtmcsr ||| 0x80 } else { r with rtcnt := r.rtcnt + 1 }

/-- `n` counts, and whether one of them was a match. -/
def countTimes : Nat → Refresh → Bool → Refresh × Bool
  | 0, r, matched => (r, matched)
  | n + 1, r, matched => countTimes n r.count (matched || r.matchesNext)

/-- The counts from one cycle count to another; none if time went back. -/
def countsUntil (r : Refresh) (now : UInt64) : Nat :=
  if r.shift = 0 then 0 else (now >>> r.shift).toNat - (r.lastCycles >>> r.shift).toNat

def tick (r : Refresh) (now : UInt64) : Refresh × List TickRequest :=
  let (counted, matched) := countTimes (r.countsUntil now) r false
  ({ counted with lastCycles := now }, if matched && r.interruptEnabled then [.interrupt matchInterrupt] else [])

instance : ChipDevice Refresh where
  read8 := read8
  write8 := write8
  tick := tick

end Refresh

end H8S
