import H8S.ChipDevice

/-!
# The timer unit

Five channels count cycles, each divided by a power of two, and compare their counters with two general registers.  A match
or an overflow sets a flag, and requests an interrupt if the channel enables it; a channel may also begin anew at a match.
The unit's registers lie in one block, with those of the channels in groups of ten.
-/

namespace H8S

structure TimerChannel where
  /-- Clock and clearing: bits 0 and 1 divide the clock, bit 2 selects an external one, bits 5 and 6 say what clears. -/
  tcr : UInt8 := 0x80
  /-- The interrupts enabled. -/
  tier : UInt8 := 0xF8
  /-- The flags: a match of the first register, of the second, an overflow. -/
  tsr : UInt8 := 0xF8
  tcnt : UInt16 := 0
  gra : UInt16 := 0xFFFF
  grb : UInt16 := 0xFFFF
  deriving DecidableEq, Inhabited

namespace TimerChannel

def flag (set : Bool) (mask : UInt8) : UInt8 := if set then mask else 0

/-- The flags that the current count sets. -/
def hits (c : TimerChannel) : UInt8 :=
  flag (c.tcnt == c.gra) 0x01 ||| flag (c.tcnt == c.grb) 0x02 ||| flag (c.tcnt == 0) 0x04

/-- Whether the count is the one at which the channel begins anew. -/
def clears (c : TimerChannel) : Bool :=
  (c.tcr &&& 0x60 == 0x20 && c.tcnt == c.gra) || (c.tcr &&& 0x60 == 0x40 && c.tcnt == c.grb)

/-- One count. -/
def count (c : TimerChannel) : TimerChannel :=
  { c with tsr := c.tsr ||| c.hits, tcnt := if c.clears then 0 else c.tcnt + 1 }

/-- `n` counts, and the interrupts requested on the way. -/
def countTimes : Nat → TimerChannel → UInt8 → TimerChannel × UInt8
  | 0, c, requested => (c, requested)
  | n + 1, c, requested => countTimes n c.count (requested ||| (c.hits &&& c.tier))

/-- How far the clock is divided. -/
def prescaler (c : TimerChannel) : UInt64 := (c.tcr &&& 3).toUInt64

def read (c : TimerChannel) (reg : Nat) : UInt8 :=
  match reg with
  | 0 => c.tcr
  | 1 => 0
  | 2 => c.tier
  | 3 => c.tsr
  | 4 => highByte c.tcnt
  | 5 => c.tcnt.toUInt8
  | 6 => highByte c.gra
  | 7 => c.gra.toUInt8
  | 8 => highByte c.grb
  | _ => c.grb.toUInt8

def setHigh (v : UInt16) (b : UInt8) : UInt16 := wordOf b v.toUInt8

def setLow (v : UInt16) (b : UInt8) : UInt16 := wordOf (highByte v) b

def write (c : TimerChannel) (reg : Nat) (b : UInt8) : TimerChannel :=
  match reg with
  | 0 => { c with tcr := b }
  | 1 => c
  | 2 => { c with tier := b }
  | 3 => { c with tsr := b }
  | 4 => { c with tcnt := setHigh c.tcnt b }
  | 5 => { c with tcnt := setLow c.tcnt b }
  | 6 => { c with gra := setHigh c.gra b }
  | 7 => { c with gra := setLow c.gra b }
  | 8 => { c with grb := setHigh c.grb b }
  | _ => { c with grb := setLow c.grb b }

end TimerChannel

structure TimerUnit where
  /-- The channels started, one bit each. -/
  tstr : UInt8 := 0xC0
  tsnc : UInt8 := 0xC0
  /-- The channels in PWM mode, which do not count. -/
  tmdr : UInt8 := 0x80
  tfcr : UInt8 := 0xC0
  channels : Vector TimerChannel 5 := Vector.replicate 5 {}
  /-- Bytes of the block that belong to nothing. -/
  spare : Vector UInt8 64 := Vector.replicate 64 0
  lastCycles : UInt64 := 0
  deriving DecidableEq, Inhabited

namespace TimerUnit

/-- The first address and the length of the block. -/
def base : UInt32 := 0xFFFF60

def length : UInt32 := 0x40

/-- A place in the block. -/
inductive Place where
  | tstr | tsnc | tmdr | tfcr
  | channel (i : Fin 5) (reg : Nat)
  | spare (offset : Fin 64)
  | outside
  deriving DecidableEq

/-- Where the registers of a channel begin. -/
def channelStart (i : Fin 5) : Nat := [0x04, 0x0E, 0x18, 0x22, 0x32].getD i 0

/-- The channel whose registers hold an offset. -/
def channelAt? (offset : Nat) : Option (Fin 5) :=
  (List.finRange 5).find? fun i => channelStart i ≤ offset && offset < channelStart i + 10

def place (addr : UInt32) : Place :=
  let offset := (addr - base).toNat
  match offset with
  | 0 => .tstr
  | 1 => .tsnc
  | 2 => .tmdr
  | 3 => .tfcr
  | _ =>
    match channelAt? offset with
    | some i => .channel i (offset - channelStart i)
    | none => if h : offset < 64 then .spare ⟨offset, h⟩ else .outside

def read8 (t : TimerUnit) (addr : UInt32) : UInt8 :=
  match place addr with
  | .tstr => t.tstr
  | .tsnc => t.tsnc
  | .tmdr => t.tmdr
  | .tfcr => t.tfcr
  | .channel i reg => t.channels[i].read reg
  | .spare offset => t.spare[offset]
  | .outside => 0

def write8 (t : TimerUnit) (addr : UInt32) (b : UInt8) : TimerUnit :=
  match place addr with
  | .tstr => { t with tstr := b }
  | .tsnc => { t with tsnc := b }
  | .tmdr => { t with tmdr := b }
  | .tfcr => { t with tfcr := b }
  | .channel i reg => { t with channels := t.channels.set i (t.channels[i].write reg b) }
  | .spare offset => { t with spare := t.spare.set offset b }
  | .outside => t

/-- Whether a bit of a register is set. -/
def hasBit (b : UInt8) (i : Fin 5) : Bool := (b >>> i.val.toUInt8) &&& 1 != 0

/-- Whether a channel counts cycles. -/
def running (t : TimerUnit) (i : Fin 5) : Bool :=
  hasBit t.tstr i && !hasBit t.tmdr i && t.channels[i].tcr &&& 0x04 == 0

/-- The counts from one cycle count to another; none if time went back. -/
def countsBetween (last now shift : UInt64) : Nat := (now >>> shift).toNat - (last >>> shift).toNat

/-- A channel brought to a cycle count, and the interrupts it requests. -/
def advance (t : TimerUnit) (now : UInt64) (i : Fin 5) : TimerChannel × UInt8 :=
  let c := t.channels[i]
  if t.running i then c.countTimes (countsBetween t.lastCycles now c.prescaler) 0 else (c, 0)

/-- The first interrupt of a channel. -/
def interruptBase (i : Fin 5) : UInt8 := 24 + 4 * i.val.toUInt8

def requests (i : Fin 5) (requested : UInt8) : List TickRequest :=
  ([0, 1, 2] : List UInt8).filterMap fun bit =>
    if (requested >>> bit) &&& 1 = 1 then some (.interrupt (interruptBase i + bit)) else none

def tick (t : TimerUnit) (now : UInt64) : TimerUnit × List TickRequest :=
  let advanced := Vector.ofFn (t.advance now)
  ({ t with channels := advanced.map Prod.fst, lastCycles := now },
    (List.finRange 5).flatMap fun i => requests i advanced[i].2)

/-- A pulse at the external input of a channel. -/
def pulse (t : TimerUnit) (channel : Nat) : TimerUnit :=
  if h : channel < 5 then
    let c := t.channels[channel]
    { t with channels := t.channels.set channel { c with gra := c.gra + 1 } }
  else t

/-- The counter of a channel. -/
def counter? (t : TimerUnit) (channel : Nat) : Option UInt16 := t.channels[channel]?.map TimerChannel.tcnt

instance : ChipDevice TimerUnit where
  read8 := read8
  write8 := write8
  tick := tick

end TimerUnit

end H8S
