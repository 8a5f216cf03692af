import H8S.ChipDevice

/-!
# Serial channels

A channel sends and receives bytes.  Bytes written to its data register are collected for the host, except the one that only
says that the line is alive; bytes queued by the host are delivered one at a time, each when the one before was taken.  A
timer paces the transmitter: when a byte time is over its interrupts are requested, and it begins again.
-/

namespace H8S

structure SerialChannel where
  /-- Shifts the interrupts of the channel from those of channel 0. -/
  irqOffset : UInt8 := 0
  data : Vector UInt8 8 := Vector.replicate 8 0
  /-- Bit 7 enables the interrupt of an empty transmitter, bit 5 the transmitter, bit 2 the interrupt of its end. -/
  scr : UInt8 := 0
  tdr : UInt8 := 0xFF
  /-- Bit 7: the transmitter is empty; bit 6: a byte was received; bit 2: the transmission has ended. -/
  ssr : UInt8 := 0x80
  rdr : UInt8 := 0
  /-- Cycles until the byte in flight is sent; none is at zero. -/
  timer : Int64 := 0
  lastCycles : UInt64 := 0
  input : List UInt8 := []
  output : List UInt8 := []
  deriving DecidableEq, Inhabited

namespace SerialChannel

/-- Cycles of a byte: ten bits at 31250 baud on a clock of 16 MHz. -/
def byteCycles : Int64 := 5120

/-- A byte that is sent on an idle line and is not kept. -/
def activeSensing : UInt8 := 0xFE

def receiveInterrupt (s : SerialChannel) : UInt8 := 53 + s.irqOffset

def transmitInterrupt (s : SerialChannel) : UInt8 := 54 + s.irqOffset

def endInterrupt (s : SerialChannel) : UInt8 := 55 + s.irqOffset

/-! ### The host's side -/

def provide (s : SerialChannel) (bytes : List UInt8) : SerialChannel := { s with input := s.input ++ bytes }

/-- The bytes sent since they were last taken. -/
def takeOutput (s : SerialChannel) : List UInt8 × SerialChannel := (s.output, { s with output := [] })

/-! ### Registers -/

def transmits (scr : UInt8) : Bool := scr &&& 0x20 != 0

/-- Enabling the transmitter lets its time run out at the next tick, and disabling it stops the time. -/
def writeControl (s : SerialChannel) (value : UInt8) : SerialChannel :=
  let timer :=
    if transmits value && !transmits s.scr then 1
    else if !transmits value && transmits s.scr then 0
    else s.timer
  { s with scr := value, timer := timer }

def writeData (s : SerialChannel) (value : UInt8) : SerialChannel :=
  { s with
    tdr := value
    output := if value = activeSensing then s.output else s.output ++ [value]
    timer := byteCycles
    ssr := s.ssr &&& 0x7B }

/-- The register at an address. -/
def register (addr : UInt32) : Fin 8 := ⟨addr.toNat % 8, Nat.mod_lt _ (by decide)⟩

def read8 (s : SerialChannel) (addr : UInt32) : UInt8 :=
  match register addr with
  | 2 => s.scr
  | 3 => s.tdr
  | 4 => s.ssr
  | 5 => s.rdr
  | reg => s.data[reg]

def write8 (s : SerialChannel) (addr : UInt32) (value : UInt8) : SerialChannel :=
  match register addr with
  | 2 => s.writeControl value
  | 3 => s.writeData value
  | 4 => { s with ssr := value }
  | 5 => s
  | reg => { s with data := s.data.set reg value }

/-! ### Ticks -/

/-- The cycles since the last tick. -/
def elapsed (s : SerialChannel) (now : UInt64) : Int64 := (if now < s.lastCycles then 0 else now - s.lastCycles).toInt64

/-- Lets the time of the transmitter run on. -/
def transmit (s : SerialChannel) (now : UInt64) : SerialChannel × List TickRequest :=
  let left := s.timer - s.elapsed now
  let s := { s with lastCycles := now }
  if 0 < s.timer then
    if 0 < left then ({ s with timer := left }, [])
    else
      ({ s with timer := byteCycles, ssr := s.ssr ||| 0x84 },
        (if s.scr &&& 0x80 != 0 then [.interrupt s.transmitInterrupt] else [])
          ++ (if s.scr &&& 0x04 != 0 then [.interrupt s.endInterrupt] else []))
  else (s, [])

/-- Delivers the next byte of the input if the last was taken. -/
def receive (s : SerialChannel) : SerialChannel × List TickRequest :=
  if s.ssr &&& 0x40 = 0 then
    match s.input with
    | byte :: rest => ({ s with input := rest, rdr := byte, ssr := s.ssr ||| 0x40 }, [.interrupt s.receiveInterrupt])
    | [] => (s, [])
  else (s, [])

def tick (s : SerialChannel) (now : UInt64) : SerialChannel × List TickRequest :=
  let (s, sent) := s.transmit now
  let (s, received) := s.receive
  (s, sent ++ received)

instance : ChipDevice SerialChannel where
  read8 := read8
  write8 := write8
  tick := tick

end SerialChannel

end H8S
