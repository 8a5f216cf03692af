import H8S.ChipDevice

/-!
# The DMA controller

A write to the control register of channel A arms a copy of a block between two addresses, with strides of one up, one down
or none.  The copy is made at the next tick.  Only full-address transfers of bytes are supported, and any other write to the
control register leaves what was armed before.
-/

namespace H8S

/-- A copy that waits for the next tick. -/
structure Transfer where
  src : UInt32
  dst : UInt32
  count : Nat
  srcStride : UInt32
  dstStride : UInt32
  /-- Whether the end of the copy requests the interrupt of channel A, and that of channel B. -/
  interruptA : Bool
  interruptB : Bool
  deriving DecidableEq

namespace Transfer

/-- The stride that a control register selects, modulo the size of a word. -/
def stride (control : UInt8) : UInt32 :=
  match ((control >>> 4) &&& 3).toNat with
  | 1 => 1
  | 3 => 0xFFFFFFFF
  | _ => 0

/-- The copies of a block, in order. -/
def copies (srcStride dstStride : UInt32) : Nat → UInt32 → UInt32 → List TickRequest
  | 0, _, _ => []
  | n + 1, src, dst => .copy src dst :: copies srcStride dstStride n (src + srcStride) (dst + dstStride)

end Transfer

structure BlockTransfer where
  /-- Eight registers of channel A, then those of channel B. -/
  regs : Vector UInt8 16 := Vector.replicate 16 0
  irqOffset : UInt8 := 0
  armed : Option Transfer := none
  deriving DecidableEq, Inhabited

namespace BlockTransfer

/-- The control registers of the channels. -/
def controlA : Fin 16 := 7

def controlB : Fin 16 := 15

/-- The 24-bit address in four registers. -/
def address (d : BlockTransfer) (at1 at2 at3 : Fin 16) : UInt32 :=
  d.regs[at1].toUInt32 <<< 16 ||| d.regs[at2].toUInt32 <<< 8 ||| d.regs[at3].toUInt32

/-- Whether the control registers describe a transfer that is supported and enabled. -/
def supports (a b : UInt8) : Bool :=
  a &&& 0x80 != 0 && a &&& 7 == 6 && a &&& 0x40 == 0 && b &&& 0x80 != 0 && b &&& 7 == 0

/-- The transfer that the registers describe. -/
def described (d : BlockTransfer) : Transfer where
  src := d.address 1 2 3
  dst := d.address 9 10 11
  count := (wordOf d.regs[4] d.regs[5]).toNat
  srcStride := Transfer.stride d.regs[controlA]
  dstStride := Transfer.stride d.regs[controlB]
  interruptA := d.regs[controlA] &&& 0x08 != 0
  interruptB := d.regs[controlB] &&& 0x08 != 0

def busy (d : BlockTransfer) : Bool := d.armed.isSome

/-- The register at an address. -/
def register (addr : UInt32) : Fin 16 := ⟨addr.toNat % 16, Nat.mod_lt _ (by decide)⟩

def read8 (d : BlockTransfer) (addr : UInt32) : UInt8 := d.regs[register addr]

def write8 (d : BlockTransfer) (addr : UInt32) (b : UInt8) : BlockTransfer :=
  let written := { d with regs := d.regs.set (register addr) b }
  if register addr = controlA ∧ supports b written.regs[controlB] then { written with armed := some written.described }
  else written

/-- The interrupts of the end of a copy. -/
def endInterrupts (d : BlockTransfer) (t : Transfer) : List TickRequest :=
  (if t.interruptA then [.interrupt (44 + d.irqOffset)] else [])
    ++ (if t.interruptB then [.interrupt (45 + d.irqOffset)] else [])

def tick (d : BlockTransfer) (_now : UInt64) : BlockTransfer × List TickRequest :=
  match d.armed with
  | none => (d, [])
  | some t =>
    ({ d with armed := none }, Transfer.copies t.srcStride t.dstStride t.count t.src t.dst ++ d.endInterrupts t)

instance : ChipDevice BlockTransfer where
  read8 := read8
  write8 := write8
  tick := tick

end BlockTransfer

end H8S
