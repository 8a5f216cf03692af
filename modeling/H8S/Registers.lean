import H8S.ConditionCodes
import H8S.Instruction

/-!
# The register file

Eight registers of 32 bits, the program counter, the condition codes and the extended control register.  Instructions name
the parts of the eight registers by numbers: bytes 0 to 7 are bits 8 to 15 and bytes 8 to 15 are bits 0 to 7 of a register,
words 0 to 7 are its low half and words 8 to 15 its high half.  A narrow view is read and written inside its register, so the
bits around it stay.
-/

namespace H8S

structure Registers where
  er : Vector UInt32 8 := Vector.replicate 8 0
  pc : UInt32 := 0
  ccr : ConditionCodes := {}
  exr : UInt8 := 0
  deriving DecidableEq, Inhabited

namespace Registers

/-- The register that a number selects, whatever its view. -/
def cell (id : UInt8) : Fin 8 := ⟨id.toNat % 8, Nat.mod_lt _ (by decide)⟩

/-- Whether a number selects the second of the two views of its width. -/
def second (id : UInt8) : Bool := id &&& 8 != 0

def readLong (r : Registers) (id : UInt8) : UInt32 := r.er[cell id]

def writeLong (r : Registers) (id : UInt8) (value : UInt32) : Registers := { r with er := r.er.set (cell id) value }

/-- A word that keeps the bits of a mask and takes `value` for the others. -/
def replaceBits (old keep value : UInt32) : UInt32 := (old &&& keep) ||| value

def readByte (r : Registers) (id : UInt8) : UInt8 :=
  if second id then (r.readLong id).toUInt8 else (r.readLong id >>> 8).toUInt8

def writeByte (r : Registers) (id value : UInt8) : Registers :=
  r.writeLong id <|
    if second id then replaceBits (r.readLong id) 0xFFFFFF00 value.toUInt32
    else replaceBits (r.readLong id) 0xFFFF00FF (value.toUInt32 <<< 8)

def readWord (r : Registers) (id : UInt8) : UInt16 :=
  if second id then (r.readLong id >>> 16).toUInt16 else (r.readLong id).toUInt16

def writeWord (r : Registers) (id : UInt8) (value : UInt16) : Registers :=
  r.writeLong id <|
    if second id then replaceBits (r.readLong id) 0x0000FFFF (value.toUInt32 <<< 16)
    else replaceBits (r.readLong id) 0xFFFF0000 value.toUInt32

/-- The view of a width, extended by zeros. -/
def read (r : Registers) (width : Width) (id : UInt8) : UInt32 :=
  match width with
  | .byte => (r.readByte id).toUInt32
  | .word => (r.readWord id).toUInt32
  | .long => r.readLong id

/-- Writes the low bits of `value` to the view of a width. -/
def write (r : Registers) (width : Width) (id : UInt8) (value : UInt32) : Registers :=
  match width with
  | .byte => r.writeByte id value.toUInt8
  | .word => r.writeWord id value.toUInt16
  | .long => r.writeLong id value

def control (r : Registers) : ControlReg → UInt8
  | .ccr => r.ccr.toByte
  | .exr => r.exr

def setControl (r : Registers) (reg : ControlReg) (value : UInt8) : Registers :=
  match reg with
  | .ccr => { r with ccr := .ofByte value }
  | .exr => { r with exr := value }

/-- The last register is the stack pointer. -/
def sp (r : Registers) : UInt32 := r.readLong 7

def setSp (r : Registers) (value : UInt32) : Registers := r.writeLong 7 value

end Registers

end H8S
