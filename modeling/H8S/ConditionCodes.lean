/-!
# Condition codes

The eight flags of the condition code register.  Programs see them as one byte, from `I` in the highest bit down to `C` in
the lowest; `ofByte` and `toByte` pass between the two forms, and neither loses a bit (`toByte_ofByte`, `ofByte_toByte`).
-/

namespace H8S

structure ConditionCodes where
  /-- Interrupts are masked. -/
  i : Bool := false
  ui : Bool := false
  h : Bool := false
  u : Bool := false
  n : Bool := false
  z : Bool := false
  v : Bool := false
  c : Bool := false
  deriving DecidableEq, Inhabited

namespace ConditionCodes

/-- One bit of the byte. -/
def bit (flag : Bool) (mask : UInt8) : UInt8 := if flag then mask else 0

def toByte (f : ConditionCodes) : UInt8 :=
  bit f.i 0x80 ||| bit f.ui 0x40 ||| bit f.h 0x20 ||| bit f.u 0x10 ||| bit f.n 0x08 ||| bit f.z 0x04 |||
    bit f.v 0x02 ||| bit f.c 0x01

def ofByte (b : UInt8) : ConditionCodes where
  i := b &&& 0x80 != 0
  ui := b &&& 0x40 != 0
  h := b &&& 0x20 != 0
  u := b &&& 0x10 != 0
  n := b &&& 0x08 != 0
  z := b &&& 0x04 != 0
  v := b &&& 0x02 != 0
  c := b &&& 0x01 != 0

/-- Whether all flags of a mask are set. -/
def contains (f : ConditionCodes) (mask : UInt8) : Bool := f.toByte &&& mask == mask

/-- Sets or clears all flags of a mask. -/
def assign (f : ConditionCodes) (mask : UInt8) (value : Bool) : ConditionCodes :=
  ofByte (if value then f.toByte ||| mask else f.toByte &&& ~~~ mask)

private theorem ofByte_toByte_flags : ∀ i ui h u n z v c : Bool,
    ofByte (toByte ⟨i, ui, h, u, n, z, v, c⟩) = ⟨i, ui, h, u, n, z, v, c⟩ := by
  decide +kernel

theorem ofByte_toByte (f : ConditionCodes) : ofByte f.toByte = f :=
  ofByte_toByte_flags f.i f.ui f.h f.u f.n f.z f.v f.c

private theorem toByte_ofByte_bits : ∀ b : BitVec 8, (ofByte ⟨b⟩).toByte.toBitVec = b := by
  decide +kernel

theorem toByte_ofByte (b : UInt8) : (ofByte b).toByte = b :=
  UInt8.toBitVec_inj.1 (toByte_ofByte_bits b.toBitVec)

end ConditionCodes

end H8S
