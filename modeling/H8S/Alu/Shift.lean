import H8S.Alu.Arithmetic

/-!
# Shifts and rotations

A shift moves a value by one or two places.  The carry takes the last bit that leaves; rotations bring the bits that leave
back in at the other end, with or without the carry between.  Only the arithmetic shift to the left can overflow: it does
when the bits that pass the sign are not all alike.
-/

namespace H8S.Alu

/-- One place to the left through the carry. -/
def rotateLeftThroughCarry (w : Width) (value : UInt32) (carry : Bool) : UInt32 × Bool :=
  ((value <<< 1 ||| carry.toUInt32) &&& w.mask, negative w value)

/-- One place to the right through the carry. -/
def rotateRightThroughCarry (w : Width) (value : UInt32) (carry : Bool) : UInt32 × Bool :=
  (value >>> 1 ||| (if carry then w.signBit else 0), value &&& 1 != 0)

/-- A step of value and carry taken `n` times. -/
def repeated (step : UInt32 → Bool → UInt32 × Bool) : Nat → UInt32 → Bool → UInt32 × Bool
  | 0, value, carry => (value, carry)
  | n + 1, value, carry =>
    let (value, carry) := step value carry
    repeated step n value carry

/-- The lowest bit but `n`. -/
def bitAt (value n : UInt32) : Bool := (value >>> n) &&& 1 != 0

/-- The value after `n` places, and the carry. -/
def shiftValue (op : ShiftOp) (w : Width) (n value : UInt32) (carry : Bool) : UInt32 × Bool :=
  match op with
  | .shal | .shll => ((value <<< n) &&& w.mask, bitAt value (w.bits - n))
  | .shar =>
    (((w.signExtend value).toInt32 >>> n.toInt32).toUInt32 &&& w.mask, bitAt value (n - 1))
  | .shlr => (value >>> n, bitAt value (n - 1))
  | .rotl =>
    let rotated := (value <<< n ||| value >>> (w.bits - n)) &&& w.mask
    (rotated, bitAt rotated 0)
  | .rotr => ((value >>> n ||| value <<< (w.bits - n)) &&& w.mask, bitAt value (n - 1))
  | .rotxl => repeated (rotateLeftThroughCarry w) n.toNat value carry
  | .rotxr => repeated (rotateRightThroughCarry w) n.toNat value carry

/-- Whether the sign and the bits that pass it differ. -/
def shiftOverflows (w : Width) (n value : UInt32) : Bool :=
  let top := value >>> (w.bits - 1 - n)
  top != 0 && top != (1 <<< (n + 1)) - 1

def shift (op : ShiftOp) (w : Width) (count : UInt8) (value : UInt32) (f : ConditionCodes) : Result :=
  let value := value &&& w.mask
  let (shifted, carry) := shiftValue op w count.toUInt32 value f.c
  let overflow := op = .shal && shiftOverflows w count.toUInt32 value
  ⟨shifted, { signFlags w shifted f with v := overflow, c := carry }⟩

end H8S.Alu
