import H8S.Alu.Arithmetic
import H8S.Registers

/-!
# Products and quotients

The source is a byte or a word, and the destination is twice as wide.  A product fills the destination.  A quotient goes to
the low half of it and the remainder to the high half, each cut to the width of the source.  A zero divisor only sets flags.
-/

namespace H8S

namespace Registers

/-- Stores a quotient and a remainder in the halves of a destination. -/
def writeQuotient (r : Registers) (width : Width) (dst : UInt8) (quotient remainder : UInt32) : Registers :=
  match width with
  | .byte => r.writeWord dst (remainder.toUInt8.toUInt16 <<< 8 ||| quotient.toUInt8.toUInt16)
  | _ => (r.writeWord (dst &&& 7) quotient.toUInt16).writeWord ((dst &&& 7) ||| 8) remainder.toUInt16

/-- The product without signs, which leaves the flags. -/
def multiplyUnsigned (r : Registers) (width : Width) (src dst : UInt8) : Registers :=
  r.write width.double dst (r.read width src * (r.read width.double dst &&& width.mask))

/-- The product with signs, which sets `N` and `Z`. -/
def multiplySigned (r : Registers) (width : Width) (src dst : UInt8) : Registers :=
  let a := width.signExtend (r.read width src)
  let b := width.signExtend (r.read width.double dst)
  let product := (a * b) &&& width.double.mask
  { r with ccr := Alu.signFlags width.double product r.ccr }.write width.double dst product

/-- The quotient without signs; the flags speak of the divisor. -/
def divideUnsigned (r : Registers) (width : Width) (src dst : UInt8) : Registers :=
  let divisor := r.read width src
  let dividend := r.read width.double dst
  let flagged := { r with ccr := { r.ccr with n := Alu.negative width divisor, z := divisor == 0 } }
  if divisor = 0 then flagged
  else flagged.writeQuotient width dst (dividend / divisor) (dividend % divisor)

/-- The quotient with signs, cut towards zero; `N` says that the signs differ. -/
def divideSigned (r : Registers) (width : Width) (src dst : UInt8) : Registers :=
  let divisor := (width.signExtend (r.read width src)).toInt32
  let dividend := (width.double.signExtend (r.read width.double dst)).toInt32
  let n := (divisor < 0 : Bool) != (dividend < 0 : Bool)
  let flagged := { r with ccr := { r.ccr with n := n, z := divisor == 0 } }
  if divisor = 0 then flagged
  else flagged.writeQuotient width dst (dividend / divisor).toUInt32 (dividend % divisor).toUInt32

def mulDiv (r : Registers) (op : MulDivOp) (width : Width) (src dst : UInt8) : Registers :=
  match op with
  | .mulxu => r.multiplyUnsigned width src dst
  | .mulxs => r.multiplySigned width src dst
  | .divxu => r.divideUnsigned width src dst
  | .divxs => r.divideSigned width src dst

end Registers

end H8S
