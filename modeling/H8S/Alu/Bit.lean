import H8S.ConditionCodes
import H8S.Instruction

/-!
# Operations on one bit

An operation either writes its byte back and leaves the flags, or reads the bit into a flag and leaves the byte
(`BitOp.modifies`).  Inverted forms take the complement of the bit.
-/

namespace H8S

namespace BitOp

/-- A byte with the bits of a mask set or cleared. -/
def assign (byte mask : UInt8) (value : Bool) : UInt8 := if value then byte ||| mask else byte &&& ~~~ mask

/-- The byte that is written back. -/
def updated (op : BitOp) (byte mask : UInt8) (carry : Bool) : UInt8 :=
  match op with
  | .bset => assign byte mask true
  | .bclr => assign byte mask false
  | .bnot => byte ^^^ mask
  | .bst => assign byte mask carry
  | .bist => assign byte mask (!carry)
  | _ => byte

/-- The flags after a bit was read. -/
def observed (op : BitOp) (bit : Bool) (f : ConditionCodes) : ConditionCodes :=
  match op with
  | .btst => { f with z := !bit }
  | .bld => { f with c := bit }
  | .bild => { f with c := !bit }
  | .bor => { f with c := f.c || bit }
  | .bior => { f with c := f.c || !bit }
  | .bxor => { f with c := f.c ^^ bit }
  | .bixor => { f with c := f.c ^^ !bit }
  | .band => { f with c := f.c && bit }
  | .biand => { f with c := f.c && !bit }
  | _ => f

end BitOp

/-- The byte with one bit, of which the number counts modulo eight. -/
def bitMask (n : UInt8) : UInt8 := 1 <<< (n &&& 7)

/-- Whether a branch is taken. -/
def Condition.holds (cond : Condition) (f : ConditionCodes) : Bool :=
  match cond with
  | always => true
  | never => false
  | hi => !(f.c || f.z)
  | ls => f.c || f.z
  | cc => !f.c
  | cs => f.c
  | ne => !f.z
  | eq => f.z
  | vc => !f.v
  | vs => f.v
  | pl => !f.n
  | mi => f.n
  | ge => f.n == f.v
  | lt => f.n != f.v
  | gt => !f.z && f.n == f.v
  | le => f.z || f.n != f.v

end H8S
