import H8S.Decoding.Basic

/-!
# Bit manipulation

Bit operations on registers take one byte after the opcode.  On memory they end in two bytes, the first of which repeats the
opcode of the register form; the opcode before the address tells writing forms from testing ones.
-/

namespace H8S.Decoding

/-- The operations that a register or an immediate number can select. -/
def plainBitOp (code : UInt8) : BitOp :=
  match code with
  | 0x0 => .bset
  | 0x1 => .bnot
  | 0x2 => .bclr
  | _ => .btst

/-- The operations between the carry and a bit. -/
def carryBitOp (code : UInt8) (inverted : Bool) : BitOp :=
  match code, inverted with
  | 0x4, false => .bor
  | 0x4, true => .bior
  | 0x5, false => .bxor
  | 0x5, true => .bixor
  | 0x6, false => .band
  | 0x6, true => .biand
  | _, false => .bld
  | _, true => .bild

/-- The stores of the carry into a bit. -/
def storeBitOp (inverted : Bool) : BitOp := if inverted then .bist else .bst

/-- Opcodes `70` to `77`: a numbered bit of a register. -/
def numberedRegisterBit (code : UInt8) : Decoding Operation := do
  let b ← next
  let target := BitTarget.reg (lowNibble b)
  if code < 4 then
    require (!topBit b)
    return .bit (plainBitOp code) (.imm (highThree b)) target
  else
    return .bit (carryBitOp code (topBit b)) (.imm (highThree b)) target

/-- Opcodes `60` to `63`: a bit of a register, numbered by a register. -/
def indexedRegisterBit (code : UInt8) : Decoding Operation := do
  let b ← next
  return .bit (plainBitOp code) (.reg (highNibble b)) (.reg (lowNibble b))

/-- Opcode `67`: the carry into a bit of a register. -/
def carryIntoRegisterBit : Decoding Operation := do
  let b ← next
  return .bit (storeBitOp (topBit b)) (.imm (highThree b)) (.reg (lowNibble b))

/-- The last two bytes of a bit operation that writes memory. -/
def writingMemoryBit (target : MemOperand) : Decoding Operation := do
  let c ← next
  let d ← next
  require (lowNibble d == 0)
  let numbered (op : BitOp) : Operation := .bit op (.imm (highThree d)) (.mem target)
  let indexed (op : BitOp) : Operation := .bit op (.reg (highNibble d)) (.mem target)
  match c with
  | 0x60 | 0x61 | 0x62 => return indexed (plainBitOp (lowNibble c))
  | 0x67 => return numbered (storeBitOp (topBit d))
  | 0x70 | 0x71 | 0x72 =>
    require (!topBit d)
    return numbered (plainBitOp (lowNibble c))
  | _ => illegal

/-- The last two bytes of a bit operation that only reads memory. -/
def testingMemoryBit (target : MemOperand) : Decoding Operation := do
  let c ← next
  let d ← next
  require (lowNibble d == 0)
  let numbered (op : BitOp) : Operation := .bit op (.imm (highThree d)) (.mem target)
  match c with
  | 0x63 => return .bit .btst (.reg (highNibble d)) (.mem target)
  | 0x73 =>
    require (!topBit d)
    return numbered .btst
  | 0x74 | 0x75 | 0x76 | 0x77 => return numbered (carryBitOp (lowNibble c) (topBit d))
  | _ => illegal

def memoryBit (target : MemOperand) (writes : Bool) : Decoding Operation :=
  if writes then writingMemoryBit target else testingMemoryBit target

end H8S.Decoding
