import H8S.Decoding.Basic

/-!
# Control flow

Opcodes `40` to `5F`: branches, jumps, returns, the trap, and the unsigned products and quotients.  Branches are relative to
the end of their own encoding, and their targets stay in the address space.
-/

namespace H8S.Decoding

/-- The target of a branch in an encoding of `len` bytes at `start`. -/
def branchTarget (start len disp : UInt32) : UInt32 := Address.trunc (start + len + disp)

/-- Opcodes `40` to `4F`: a branch with an 8-bit displacement. -/
def shortBranch (start : UInt32) (code : UInt8) : Decoding Operation := do
  let disp ← signedByte
  return .bcc (.ofCode code) (branchTarget start 2 disp) false

/-- Registers of a product or quotient; a long destination has only eight names. -/
def mulDiv (op : MulDivOp) (width : Width) : Decoding Operation := do
  let b ← next
  require (width == .byte || lowNibble b < 8)
  return .mulDiv op width (highNibble b) (lowNibble b)

/-- Where a jump goes, after an opcode whose low two bits are the mode. -/
def jumpTarget (mode : UInt8) : Decoding JumpTarget := do
  match mode with
  | 1 =>
    let b ← next
    require (b &&& 0x8F == 0)
    return .indirect (highNibble b)
  | 2 =>
    let hi ← next
    let lo ← word
    return .absolute (hi.toUInt32 <<< 16 ||| lo)
  | _ => return .stored (← next)

/-- Opcodes `50` to `5F`. -/
def page5 (start : UInt32) (code : UInt8) : Decoding Operation := do
  match code with
  | 0x0 => mulDiv .mulxu .byte
  | 0x1 => mulDiv .divxu .byte
  | 0x2 => mulDiv .mulxu .word
  | 0x3 => mulDiv .divxu .word
  | 0x4 =>
    require ((← next) == 0x70)
    return .rts
  | 0x6 =>
    require ((← next) == 0x70)
    return .rte
  | 0x5 =>
    let disp ← signedByte
    return .bsr (branchTarget start 2 disp) false
  | 0x7 =>
    let b ← next
    require (b &&& 0xCF == 0)
    return .trapa (highNibble b)
  | 0x8 =>
    let b ← next
    require (lowNibble b == 0)
    let disp ← signedWord
    return .bcc (.ofCode (highNibble b)) (branchTarget start 4 disp) true
  | 0xC =>
    let b ← next
    require (b == 0)
    let disp ← signedWord
    return .bsr (branchTarget start 4 disp) true
  | 0x9 | 0xA | 0xB => return .jmp (← jumpTarget (code &&& 3))
  | _ => return .jsr (← jumpTarget (code &&& 3))

end H8S.Decoding
