import H8S.Decoding.Flow
import H8S.Decoding.Moves

/-!
# The page after `01`

Control registers in memory, several registers at once, signed products and quotients, the long logic operations, sleep and
test-and-set follow the byte `01`, as do the long moves.
-/

namespace H8S.Decoding

/-- A control register and a word in memory, in the direction that `store` says. -/
def controlTransfer (reg : ControlReg) (store : Bool) (place : MemOperand) : Operation :=
  if store then .stc reg (.mem place) else .ldc (.mem place) reg

/-- `LDM` and `STM` of two to four registers, after the byte whose high half is the number of further registers. -/
def registerList (b : UInt8) : Decoding Operation := do
  require (lowNibble b == 0)
  let c ← next
  let d ← next
  require (c == 0x6D && d &&& 0x78 == 0x70)
  let reg := lowThree d
  let further := (b >>> 4) &&& 3
  if topBit d then
    require (reg + further < 8)
    return .stm reg (further + 1)
  else
    require (further ≤ reg)
    return .ldm reg (further + 1)

/-- Control registers in memory: the bytes after `01 40` and `01 41`. -/
def controlMemory (reg : ControlReg) (c d : UInt8) : Decoding Operation := do
  match c with
  | 0x6B =>
    require (d &&& 0x5F == 0)
    let place ← if d &&& 0x20 != 0 then address32 else address16
    return controlTransfer reg (topBit d) (.absolute place)
  | 0x6D =>
    require (lowNibble d == 0)
    return controlTransfer reg (topBit d) (stepping (topBit d) (highThree d))
  | 0x69 =>
    require (lowNibble d == 0)
    return controlTransfer reg (topBit d) (.indirect (highThree d))
  | 0x6F =>
    require (lowNibble d == 0)
    return controlTransfer reg (topBit d) (.displaced (← signedWord) (highThree d))
  | 0x78 =>
    require (lowNibble d == 0)
    let e ← next
    let f ← next
    require (e == 0x6B && f &&& 0x7F == 0x20)
    let disp ← long
    return controlTransfer reg (topBit f) (.displaced disp (highThree d))
  | _ => illegal

/-- `01 40` and `01 41`: the extended register also has its immediates here. -/
def controlPage (reg : ControlReg) : Decoding Operation := do
  let c ← next
  let d ← next
  match reg, c with
  | .exr, 0x04 => return .controlLogic .or d .exr
  | .exr, 0x05 => return .controlLogic .xor d .exr
  | .exr, 0x06 => return .controlLogic .and d .exr
  | .exr, 0x07 => return .ldc (.imm d.toUInt32) .exr
  | _, _ => controlMemory reg c d

/-- `01 C0` and `01 D0`: signed products and quotients. -/
def signedMulDiv (b : UInt8) : Decoding Operation := do
  require (lowNibble b == 0)
  let c ← next
  let d ← next
  let op (op : MulDivOp) (width : Width) : Decoding Operation := do
    require (width == .byte || lowNibble d < 8)
    return .mulDiv op width (highNibble d) (lowNibble d)
  match highNibble b, c with
  | 0xC, 0x50 => op .mulxs .byte
  | 0xC, 0x52 => op .mulxs .word
  | 0xD, 0x51 => op .divxs .byte
  | 0xD, 0x53 => op .divxs .word
  | _, _ => illegal

/-- `01 E0`: test and set. -/
def testAndSet (b : UInt8) : Decoding Operation := do
  require (b == 0xE0)
  let c ← next
  let d ← next
  require (c == 0x7B && d &&& 0x8F == 0x0C)
  return .tas (highThree d)

/-- `01 F0`: logic on longs. -/
def longLogic (b : UInt8) : Decoding Operation := do
  require (b == 0xF0)
  let c ← next
  let d ← next
  require (d &&& 0x88 == 0)
  match c with
  | 0x64 => return .alu .or .long (.reg (highNibble d)) (lowThree d)
  | 0x65 => return .alu .xor .long (.reg (highNibble d)) (lowThree d)
  | 0x66 => return .alu .and .long (.reg (highNibble d)) (lowThree d)
  | _ => illegal

/-- The bytes after `01`. -/
def page01 : Decoding Operation := do
  let b ← next
  match highNibble b with
  | 0x0 =>
    require (b == 0)
    longMove
  | 0x1 | 0x2 | 0x3 => registerList b
  | 0x4 =>
    match lowNibble b with
    | 0 => controlPage .ccr
    | 1 => controlPage .exr
    | _ => illegal
  | 0x8 =>
    require (b == 0x80)
    return .sleep
  | 0xC | 0xD => signedMulDiv b
  | 0xE => testAndSet b
  | 0xF => longLogic b
  | _ => illegal

end H8S.Decoding
