import H8S.Decoding.System

/-!
# Register arithmetic

Opcodes `00` to `1F`: arithmetic, logic and shifts between registers, decimal adjustment, and the control registers.
-/

namespace H8S.Decoding

/-- Two long registers, of which the source is marked by the top bit of its half. -/
def longPair (b : UInt8) : Decoding (UInt8 × UInt8) := do
  require (b &&& 0x88 == 0x80)
  return (highThree b, lowThree b)

/-- A byte whose high half is zero before the form on one byte register, and has its top bit set before the form on two
long registers. -/
def byteOrLongs (one : UInt8 → Operation) (two : UInt8 → UInt8 → Operation) : Decoding Operation := do
  let b ← next
  if topBit b then
    let (src, dst) ← longPair b
    return two src dst
  else
    require (highNibble b == 0)
    return one (lowNibble b)

/-- A control register and a byte register in one byte. -/
def controlAndRegister : Decoding (ControlReg × UInt8) := do
  let b ← next
  match highNibble b with
  | 0 => return (.ccr, lowNibble b)
  | 1 => return (.exr, lowNibble b)
  | _ => illegal

/-- Opcodes `0B` and `1B`: small constants added to or taken from a register. -/
def smallSteps (pointer : UInt8 → UInt8 → Operation) (counter : Width → UInt8 → UInt8 → Operation) :
    Decoding Operation := do
  let b ← next
  let reg := lowNibble b
  match highNibble b with
  | 0x0 =>
    require (reg < 8)
    return pointer 1 reg
  | 0x8 =>
    require (reg < 8)
    return pointer 2 reg
  | 0x9 =>
    require (reg < 8)
    return pointer 4 reg
  | 0x5 => return counter .word 1 reg
  | 0xD => return counter .word 2 reg
  | 0x7 =>
    require (reg < 8)
    return counter .long 1 reg
  | 0xF =>
    require (reg < 8)
    return counter .long 2 reg
  | _ => illegal

/-- Opcodes `00` to `0F`. -/
def page0 (code : UInt8) : Decoding Operation := do
  match code with
  | 0x0 =>
    require ((← next) == 0)
    return .nop
  | 0x1 => page01
  | 0x2 =>
    let (control, reg) ← controlAndRegister
    return .stc control (.reg reg)
  | 0x3 =>
    let (control, reg) ← controlAndRegister
    return .ldc (.reg reg) control
  | 0x4 => return .controlLogic .or (← next) .ccr
  | 0x5 => return .controlLogic .xor (← next) .ccr
  | 0x6 => return .controlLogic .and (← next) .ccr
  | 0x7 => return .ldc (.imm (← next).toUInt32) .ccr
  | 0x8 => aluRegisters .add .byte
  | 0x9 => aluRegisters .add .word
  | 0xA => byteOrLongs (.inc .byte 1) fun src dst => .alu .add .long (.reg src) dst
  | 0xB => smallSteps .adds .inc
  | 0xC =>
    let b ← next
    return .mov .byte (.reg (highNibble b)) (.reg (lowNibble b))
  | 0xD =>
    let b ← next
    return .mov .word (.reg (highNibble b)) (.reg (lowNibble b))
  | 0xE => aluRegisters .addx .byte
  | _ => byteOrLongs .daa fun src dst => .mov .long (.reg src) (.reg dst)

/-- The shift or rotation of an opcode; `high` is the top bit of the byte after it. -/
def shiftOp (code : UInt8) (high : Bool) : ShiftOp :=
  match code, high with
  | 0x0, true => .shal
  | 0x0, false => .shll
  | 0x1, true => .shar
  | 0x1, false => .shlr
  | 0x2, true => .rotl
  | 0x2, false => .rotxl
  | _, true => .rotr
  | _, false => .rotxr

/-- Opcodes `10` to `13`: shifts and rotations by one or two places. -/
def shift (code : UInt8) : Decoding Operation := do
  let b ← next
  let operation (width : Width) : Operation :=
    .shift (shiftOp code (topBit b)) width (if b &&& 0x40 != 0 then 2 else 1) (lowNibble b)
  match (b >>> 4) &&& 3 with
  | 0 => return operation .byte
  | 1 => return operation .word
  | 3 =>
    require (lowNibble b < 8)
    return operation .long
  | _ => illegal

/-- Opcode `17`: complement, negation and extension of one register. -/
def unary : Decoding Operation := do
  let b ← next
  let dst := lowNibble b
  let long (op : UnaryOp) : Decoding Operation := do
    require (dst < 8)
    return .unary op .long dst
  match highNibble b with
  | 0x0 => return .unary .not .byte dst
  | 0x1 => return .unary .not .word dst
  | 0x3 => long .not
  | 0x5 => return .unary .extu .word dst
  | 0x7 => long .extu
  | 0x8 => return .unary .neg .byte dst
  | 0x9 => return .unary .neg .word dst
  | 0xB => long .neg
  | 0xD => return .unary .exts .word dst
  | 0xF => long .exts
  | _ => illegal

/-- Opcodes `10` to `1F`. -/
def page1 (code : UInt8) : Decoding Operation := do
  match code with
  | 0x0 | 0x1 | 0x2 | 0x3 => shift code
  | 0x4 => aluRegisters .or .byte
  | 0x5 => aluRegisters .xor .byte
  | 0x6 => aluRegisters .and .byte
  | 0x7 => unary
  | 0x8 => aluRegisters .sub .byte
  | 0x9 => aluRegisters .sub .word
  | 0xA => byteOrLongs (.dec .byte 1) fun src dst => .alu .sub .long (.reg src) dst
  | 0xB => smallSteps .subs .dec
  | 0xC => aluRegisters .cmp .byte
  | 0xD => aluRegisters .cmp .word
  | 0xE => aluRegisters .subx .byte
  | _ => byteOrLongs .das fun src dst => .alu .cmp .long (.reg src) dst

end H8S.Decoding
