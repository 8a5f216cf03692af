import H8S.Decoding.BitOps

/-!
# Data transfer

Opcodes `60` to `7F` move data between registers and memory and hold the immediates; the bit operations that share their
pages are in `Decoding.BitOps`.  Long moves follow the bytes `01 00`.  In all forms the top bit of the byte that names the
registers marks a store.
-/

namespace H8S.Decoding

/-- A move between a register and memory, in the direction that `store` says. -/
def transfer (width : Width) (store : Bool) (reg : UInt8) (place : MemOperand) : Operation :=
  if store then .mov width (.reg reg) (.mem place) else .mov width (.mem place) (.reg reg)

/-- A pointer moves down before a store and up after a load. -/
def stepping (store : Bool) (pointer : UInt8) : MemOperand :=
  if store then .preDec pointer else .postInc pointer

/-- Two registers in one byte, the source high. -/
def aluRegisters (op : AluOp) (width : Width) : Decoding Operation := do
  let b ← next
  return .alu op width (.reg (highNibble b)) (lowNibble b)

/-- A word at an absolute address. -/
def wordAbsolute : Decoding Operation := do
  let b ← next
  match highNibble b with
  | 0x0 | 0x8 => return transfer .word (topBit b) (lowNibble b) (.absolute (← address16))
  | 0x2 | 0xA => return transfer .word (topBit b) (lowNibble b) (.absolute (← address32))
  | _ => illegal

/-- A byte, or a bit of a byte, at an absolute address. -/
def byteAbsolute : Decoding Operation := do
  let b ← next
  match highNibble b with
  | 0x0 | 0x8 => return transfer .byte (topBit b) (lowNibble b) (.absolute (← address16))
  | 0x2 | 0xA => return transfer .byte (topBit b) (lowNibble b) (.absolute (← address32))
  | 0x1 =>
    require (lowThree b == 0)
    memoryBit (.absolute (← address16)) (b &&& 8 != 0)
  | 0x3 =>
    require (lowThree b == 0)
    memoryBit (.absolute (← address32)) (b &&& 8 != 0)
  | _ => illegal

/-- Opcodes `60` to `6F`. -/
def page6 (code : UInt8) : Decoding Operation := do
  match code with
  | 0x0 | 0x1 | 0x2 | 0x3 => indexedRegisterBit code
  | 0x4 => aluRegisters .or .word
  | 0x5 => aluRegisters .xor .word
  | 0x6 => aluRegisters .and .word
  | 0x7 => carryIntoRegisterBit
  | 0xA => byteAbsolute
  | 0xB => wordAbsolute
  | _ =>
    let width : Width := if code &&& 1 == 0 then .byte else .word
    let r ← next
    let pointer := highThree r
    let store := topBit r
    match code with
    | 0x8 | 0x9 => return transfer width store (lowNibble r) (.indirect pointer)
    | 0xC | 0xD => return transfer width store (lowNibble r) (stepping store pointer)
    | _ => return transfer width store (lowNibble r) (.displaced (← signedWord) pointer)

/-- Opcode `78`: a byte or word at a 32-bit displacement. -/
def displaced32 : Decoding Operation := do
  let r ← next
  require (r &&& 0x8F == 0)
  let x ← next
  require (x &&& 0xFE == 0x6A)
  let y ← next
  require (highThree y == 2)
  let disp ← long
  let width : Width := if x &&& 1 != 0 then .word else .byte
  return transfer width (topBit y) (lowNibble y) (.displaced disp (highNibble r))

/-- The operation of an immediate; none is a move. -/
def immediateOp (code : UInt8) : Option (Option AluOp) :=
  match code with
  | 0x0 => some none
  | 0x1 => some (some .add)
  | 0x2 => some (some .cmp)
  | 0x3 => some (some .sub)
  | 0x4 => some (some .or)
  | 0x5 => some (some .xor)
  | 0x6 => some (some .and)
  | _ => none

/-- Opcodes `79` and `7A`: a word or long immediate. -/
def immediate (width : Width) : Decoding Operation := do
  let b ← next
  let dst := lowNibble b
  require (width != .long || dst < 8)
  match immediateOp (highNibble b) with
  | none => illegal
  | some op =>
    let value ← if width = .long then long else word
    match op with
    | none => return .mov width (.imm value) (.reg dst)
    | some op => return .alu op width (.imm value) dst

/-- Opcode `7B`: the block move. -/
def blockMove : Decoding Operation := do
  match ← next with
  | 0x5C =>
    require ((← word) == 0x598F)
    return .eepmov .byte
  | 0xD4 =>
    require ((← word) == 0x598F)
    return .eepmov .word
  | _ => illegal

/-- Opcodes `70` to `7F`. -/
def page7 (code : UInt8) : Decoding Operation := do
  match code with
  | 0x8 => displaced32
  | 0x9 => immediate .word
  | 0xA => immediate .long
  | 0xB => blockMove
  | 0xC | 0xD =>
    let b ← next
    require (b &&& 0x8F == 0)
    memoryBit (.indirect (highNibble b)) (code == 0xD)
  | 0xE | 0xF =>
    let b ← next
    memoryBit (.absolute (Address.ofPageOffset b)) (code == 0xF)
  | _ => numberedRegisterBit code

/-- A long at a 32-bit displacement, after the byte that names the base. -/
def longDisplaced32 (base : UInt8) : Decoding Operation := do
  let e ← next
  let f ← next
  require (e == 0x6B && f &&& 0x78 == 0x20)
  let disp ← long
  return transfer .long (topBit f) (lowThree f) (.displaced disp base)

/-- Long moves, after `01 00`. -/
def longMove : Decoding Operation := do
  let c ← next
  let d ← next
  match c with
  | 0x6B =>
    require (d &&& 0x58 == 0)
    let place ← if d &&& 0x20 != 0 then address32 else address16
    return transfer .long (topBit d) (lowThree d) (.absolute place)
  | 0x69 =>
    require (d &&& 0x08 == 0)
    return transfer .long (topBit d) (lowThree d) (.indirect (highThree d))
  | 0x6D =>
    require (d &&& 0x08 == 0)
    return transfer .long (topBit d) (lowThree d) (stepping (topBit d) (highThree d))
  | 0x6F =>
    require (d &&& 0x08 == 0)
    return transfer .long (topBit d) (lowThree d) (.displaced (← signedWord) (highThree d))
  | 0x78 =>
    require (d &&& 0x8F == 0)
    longDisplaced32 (highThree d)
  | _ => illegal

end H8S.Decoding
