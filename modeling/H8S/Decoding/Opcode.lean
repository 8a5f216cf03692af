import H8S.Decoding.Arithmetic

/-!
# The instruction set

`Decoding.operation` walks the whole instruction set by the halves of the first byte.  `Instruction.decode` runs it on a
source of bytes; the lowest bit of the program counter is ignored.
-/

namespace H8S

namespace Decoding

/-- A byte at an 8-bit absolute address. -/
def bytePage (store : Bool) (reg : UInt8) : Decoding Operation := do
  return transfer .byte store reg (.absolute (Address.ofPageOffset (← next)))

/-- A byte immediate. -/
def byteImmediate (op : AluOp) (dst : UInt8) : Decoding Operation := do
  return .alu op .byte (.imm (← next).toUInt32) dst

/-- The operation that lies at `start`. -/
def operation (start : UInt32) : Decoding Operation := do
  let b ← next
  let low := lowNibble b
  match highNibble b with
  | 0x0 => page0 low
  | 0x1 => page1 low
  | 0x2 => bytePage false low
  | 0x3 => bytePage true low
  | 0x4 => shortBranch start low
  | 0x5 => page5 start low
  | 0x6 => page6 low
  | 0x7 => page7 low
  | 0x8 => byteImmediate .add low
  | 0x9 => byteImmediate .addx low
  | 0xA => byteImmediate .cmp low
  | 0xB => byteImmediate .subx low
  | 0xC => byteImmediate .or low
  | 0xD => byteImmediate .xor low
  | 0xE => byteImmediate .and low
  | _ => return .mov .byte (.imm (← next).toUInt32) (.reg low)

end Decoding

/-- Decodes the instruction at `pc`, fetching each byte of it once and in order. -/
def Instruction.decode {m : Type → Type} [Monad m] [MonadExcept Fault m] (fetch : UInt32 → m UInt8) (pc : UInt32) :
    m Instruction := do
  let start := Address.even pc
  let (op, bytes) ← (Decoding.operation start).run fetch start []
  return ⟨start, op, bytes⟩

/-- A byte of the code that lies at `start`; there is nothing around it. -/
def Decoding.fetchCode (start : UInt32) (code : Array UInt8) (addr : UInt32) : Except Fault UInt8 :=
  match code[(addr - start).toNat]? with
  | some b => .ok b
  | none => .error (.outOfRange addr ⟨.read, 8⟩)

/-- Decodes the instruction at `addr` from code that lies there. -/
def Instruction.ofCode (addr : UInt32) (code : Array UInt8) : Except Fault Instruction :=
  Instruction.decode (Decoding.fetchCode (Address.even addr) code) addr

end H8S
