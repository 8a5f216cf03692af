import H8S.Width

/-!
# Instructions

An `Instruction` is a decoded operation with the address and the bytes of its encoding; decoder, core and listing all speak
of this one value.  Register numbers select the byte, word or long view that the width of the operation calls for.
`Operation.internalCycles` is what an operation costs beyond its memory accesses.
-/

namespace H8S

/-- How a memory operand finds its address; the pointers are numbers of long registers. -/
inductive MemOperand where
  | indirect (pointer : UInt8)
  | postInc (pointer : UInt8)
  | preDec (pointer : UInt8)
  /-- The displacement is already extended to 32 bits. -/
  | displaced (disp : UInt32) (base : UInt8)
  | absolute (addr : UInt32)
  deriving DecidableEq, Inhabited

inductive Operand where
  | reg (id : UInt8)
  | imm (value : UInt32)
  | mem (operand : MemOperand)
  deriving DecidableEq, Inhabited

inductive AluOp where
  | add | addx | sub | subx | cmp | and | or | xor
  deriving DecidableEq, Inhabited

inductive UnaryOp where
  | neg | not | extu | exts
  deriving DecidableEq, Inhabited

inductive MulDivOp where
  | mulxu | mulxs | divxu | divxs
  deriving DecidableEq, Inhabited

inductive ShiftOp where
  | shal | shll | shar | shlr | rotl | rotxl | rotr | rotxr
  deriving DecidableEq, Inhabited

inductive BitOp where
  | bset | bnot | bclr | btst | bst | bist | bor | bior | bxor | bixor | band | biand | bld | bild
  deriving DecidableEq, Inhabited

/-- Whether the operation writes its target byte back. -/
def BitOp.modifies : BitOp → Bool
  | .bset | .bnot | .bclr | .bst | .bist => true
  | _ => false

/-- The number of the bit: given in the instruction, or the low three bits of a byte register. -/
inductive BitNumber where
  | imm (n : UInt8)
  | reg (id : UInt8)
  deriving DecidableEq, Inhabited

inductive BitTarget where
  | reg (id : UInt8)
  | mem (operand : MemOperand)
  deriving DecidableEq, Inhabited

/-- Branch conditions, in the order of their codes. -/
inductive Condition where
  | always | never | hi | ls | cc | cs | ne | eq | vc | vs | pl | mi | ge | lt | gt | le
  deriving DecidableEq, Inhabited

/-- The condition with a code, of which only the low four bits count. -/
def Condition.ofCode (code : UInt8) : Condition :=
  match (code &&& 0x0F).toNat with
  | 0x0 => always
  | 0x1 => never
  | 0x2 => hi
  | 0x3 => ls
  | 0x4 => cc
  | 0x5 => cs
  | 0x6 => ne
  | 0x7 => eq
  | 0x8 => vc
  | 0x9 => vs
  | 0xA => pl
  | 0xB => mi
  | 0xC => ge
  | 0xD => lt
  | 0xE => gt
  | _ => le

inductive JumpTarget where
  | indirect (pointer : UInt8)
  | absolute (addr : UInt32)
  /-- The target is the long stored at this low address. -/
  | stored (addr : UInt8)
  deriving DecidableEq, Inhabited

inductive ControlReg where
  | ccr | exr
  deriving DecidableEq, Inhabited

inductive LogicOp where
  | and | or | xor
  deriving DecidableEq, Inhabited

inductive Operation where
  | nop
  | sleep
  | mov (width : Width) (src dst : Operand)
  | alu (op : AluOp) (width : Width) (src : Operand) (dst : UInt8)
  | adds (amount dst : UInt8)
  | subs (amount dst : UInt8)
  | inc (width : Width) (amount dst : UInt8)
  | dec (width : Width) (amount dst : UInt8)
  | unary (op : UnaryOp) (width : Width) (dst : UInt8)
  | daa (dst : UInt8)
  | das (dst : UInt8)
  /-- The width is that of the source; the destination is twice as wide. -/
  | mulDiv (op : MulDivOp) (width : Width) (src dst : UInt8)
  | shift (op : ShiftOp) (width : Width) (count dst : UInt8)
  | bit (op : BitOp) (number : BitNumber) (target : BitTarget)
  /-- A branch is `wide` when its displacement takes 16 bits. -/
  | bcc (cond : Condition) (target : UInt32) (wide : Bool)
  | bsr (target : UInt32) (wide : Bool)
  | jmp (target : JumpTarget)
  | jsr (target : JumpTarget)
  | rts
  | rte
  | trapa (n : UInt8)
  | ldc (src : Operand) (dst : ControlReg)
  | stc (src : ControlReg) (dst : Operand)
  | controlLogic (op : LogicOp) (imm : UInt8) (dst : ControlReg)
  /-- Pops `count` registers, `last` first. -/
  | ldm (last count : UInt8)
  /-- Pushes `count` registers, `first` first. -/
  | stm (first count : UInt8)
  | tas (pointer : UInt8)
  | eepmov (width : Width)
  deriving DecidableEq, Inhabited

/-- Whether the operand moves its pointer. -/
def Operand.steps : Operand → Bool
  | .mem (.postInc _) | .mem (.preDec _) => true
  | _ => false

/-- Cycles spent inside the core, on top of the costs of the accesses. -/
def Operation.internalCycles : Operation → UInt32
  | mulDiv _ .byte _ _ => 12
  | mulDiv _ _ _ _ => 20
  | mov _ src dst => if src.steps || dst.steps then 2 else 0
  | ldc (.mem (.postInc _)) _ => 2
  | stc _ (.mem (.preDec _)) => 2
  | ldm _ _ | stm _ _ => 1
  | bcc _ _ true | bsr _ true => 2
  | rts | rte => 2
  | jmp (.absolute _) | jmp (.stored _) => 2
  | jsr (.absolute _) => 2
  | trapa _ => 4
  | _ => 0

structure Instruction where
  addr : UInt32
  op : Operation
  /-- The encoding. -/
  bytes : List UInt8
  deriving DecidableEq, Inhabited

namespace Instruction

def len (i : Instruction) : UInt32 := i.bytes.length.toUInt32

/-- The address after the encoding, which may be the end of the address space. -/
def nextPc (i : Instruction) : UInt32 := i.addr + i.len

end Instruction

end H8S
