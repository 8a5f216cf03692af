import H8S.Instruction

/-!
# Names of registers and operations

The spellings of the assembler language.  Register numbers count only by their low bits, as they do in the register file.
-/

namespace H8S.Listing

/-- `R0H` to `R7H`, then `R0L` to `R7L`. -/
def byteRegister (id : UInt8) : String :=
  "R" ++ toString (id.toNat % 8) ++ (if id.toNat % 16 < 8 then "H" else "L")

/-- `R0` to `R7`, then `E0` to `E7`. -/
def wordRegister (id : UInt8) : String :=
  (if id.toNat % 16 < 8 then "R" else "E") ++ toString (id.toNat % 8)

def longRegister (id : UInt8) : String := "ER" ++ toString (id.toNat % 8)

def registerOf (width : Width) (id : UInt8) : String :=
  match width with
  | .byte => byteRegister id
  | .word => wordRegister id
  | .long => longRegister id

def controlName : ControlReg → String
  | .ccr => "CCR"
  | .exr => "EXR"

def aluName : AluOp → String
  | .add => "ADD"
  | .addx => "ADDX"
  | .sub => "SUB"
  | .subx => "SUBX"
  | .cmp => "CMP"
  | .and => "AND"
  | .or => "OR"
  | .xor => "XOR"

def unaryName : UnaryOp → String
  | .neg => "NEG"
  | .not => "NOT"
  | .extu => "EXTU"
  | .exts => "EXTS"

def mulDivName : MulDivOp → String
  | .mulxu => "MULXU"
  | .mulxs => "MULXS"
  | .divxu => "DIVXU"
  | .divxs => "DIVXS"

def shiftName : ShiftOp → String
  | .shal => "SHAL"
  | .shll => "SHLL"
  | .shar => "SHAR"
  | .shlr => "SHLR"
  | .rotl => "ROTL"
  | .rotxl => "ROTXL"
  | .rotr => "ROTR"
  | .rotxr => "ROTXR"

def bitName : BitOp → String
  | .bset => "BSET"
  | .bnot => "BNOT"
  | .bclr => "BCLR"
  | .btst => "BTST"
  | .bst => "BST"
  | .bist => "BIST"
  | .bor => "BOR"
  | .bior => "BIOR"
  | .bxor => "BXOR"
  | .bixor => "BIXOR"
  | .band => "BAND"
  | .biand => "BIAND"
  | .bld => "BLD"
  | .bild => "BILD"

def branchName : Condition → String
  | .always => "BRA"
  | .never => "BRN"
  | .hi => "BHI"
  | .ls => "BLS"
  | .cc => "BCC"
  | .cs => "BCS"
  | .ne => "BNE"
  | .eq => "BEQ"
  | .vc => "BVC"
  | .vs => "BVS"
  | .pl => "BPL"
  | .mi => "BMI"
  | .ge => "BGE"
  | .lt => "BLT"
  | .gt => "BGT"
  | .le => "BLE"

def logicName : LogicOp → String
  | .and => "ANDC"
  | .or => "ORC"
  | .xor => "XORC"

end H8S.Listing
