import H8S.Listing.Names
import H8S.Listing.Symbols
import H8S.Text.Hex

/-!
# Text of an operation

`Listing.text` is the mnemonic with its width and the operands.  Pushes and pops of words and longs have mnemonics of their
own; displacements are written with a sign, and addresses of on-chip registers by name where the options say so.
-/

namespace H8S.Listing

structure Options where
  /-- Lines show the bytes of the encoding. -/
  showBytes : Bool := false
  /-- Addresses of on-chip registers are written by name. -/
  symbolicNames : Bool := true
  /-- Traced lines are indented by the depth of calls. -/
  indentCalls : Bool := true
  deriving DecidableEq, Inhabited

def stackPointer : UInt8 := 7

/-- A mnemonic with the letter of its width. -/
def sized (mnemonic : String) (width : Width) : String := mnemonic ++ "." ++ width.suffix

/-- A displacement as a signed number; the text is a magnitude after an optional sign. -/
def signedText (disp : UInt32) : String :=
  if disp &&& 0x80000000 = 0 then "0x" ++ Hex.minimal disp.toNat else "-0x" ++ Hex.minimal (0 - disp).toNat

def addressText (o : Options) (addr : UInt32) : String :=
  match if o.symbolicNames then registerName? addr else none with
  | some name => "@" ++ name
  | none => "@0x" ++ Hex.address addr

def memText (o : Options) : MemOperand → String
  | .indirect r => "@" ++ longRegister r
  | .postInc r => "@" ++ longRegister r ++ "+"
  | .preDec r => "@-" ++ longRegister r
  | .displaced disp base => "@(" ++ signedText disp ++ "," ++ longRegister base ++ ")"
  | .absolute addr => addressText o addr

/-- An immediate has as many digits as its width. -/
def immediateText (width : Width) (value : UInt32) : String :=
  "#0x" ++ Hex.padded (2 * width.bytes.toNat) (value &&& width.mask).toNat

def operandText (o : Options) (width : Width) : Operand → String
  | .reg id => registerOf width id
  | .imm value => immediateText width value
  | .mem place => memText o place

def jumpText : JumpTarget → String
  | .indirect r => "@" ++ longRegister r
  | .absolute addr => "@0x" ++ Hex.address addr
  | .stored addr => "@@0x" ++ Hex.minimal addr.toNat

def registerRange (first last : UInt8) : String := "(" ++ longRegister first ++ "-" ++ longRegister last ++ ")"

/-- A step by one byte does not name its amount. -/
def stepText (width : Width) (amount dst : UInt8) : String :=
  if width = .byte then registerOf width dst else "#" ++ toString amount.toNat ++ "," ++ registerOf width dst

def bitNumberText : BitNumber → String
  | .imm n => "#" ++ toString n.toNat
  | .reg id => byteRegister id

def bitTargetText (o : Options) : BitTarget → String
  | .reg id => byteRegister id
  | .mem place => memText o place

def moveText (o : Options) (width : Width) (src dst : Operand) : String :=
  let plain := sized "MOV" width ++ " " ++ operandText o width src ++ "," ++ operandText o width dst
  match src, dst with
  | .reg r, .mem (.preDec p) =>
    if width ≠ .byte ∧ p = stackPointer then sized "PUSH" width ++ " " ++ registerOf width r else plain
  | .mem (.postInc p), .reg r =>
    if width ≠ .byte ∧ p = stackPointer then sized "POP" width ++ " " ++ registerOf width r else plain
  | _, _ => plain

def loadControlText (o : Options) (src : Operand) (dst : ControlReg) : String :=
  match src with
  | .reg id => "LDC.B " ++ byteRegister id ++ "," ++ controlName dst
  | .imm value => "LDC #0x" ++ Hex.byte value.toUInt8 ++ "," ++ controlName dst
  | .mem place => "LDC.W " ++ memText o place ++ "," ++ controlName dst

def storeControlText (o : Options) (src : ControlReg) (dst : Operand) : String :=
  match dst with
  | .mem place => "STC.W " ++ controlName src ++ "," ++ memText o place
  | other => "STC.B " ++ controlName src ++ "," ++ operandText o .byte other

/-- Mnemonic and operands. -/
def text (o : Options) : Operation → String
  | .nop => "NOP"
  | .sleep => "SLEEP"
  | .rts => "RTS"
  | .rte => "RTE"
  | .mov width src dst => moveText o width src dst
  | .alu op width src dst => sized (aluName op) width ++ " " ++ operandText o width src ++ "," ++ registerOf width dst
  | .adds amount dst => "ADDS #" ++ toString amount.toNat ++ "," ++ longRegister dst
  | .subs amount dst => "SUBS #" ++ toString amount.toNat ++ "," ++ longRegister dst
  | .inc width amount dst => sized "INC" width ++ " " ++ stepText width amount dst
  | .dec width amount dst => sized "DEC" width ++ " " ++ stepText width amount dst
  | .unary op width dst => sized (unaryName op) width ++ " " ++ registerOf width dst
  | .daa dst => "DAA " ++ byteRegister dst
  | .das dst => "DAS " ++ byteRegister dst
  | .mulDiv op width src dst =>
    sized (mulDivName op) width ++ " " ++ registerOf width src ++ "," ++ registerOf width.double dst
  | .shift op width count dst =>
    sized (shiftName op) width ++ " " ++
      (if count = 1 then "" else "#" ++ toString count.toNat ++ ",") ++ registerOf width dst
  | .bit op number target => bitName op ++ " " ++ bitNumberText number ++ "," ++ bitTargetText o target
  | .bcc cond target _ => branchName cond ++ " 0x" ++ Hex.address target
  | .bsr target _ => "BSR 0x" ++ Hex.address target
  | .jmp target => "JMP " ++ jumpText target
  | .jsr target => "JSR " ++ jumpText target
  | .trapa n => "TRAPA #" ++ toString n.toNat
  | .ldc src dst => loadControlText o src dst
  | .stc src dst => storeControlText o src dst
  | .controlLogic op imm dst => logicName op ++ " #0x" ++ Hex.byte imm ++ "," ++ controlName dst
  | .ldm last count => "LDM.L @SP+," ++ registerRange (last + 1 - count) last
  | .stm first count => "STM.L " ++ registerRange first (first + count - 1) ++ ",@-SP"
  | .tas pointer => "TAS @" ++ longRegister pointer
  | .eepmov width => sized "EEPMOV" width

end H8S.Listing
