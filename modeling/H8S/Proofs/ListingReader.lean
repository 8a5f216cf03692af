import H8S.Listing.Text

/-!
# Reading a listing back

The text of an operation is a mnemonic, and after a space its operands with commas between them.  `Listing.read` takes such a
text apart.  What comes before the space names a `Stem` and perhaps a width, and what lies between commas is read piece by
piece (`Piece.read?`).  A displacement and its base are two pieces, as there is a comma between them, and are put together
again (`Piece.merged`).  From the mnemonic and the pieces the operation is assembled.
-/

namespace H8S

/-- The operation without the mark of a long displacement, which says how the target is encoded and not where it is. -/
def Operation.narrowed : Operation → Operation
  | .bcc cond target _ => .bcc cond target false
  | .bsr target _ => .bsr target false
  | op => op

/-! ### Digits -/

namespace Hex

/-- The value of a digit. -/
def value (c : Char) : Nat := if c.toNat < 'A'.toNat then c.toNat - '0'.toNat else c.toNat - 'A'.toNat + 10

/-- The number that some digits write. -/
def number (cs : List Char) : Nat := cs.foldl (fun n c => 16 * n + value c) 0

end Hex

namespace Listing

/-! ### Pieces -/

/-- What may lie between two commas. -/
inductive Piece where
  | register (width : Width) (id : UInt8)
  | control (reg : ControlReg)
  | count (n : UInt8)
  | immediate (value : UInt32)
  | target (addr : UInt32)
  | place (m : MemOperand)
  /-- A displacement up to the comma, and the base after it. -/
  | displacement (disp : UInt32)
  | base (id : UInt8)
  | stored (addr : UInt8)
  | range (first last : UInt8)
  | pulled
  | pushed
  deriving DecidableEq

namespace Piece

/-- The register number that a digit names. -/
def id (c : Char) : UInt8 := (Hex.value c).toUInt8

def word (cs : List Char) : UInt32 := (Hex.number cs).toUInt32

def read? : List Char → Option Piece
  | ['C', 'C', 'R'] => some (control .ccr)
  | ['E', 'X', 'R'] => some (control .exr)
  | ['R', d, 'H'] => some (register .byte (id d))
  | ['R', d, 'L'] => some (register .byte (8 + id d))
  | ['R', d] => some (register .word (id d))
  | ['E', 'R', d] => some (register .long (id d))
  | ['E', 'R', d, ')'] => some (base (id d))
  | ['E', d] => some (register .word (8 + id d))
  | '#' :: '0' :: 'x' :: cs => some (immediate (word cs))
  | ['#', d] => some (count (id d))
  | '0' :: 'x' :: cs => some (target (word cs))
  | ['@', 'S', 'P', '+'] => some pulled
  | ['@', '-', 'S', 'P'] => some pushed
  | ['@', 'E', 'R', d] => some (place (.indirect (id d)))
  | ['@', 'E', 'R', d, '+'] => some (place (.postInc (id d)))
  | ['@', '-', 'E', 'R', d] => some (place (.preDec (id d)))
  | '@' :: '0' :: 'x' :: cs => some (place (.absolute (word cs)))
  | '@' :: '@' :: '0' :: 'x' :: cs => some (stored (word cs).toUInt8)
  | '@' :: '(' :: '0' :: 'x' :: cs => some (displacement (word cs))
  | '@' :: '(' :: '-' :: '0' :: 'x' :: cs => some (displacement (0 - word cs))
  | ['(', 'E', 'R', d, '-', 'E', 'R', e, ')'] => some (range (id d) (id e))
  | _ => none

/-- The piece is put together with the one after it. -/
def awaitsBase : Piece → Bool
  | displacement _ => true
  | _ => false

/-- The pieces with each displacement put together with its base. -/
def merged : List Piece → List Piece
  | displacement disp :: base id :: ps => place (.displaced disp id) :: merged ps
  | p :: ps => p :: merged ps
  | [] => []

def operand? : Piece → Option Operand
  | register _ id => some (.reg id)
  | immediate value => some (.imm value)
  | place m => some (.mem m)
  | _ => none

def bitNumber? : Piece → Option BitNumber
  | count n => some (.imm n)
  | register _ id => some (.reg id)
  | _ => none

def bitTarget? : Piece → Option BitTarget
  | register _ id => some (.reg id)
  | place m => some (.mem m)
  | _ => none

def jumpTarget? : Piece → Option JumpTarget
  | place (.indirect p) => some (.indirect p)
  | place (.absolute addr) => some (.absolute addr)
  | stored addr => some (.stored addr)
  | _ => none

end Piece

/-! ### Mnemonics -/

/-- A mnemonic without the letter of its width. -/
inductive Stem where
  | nop | sleep | rts | rte | mov | push | pop
  | alu (op : AluOp)
  | adds | subs | inc | dec
  | unary (op : UnaryOp)
  | daa | das
  | mulDiv (op : MulDivOp)
  | shift (op : ShiftOp)
  | bit (op : BitOp)
  | branch (cond : Condition)
  | bsr | jmp | jsr | trapa | ldc | stc
  | controlLogic (op : LogicOp)
  | ldm | stm | tas | eepmov
  deriving DecidableEq

namespace Stem

def name : Stem → String
  | nop => "NOP"
  | sleep => "SLEEP"
  | rts => "RTS"
  | rte => "RTE"
  | mov => "MOV"
  | push => "PUSH"
  | pop => "POP"
  | alu op => aluName op
  | adds => "ADDS"
  | subs => "SUBS"
  | inc => "INC"
  | dec => "DEC"
  | unary op => unaryName op
  | daa => "DAA"
  | das => "DAS"
  | mulDiv op => mulDivName op
  | shift op => shiftName op
  | bit op => bitName op
  | branch cond => branchName cond
  | bsr => "BSR"
  | jmp => "JMP"
  | jsr => "JSR"
  | trapa => "TRAPA"
  | ldc => "LDC"
  | stc => "STC"
  | controlLogic op => logicName op
  | ldm => "LDM"
  | stm => "STM"
  | tas => "TAS"
  | eepmov => "EEPMOV"

def all : List Stem :=
  [nop, sleep, rts, rte, mov, push, pop, adds, subs, inc, dec, daa, das, bsr, jmp, jsr, trapa, ldc, stc, ldm, stm, tas, eepmov]
    ++ [.add, .addx, .sub, .subx, .cmp, .and, .or, .xor].map alu
    ++ [.neg, .not, .extu, .exts].map unary
    ++ [.mulxu, .mulxs, .divxu, .divxs].map mulDiv
    ++ [.shal, .shll, .shar, .shlr, .rotl, .rotxl, .rotr, .rotxr].map shift
    ++ [.bset, .bnot, .bclr, .btst, .bst, .bist, .bor, .bior, .bxor, .bixor, .band, .biand, .bld, .bild].map bit
    ++ [.always, .never, .hi, .ls, .cc, .cs, .ne, .eq, .vc, .vs, .pl, .mi, .ge, .lt, .gt, .le].map branch
    ++ [.and, .or, .xor].map controlLogic

def find? (cs : List Char) : Option Stem := all.find? fun stem => stem.name.toList == cs

theorem mem_all (stem : Stem) : stem ∈ all := by
  cases stem with
  | alu op => cases op <;> decide
  | unary op => cases op <;> decide
  | mulDiv op => cases op <;> decide
  | shift op => cases op <;> decide
  | bit op => cases op <;> decide
  | branch cond => cases cond <;> decide
  | controlLogic op => cases op <;> decide
  | _ => decide

theorem find?_all : ∀ stem ∈ all, find? stem.name.toList = some stem := by
  decide

end Stem

/-- The width that a letter stands for. -/
def widthOf? : List Char → Option Width
  | ['B'] => some .byte
  | ['W'] => some .word
  | ['L'] => some .long
  | _ => none

/-- A mnemonic with the width after its point, if there is one. -/
def mnemonic? (cs : List Char) : Option (Stem × Option Width) :=
  match cs.splitOn '.' with
  | [stem] => do return (← Stem.find? stem, none)
  | [stem, letter] => do return (← Stem.find? stem, some (← widthOf? letter))
  | _ => none

/-! ### Operations -/

/-- The operation with a mnemonic and operands, not wide if it is a branch. -/
def assemble : Stem × Option Width → List Piece → Option Operation
  | (.nop, none), [] => some .nop
  | (.sleep, none), [] => some .sleep
  | (.rts, none), [] => some .rts
  | (.rte, none), [] => some .rte
  | (.mov, some w), [src, dst] => do return .mov w (← src.operand?) (← dst.operand?)
  | (.push, some w), [.register _ r] => some (.mov w (.reg r) (.mem (.preDec stackPointer)))
  | (.pop, some w), [.register _ r] => some (.mov w (.mem (.postInc stackPointer)) (.reg r))
  | (.alu op, some w), [src, .register _ dst] => do return .alu op w (← src.operand?) dst
  | (.adds, none), [.count n, .register _ dst] => some (.adds n dst)
  | (.subs, none), [.count n, .register _ dst] => some (.subs n dst)
  | (.inc, some w), [.register _ dst] => some (.inc w 1 dst)
  | (.inc, some w), [.count n, .register _ dst] => some (.inc w n dst)
  | (.dec, some w), [.register _ dst] => some (.dec w 1 dst)
  | (.dec, some w), [.count n, .register _ dst] => some (.dec w n dst)
  | (.unary op, some w), [.register _ dst] => some (.unary op w dst)
  | (.daa, none), [.register _ dst] => some (.daa dst)
  | (.das, none), [.register _ dst] => some (.das dst)
  | (.mulDiv op, some w), [.register _ src, .register _ dst] => some (.mulDiv op w src dst)
  | (.shift op, some w), [.register _ dst] => some (.shift op w 1 dst)
  | (.shift op, some w), [.count n, .register _ dst] => some (.shift op w n dst)
  | (.bit op, none), [number, dst] => do return .bit op (← number.bitNumber?) (← dst.bitTarget?)
  | (.branch cond, none), [.target addr] => some (.bcc cond addr false)
  | (.bsr, none), [.target addr] => some (.bsr addr false)
  | (.jmp, none), [dst] => do return .jmp (← dst.jumpTarget?)
  | (.jsr, none), [dst] => do return .jsr (← dst.jumpTarget?)
  | (.trapa, none), [.count n] => some (.trapa n)
  | (.ldc, none), [.immediate value, .control dst] => some (.ldc (.imm value) dst)
  | (.ldc, some .byte), [.register _ id, .control dst] => some (.ldc (.reg id) dst)
  | (.ldc, some .word), [.place m, .control dst] => some (.ldc (.mem m) dst)
  | (.stc, some .byte), [.control src, .register _ id] => some (.stc src (.reg id))
  | (.stc, some .word), [.control src, .place m] => some (.stc src (.mem m))
  | (.controlLogic op, none), [.immediate value, .control dst] => some (.controlLogic op value.toUInt8 dst)
  | (.ldm, some .long), [.pulled, .range first last] => some (.ldm last (last + 1 - first))
  | (.stm, some .long), [.range first last, .pushed] => some (.stm first (last + 1 - first))
  | (.tas, none), [.place (.indirect p)] => some (.tas p)
  | (.eepmov, some w), [] => some (.eepmov w)
  | _, _ => none

/-- The operation that a text is of. -/
def read (text : String) : Option Operation :=
  match text.toList.splitOn ' ' with
  | [m] => do assemble (← mnemonic? m) []
  | [m, operands] => do assemble (← mnemonic? m) (Piece.merged (← (operands.splitOn ',').mapM Piece.read?))
  | _ => none

end Listing

end H8S
