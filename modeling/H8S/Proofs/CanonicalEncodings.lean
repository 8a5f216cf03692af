import H8S.Proofs.Assembling
import H8S.Proofs.Leaves

/-!
# Canonical encodings

Decoding does not look at all bits of an encoding: `Operation.withoutIgnored` clears those that it ignores.  What is left of
an encoding after that is what its operation is assembled to (`operation_canonical`), so that an operation and a length
determine all other bits.  The proof goes through the pages of the instruction set leaf by leaf.  At each leaf the fields
that the operation keeps and the checks on the way there together give back every byte.
-/

namespace H8S

namespace Encoding

/-- The bytes with one of them cleared, if they are so many. -/
def clearAt (len place : Nat) (bytes : List UInt8) : List UInt8 := if bytes.length = len then bytes.set place 0 else bytes

end Encoding

open Encoding

/-- An encoding of an operation without the bits that are ignored: the top byte of a 32-bit absolute address, and the top
bit of the byte with the base where a control register is moved at a 32-bit displacement. -/
def Operation.withoutIgnored (op : Operation) (bytes : List UInt8) : List UInt8 :=
  match op with
  | .mov .long (.mem (.absolute _)) _ | .mov .long _ (.mem (.absolute _)) => clearAt 8 4 bytes
  | .mov _ (.mem (.absolute _)) _ | .mov _ _ (.mem (.absolute _)) => clearAt 6 2 bytes
  | .bit _ _ (.mem (.absolute _)) => clearAt 8 2 bytes
  | .ldc (.mem (.absolute _)) _ | .stc _ (.mem (.absolute _)) => clearAt 8 4 bytes
  | .ldc (.mem (.displaced _ _)) _ | .stc _ (.mem (.displaced _ _)) =>
    if bytes.length = 10 then bytes.modify 3 (· &&& 0x7F) else bytes
  | _ => bytes

/-- Without the bits that are ignored, the bytes are those that the operation is assembled to. -/
def Operation.Canonical (start : UInt32) (bytes : List UInt8) (op : Operation) : Prop :=
  op.encode start bytes.length = op.withoutIgnored bytes

namespace Decoding

open Operation

variable {start : UInt32}

/-! ### Moves as operations -/

theorem encode_transfer (start : UInt32) (len : Nat) (width : Width) (store : Bool) (reg : UInt8) (place : MemOperand) :
    (transfer width store reg place).encode start len = moved width store reg place len := by
  cases store with
  | false => cases width <;> rfl
  | true => cases width <;> rfl

theorem withoutIgnored_transfer (width : Width) (store : Bool) (reg : UInt8) (place : MemOperand) (bytes : List UInt8) :
    (transfer width store reg place).withoutIgnored bytes =
      match place, width with
      | .absolute _, .long => clearAt 8 4 bytes
      | .absolute _, _ => clearAt 6 2 bytes
      | _, _ => bytes := by
  cases store with
  | false => cases width <;> cases place <;> rfl
  | true => cases width <;> cases place <;> rfl

theorem encode_controlTransfer (start : UInt32) (len : Nat) (reg : ControlReg) (store : Bool) (place : MemOperand) :
    (controlTransfer reg store place).encode start len = prefixed (controlByte reg) store 0 place len := by
  cases store <;> rfl

theorem withoutIgnored_controlTransfer (reg : ControlReg) (store : Bool) (place : MemOperand) (bytes : List UInt8) :
    (controlTransfer reg store place).withoutIgnored bytes =
      match place with
      | .absolute _ => clearAt 8 4 bytes
      | .displaced _ _ => if bytes.length = 10 then bytes.modify 3 (· &&& 0x7F) else bytes
      | _ => bytes := by
  cases store with
  | false => cases place <;> rfl
  | true => cases place <;> rfl

theorem move_stepping (wordBit : UInt8) (store : Bool) (reg pointer : UInt8) (len : Nat) :
    move wordBit store reg (stepping store pointer) len = [0x6C + wordBit, marked store (halves pointer reg)] := by
  cases store <;> rfl

theorem withoutIgnored_stepping (width : Width) (store : Bool) (reg pointer : UInt8) (bytes : List UInt8) :
    (transfer width store reg (stepping store pointer)).withoutIgnored bytes = bytes := by
  cases store with
  | false => cases width <;> rfl
  | true => cases width <;> rfl

theorem withoutIgnored_controlStepping (reg : ControlReg) (store : Bool) (pointer : UInt8) (bytes : List UInt8) :
    (controlTransfer reg store (stepping store pointer)).withoutIgnored bytes = bytes := by
  cases store <;> rfl

/-! ### Arithmetic -/

/-- What is to be shown of a page is shown of each of its opcodes. -/
private theorem forall_nibble {P : UInt8 → Prop} (h0 : P 0x0) (h1 : P 0x1) (h2 : P 0x2) (h3 : P 0x3) (h4 : P 0x4)
    (h5 : P 0x5) (h6 : P 0x6) (h7 : P 0x7) (h8 : P 0x8) (h9 : P 0x9) (hA : P 0xA) (hB : P 0xB) (hC : P 0xC) (hD : P 0xD)
    (hE : P 0xE) (hF : P 0xF) (code : UInt8) (hc : code < 16) : P code := by
  have h := mem_nibbles code hc
  simp only [List.mem_cons, List.not_mem_nil, or_false] at h
  rcases h with h | h | h | h | h | h | h | h | h | h | h | h | h | h | h | h <;> rw [h] <;> assumption

private theorem aluRegisters_canonical (op : AluOp) (width : Width) (code : UInt8)
    (h : ∀ src dst, aluRegister op width src dst = [code, halves src dst]) :
    Leaves (Canonical start) [code] (aluRegisters op width) := by
  simp [aluRegisters, Canonical, withoutIgnored, encode, h]

private theorem longPair_byte : ∀ b, b &&& 0x88 = 0x80 → 0x80 ||| halves (highThree b) (lowThree b) = b :=
  forall_byte (by decide)

private theorem byteOrLongs_canonical (code : UInt8) (one : UInt8 → Operation) (two : UInt8 → UInt8 → Operation)
    (h₁ : ∀ dst, Canonical start [code, dst] (one dst))
    (h₂ : ∀ src dst, Canonical start [code, 0x80 ||| halves src dst] (two src dst)) :
    Leaves (Canonical start) [code] (byteOrLongs one two) := by
  simp only [byteOrLongs, longPair, leaves_bind, leaves_next, leaves_ite, leaves_require, leaves_pure]
  intro b
  constructor
  · intro _ hb
    have hb := longPair_byte b (by simpa using hb)
    have h := h₂ (highThree b) (lowThree b)
    rw [hb] at h
    exact h
  · intro _ hb
    have hb := lowNibble_of_high b (by simpa using hb)
    rw [hb]
    exact h₁ b

private theorem controlAndRegister_canonical (code : UInt8) :
    Leaves (fun bytes x => [code, halves (controlNumber x.1) x.2] = bytes) [code] controlAndRegister := by
  simp only [controlAndRegister, leaves_bind, leaves_next]
  intro b
  split
  · simp [controlNumber, halves_of_high ‹highNibble b = _›]
  · simp [controlNumber, halves_of_high ‹highNibble b = _›]
  · trivial

private theorem smallSteps_canonical (code : UInt8) (pointer : UInt8 → UInt8 → Operation)
    (counter : Width → UInt8 → UInt8 → Operation)
    (hp : ∀ amount dst bytes, pointerStep code amount dst = bytes → Canonical start bytes (pointer amount dst))
    (hc : ∀ width amount dst bytes, step (code - 1) width amount dst = bytes →
      Canonical start bytes (counter width amount dst)) :
    Leaves (Canonical start) [code] (smallSteps pointer counter) := by
  simp only [smallSteps, leaves_bind, leaves_next]
  intro b
  split
  case h_8 => trivial
  case h_1 =>
    have hb := lowNibble_of_high b ‹_›
    simp only [leaves_bind, leaves_require, leaves_pure]
    exact fun _ => hp _ _ _ (by simp [pointerStep, hb])
  case h_2 | h_3 =>
    have hb := halves_of_high ‹highNibble b = _›
    simp only [leaves_bind, leaves_require, leaves_pure]
    exact fun _ => hp _ _ _ (by simp [pointerStep, hb])
  case h_4 | h_5 =>
    have hb := halves_of_high ‹highNibble b = _›
    exact hc _ _ _ _ (by simp [step, hb])
  case h_6 | h_7 =>
    have hb := halves_of_high ‹highNibble b = _›
    simp only [leaves_bind, leaves_require, leaves_pure]
    exact fun _ => hc _ _ _ _ (by simp [step, hb])

private theorem shiftCode_shiftOp (high : Bool) : ∀ code < 4, shiftCode (shiftOp code high) = (0x10 + code, high) := by
  cases high with
  | false => exact forall_byte (by decide)
  | true => exact forall_byte (by decide)

/-- The byte after the opcode of a shift: direction, count and width, and a register. -/
private theorem shifted_byte (width : Width) : ∀ b : UInt8, (b >>> 4) &&& 3 = widthHalf width →
    marked (topBit b) (halves (if (if b &&& 0x40 != 0 then (2 : UInt8) else 1) = 2 then 4 + widthHalf width
      else widthHalf width) (lowNibble b)) = b := by
  cases width with
  | byte => exact forall_byte (by decide)
  | word => exact forall_byte (by decide)
  | long => exact forall_byte (by decide)

private theorem shift_canonical (code : UInt8) (hc : code < 4) : Leaves (Canonical start) [0x10 + code] (shift code) := by
  have leaf : ∀ width (b : UInt8), (b >>> 4) &&& 3 = widthHalf width → Canonical start [0x10 + code, b]
      (.shift (shiftOp code (topBit b)) width (if b &&& 0x40 != 0 then 2 else 1) (lowNibble b)) := by
    intro width b hb
    simp only [Canonical, withoutIgnored, encode, shifted, shiftCode_shiftOp _ code hc, shifted_byte width b hb]
  simp only [shift, leaves_bind, leaves_next]
  intro b
  split
  · exact leaf .byte b ‹_›
  · exact leaf .word b ‹_›
  · simp only [leaves_bind, leaves_require, leaves_pure]
    exact fun _ => leaf .long b ‹_›
  · trivial

private theorem unary_canonical : Leaves (Canonical start) [0x17] unary := by
  simp only [unary, leaves_bind, leaves_next]
  intro b
  split
  case h_11 => trivial
  all_goals
    have hb := halves_of_high ‹highNibble b = _›
    simp [Canonical, withoutIgnored, encode, unaryHalf, hb]

private theorem page0_canonical (h₁ : Leaves (Canonical start) [0x01] page01) :
    ∀ code < 16, Leaves (Canonical start) [halves 0 code] (page0 code) := by
  refine forall_nibble ?_ ?_ ?_ ?_ ?_ ?_ ?_ ?_ ?_ ?_ ?_ ?_ ?_ ?_ ?_ ?_
  · simp [page0, Canonical, withoutIgnored, encode, halves]
  · exact h₁
  · exact (leaves_bind _ _).2 (controlAndRegister_canonical 0x02)
  · exact (leaves_bind _ _).2 (controlAndRegister_canonical 0x03)
  · simp [page0, Canonical, withoutIgnored, encode, controlImmediate, logicCode, halves]
  · simp [page0, Canonical, withoutIgnored, encode, controlImmediate, logicCode, halves]
  · simp [page0, Canonical, withoutIgnored, encode, controlImmediate, logicCode, halves]
  · simp [page0, Canonical, withoutIgnored, encode, controlImmediate, halves]
  · exact aluRegisters_canonical .add .byte _ fun _ _ => rfl
  · exact aluRegisters_canonical .add .word _ fun _ _ => rfl
  · exact byteOrLongs_canonical 0x0A (.inc .byte 1) (fun src dst => .alu .add .long (.reg src) dst) (fun _ => rfl)
      fun _ _ => rfl
  · exact smallSteps_canonical 0x0B .adds .inc (fun _ _ _ h => h) (fun _ _ _ _ h => h)
  · show Leaves (Canonical start) [0x0C] _
    simp [page0, Canonical, withoutIgnored, encode, copied]
  · show Leaves (Canonical start) [0x0D] _
    simp [page0, Canonical, withoutIgnored, encode, copied]
  · exact aluRegisters_canonical .addx .byte _ fun _ _ => rfl
  · exact byteOrLongs_canonical 0x0F .daa (fun src dst => .mov .long (.reg src) (.reg dst)) (fun _ => rfl) fun _ _ => rfl

private theorem page1_canonical : ∀ code < 16, Leaves (Canonical start) [halves 1 code] (page1 code) := by
  refine forall_nibble ?_ ?_ ?_ ?_ ?_ ?_ ?_ ?_ ?_ ?_ ?_ ?_ ?_ ?_ ?_ ?_
  · exact shift_canonical 0 (by decide)
  · exact shift_canonical 1 (by decide)
  · exact shift_canonical 2 (by decide)
  · exact shift_canonical 3 (by decide)
  · exact aluRegisters_canonical .or .byte _ fun _ _ => rfl
  · exact aluRegisters_canonical .xor .byte _ fun _ _ => rfl
  · exact aluRegisters_canonical .and .byte _ fun _ _ => rfl
  · exact unary_canonical
  · exact aluRegisters_canonical .sub .byte _ fun _ _ => rfl
  · exact aluRegisters_canonical .sub .word _ fun _ _ => rfl
  · exact byteOrLongs_canonical 0x1A (.dec .byte 1) (fun src dst => .alu .sub .long (.reg src) dst) (fun _ => rfl)
      fun _ _ => rfl
  · exact smallSteps_canonical 0x1B .subs .dec (fun _ _ _ h => h) (fun _ _ _ _ h => h)
  · exact aluRegisters_canonical .cmp .byte _ fun _ _ => rfl
  · exact aluRegisters_canonical .cmp .word _ fun _ _ => rfl
  · exact aluRegisters_canonical .subx .byte _ fun _ _ => rfl
  · exact byteOrLongs_canonical 0x1F .das (fun src dst => .alu .cmp .long (.reg src) dst) (fun _ => rfl) fun _ _ => rfl

/-! ### Control flow -/

private theorem conditionCode_ofCode : ∀ code < 16, conditionCode (.ofCode code) = code := forall_byte (by decide)

private theorem shortBranch_canonical (code : UInt8) (hc : code < 16) :
    Leaves (Canonical start) [halves 4 code] (shortBranch start code) := by
  simp [shortBranch, signedByte, Canonical, withoutIgnored, encode, toUInt8_signExtend, conditionCode_ofCode code hc]

private theorem mulDiv_canonical (op : MulDivOp) (width : Width) (code : UInt8)
    (h : ∀ src dst, product op width src dst = [code, halves src dst]) :
    Leaves (Canonical start) [code] (mulDiv op width) := by
  simp [mulDiv, Canonical, withoutIgnored, encode, h]

private theorem jumpTarget_indirect (opcode : UInt8) :
    Leaves (fun bytes t => jump opcode t = bytes) [opcode] (jumpTarget 1) := by
  simp only [jumpTarget, jump, leaves_bind, leaves_next, leaves_require, leaves_pure]
  intro b hb
  rw [halves_of_pointer b (by simpa using hb)]
  rfl

private theorem jumpTarget_absolute (opcode : UInt8) :
    Leaves (fun bytes t => jump opcode t = bytes) [opcode + 1] (jumpTarget 2) := by
  simp [jumpTarget, jump, addressBytes_jump]

private theorem jumpTarget_stored (opcode : UInt8) :
    Leaves (fun bytes t => jump opcode t = bytes) [opcode + 2] (jumpTarget 3) := by
  simp [jumpTarget, jump]

private theorem trap_byte : ∀ b, b &&& 0xCF = 0 → halves (highNibble b) 0 = b := forall_byte (by decide)

private theorem page5_canonical : ∀ code < 16, Leaves (Canonical start) [halves 5 code] (page5 start code) := by
  refine forall_nibble ?_ ?_ ?_ ?_ ?_ ?_ ?_ ?_ ?_ ?_ ?_ ?_ ?_ ?_ ?_ ?_
  · exact mulDiv_canonical .mulxu .byte _ fun _ _ => rfl
  · exact mulDiv_canonical .divxu .byte _ fun _ _ => rfl
  · exact mulDiv_canonical .mulxu .word _ fun _ _ => rfl
  · exact mulDiv_canonical .divxu .word _ fun _ _ => rfl
  · show Leaves (Canonical start) [0x54] _
    simp [page5, Canonical, withoutIgnored, encode]
  · show Leaves (Canonical start) [0x55] _
    simp [page5, signedByte, Canonical, withoutIgnored, encode, toUInt8_signExtend]
  · show Leaves (Canonical start) [0x56] _
    simp [page5, Canonical, withoutIgnored, encode]
  · show Leaves (Canonical start) [0x57] _
    simpa [page5, Canonical, withoutIgnored, encode] using trap_byte
  · show Leaves (Canonical start) [0x58] _
    simp only [page5, signedWord, leaves_bind, leaves_next, leaves_word, leaves_require, leaves_pure, beq_iff_eq]
    intro b hb hi lo
    simp [Canonical, withoutIgnored, encode, wordBytes_signExtend, wordBytes_word, conditionCode_ofCode _ (highNibble_lt b),
      halves_of_low hb]
  · exact (leaves_bind _ _).2 (jumpTarget_indirect 0x59)
  · exact (leaves_bind _ _).2 (jumpTarget_absolute 0x59)
  · exact (leaves_bind _ _).2 (jumpTarget_stored 0x59)
  · show Leaves (Canonical start) [0x5C] _
    simp [page5, signedWord, Canonical, withoutIgnored, encode, wordBytes_signExtend, wordBytes_word]
  · exact (leaves_bind _ _).2 (jumpTarget_indirect 0x5D)
  · exact (leaves_bind _ _).2 (jumpTarget_absolute 0x5D)
  · exact (leaves_bind _ _).2 (jumpTarget_stored 0x5D)

/-! ### Bit manipulation -/

private theorem bitSelection_store (mark : Bool) (n low : UInt8) :
    bitSelection (storeBitOp mark) (.imm n) low = [0x67, marked mark (halves n low)] := by
  cases mark <;> rfl

private theorem bitSelection_plain {code : UInt8} (hc : code = 0 ∨ code = 1 ∨ code = 2 ∨ code = 3) (n low : UInt8) :
    bitSelection (plainBitOp code) (.imm n) low = [0x70 + code, marked false (halves n low)] := by
  rcases hc with rfl | rfl | rfl | rfl <;> rfl

private theorem bitSelection_carry {code : UInt8} (hc : code = 4 ∨ code = 5 ∨ code = 6 ∨ code = 7) (mark : Bool)
    (n low : UInt8) : bitSelection (carryBitOp code mark) (.imm n) low = [0x70 + code, marked mark (halves n low)] := by
  rcases hc with rfl | rfl | rfl | rfl <;> cases mark <;> rfl

private theorem indexedRegisterBit_canonical (code : UInt8)
    (h : ∀ id low, bitSelection (plainBitOp code) (.reg id) low = [0x60 + code, halves id low]) :
    Leaves (Canonical start) [0x60 + code] (indexedRegisterBit code) := by
  simp [indexedRegisterBit, Canonical, withoutIgnored, encode, h]

private theorem carryIntoRegisterBit_canonical : Leaves (Canonical start) [0x67] carryIntoRegisterBit := by
  simp [carryIntoRegisterBit, Canonical, withoutIgnored, encode, bitSelection_store]

private theorem plainRegisterBit_canonical (code : UInt8) (hc : code = 0 ∨ code = 1 ∨ code = 2 ∨ code = 3) :
    Leaves (Canonical start) [0x70 + code] (numberedRegisterBit code) := by
  have h : code < 4 := by rcases hc with rfl | rfl | rfl | rfl <;> decide
  simp only [numberedRegisterBit, h, if_true, leaves_bind, leaves_next, leaves_require, leaves_pure,
    Bool.not_eq_true']
  intro b ht
  have hb := marked_halves b
  rw [ht] at hb
  simp only [Canonical, withoutIgnored, encode, bitOperands, bitSelection_plain hc, hb]
  rfl

private theorem carryRegisterBit_canonical (code : UInt8) (hc : code = 4 ∨ code = 5 ∨ code = 6 ∨ code = 7) :
    Leaves (Canonical start) [0x70 + code] (numberedRegisterBit code) := by
  have h : ¬code < 4 := by rcases hc with rfl | rfl | rfl | rfl <;> decide
  simp only [numberedRegisterBit, h, if_false, leaves_bind, leaves_next, leaves_pure]
  intro b
  simp only [Canonical, withoutIgnored, encode, bitOperands, bitSelection_carry hc, marked_halves]
  rfl

private theorem memoryBit_canonical {bytes : List UInt8} (place : MemOperand) (writes : Bool)
    (h : ∀ op number c d, bitPlace writes place (bytes.length + 2) ++ [c, d] =
      (Operation.bit op number (.mem place)).withoutIgnored (bytes ++ [c] ++ [d])) :
    Leaves (Canonical start) bytes (memoryBit place writes) := by
  have leaf : ∀ op number c d, op.modifies = writes → bitSelection op number 0 = [c, d] →
      Canonical start (bytes ++ [c] ++ [d]) (.bit op number (.mem place)) := by
    intro op number c d hop hs
    have hlen : (bytes ++ [c] ++ [d]).length = bytes.length + 2 := by simp
    rw [Canonical, ← h, hlen, ← hs, ← hop]
    rfl
  have indexed : ∀ {c d op}, lowNibble d = 0 → op.modifies = writes →
      bitSelection op (.reg (highNibble d)) 0 = [c, halves (highNibble d) 0] →
      Canonical start (bytes ++ [c] ++ [d]) (.bit op (.reg (highNibble d)) (.mem place)) := by
    intro c d op hd hop hs
    rw [halves_of_low hd] at hs
    exact leaf _ _ _ _ hop hs
  have numbered : ∀ {c d op}, lowNibble d = 0 → op.modifies = writes →
      bitSelection op (.imm (highThree d)) 0 = [c, marked (topBit d) (halves (highThree d) 0)] →
      Canonical start (bytes ++ [c] ++ [d]) (.bit op (.imm (highThree d)) (.mem place)) := by
    intro c d op hd hop hs
    rw [marked_of_low hd] at hs
    exact leaf _ _ _ _ hop hs
  cases writes with
  | true =>
    simp only [memoryBit, if_true, writingMemoryBit, leaves_bind, leaves_next, leaves_require, beq_iff_eq]
    intro c d hd
    split
    case h_8 => trivial
    case h_1 | h_2 | h_3 => exact indexed hd rfl rfl
    case h_4 => exact numbered hd (by cases topBit d <;> rfl) (bitSelection_store _ _ _)
    all_goals
      simp only [leaves_bind, leaves_require, Bool.not_eq_true', leaves_pure]
      intro ht
      exact numbered hd rfl (by rw [ht]; rfl)
  | false =>
    simp only [memoryBit, Bool.false_eq_true, if_false, testingMemoryBit, leaves_bind, leaves_next, leaves_require,
      beq_iff_eq]
    intro c d hd
    split
    case h_1 => exact indexed hd rfl rfl
    case h_2 =>
      simp only [leaves_bind, leaves_require, Bool.not_eq_true', leaves_pure]
      intro ht
      exact numbered hd rfl (by rw [ht]; rfl)
    case h_7 => trivial
    all_goals exact numbered hd (by cases topBit d <;> rfl) (bitSelection_carry (by decide) _ _ _)

/-! ### Data transfer -/

/-- Bytes and words at absolute addresses have the same forms. -/
private theorem absolute16_canonical (wide : Bool) {b : UInt8} (hb : highThree b = 0) (hi lo : UInt8) :
    Canonical start [if wide then 0x6B else 0x6A, b, hi, lo]
      (transfer (if wide then .word else .byte) (topBit b) (lowNibble b)
        (.absolute (Address.trunc (Width.word.signExtend (hi.toUInt32 <<< 8 ||| lo.toUInt32))))) := by
  cases wide <;>
    simp [Canonical, encode_transfer, withoutIgnored_transfer, moved, move, clearAt, marked_lowNibble b hb,
      wordBytes_trunc, wordBytes_signExtend, wordBytes_word]

private theorem absolute32_canonical (wide : Bool) {b : UInt8} (hb : highThree b = 2) (x₁ x₂ x₃ x₄ : UInt8) :
    Canonical start [if wide then 0x6B else 0x6A, b, x₁, x₂, x₃, x₄]
      (transfer (if wide then .word else .byte) (topBit b) (lowNibble b) (.absolute
        (Address.trunc ((x₁.toUInt32 <<< 8 ||| x₂.toUInt32) <<< 16 ||| (x₃.toUInt32 <<< 8 ||| x₄.toUInt32))))) := by
  cases wide <;>
    simp [Canonical, encode_transfer, withoutIgnored_transfer, moved, move, clearAt, marked_of_high hb, addressBytes_long]

private theorem wordAbsolute_canonical : Leaves (Canonical start) [0x6B] wordAbsolute := by
  simp only [wordAbsolute, leaves_bind, leaves_next]
  intro b
  split
  case h_1 | h_2 =>
    have hb : highThree b = 0 := by rw [highThree_eq, ‹highNibble b = _›]; rfl
    exact absolute16_canonical true hb
  case h_3 | h_4 =>
    have hb : highThree b = 2 := by rw [highThree_eq, ‹highNibble b = _›]; rfl
    exact absolute32_canonical true hb
  case h_5 => trivial

/-- The byte after `6A` that leads to a bit of a byte. -/
private theorem bitPlace_byte : ∀ b, lowThree b = 0 →
    (highNibble b = 1 → (if b &&& 8 != 0 then 0x18 else 0x10) = b) ∧
      (highNibble b = 3 → (if b &&& 8 != 0 then 0x38 else 0x30) = b) := forall_byte (by decide)

private theorem byteAbsolute_canonical : Leaves (Canonical start) [0x6A] byteAbsolute := by
  simp only [byteAbsolute, leaves_bind, leaves_next]
  intro b
  split
  case h_1 | h_2 =>
    have hb : highThree b = 0 := by rw [highThree_eq, ‹highNibble b = _›]; rfl
    exact absolute16_canonical false hb
  case h_3 | h_4 =>
    have hb : highThree b = 2 := by rw [highThree_eq, ‹highNibble b = _›]; rfl
    exact absolute32_canonical false hb
  case h_5 =>
    simp only [address16, signedWord, leaves_bind, leaves_require, leaves_word, leaves_pure, beq_iff_eq]
    intro hl hi lo
    have hb := (bitPlace_byte b hl).1 ‹_›
    refine memoryBit_canonical _ _ fun op number c d => ?_
    simpa [bitPlace, withoutIgnored, clearAt, wordBytes_trunc, wordBytes_signExtend, wordBytes_word] using hb
  case h_6 =>
    simp only [address32, leaves_bind, leaves_require, leaves_long, leaves_pure, beq_iff_eq]
    intro hl _ _ _ _
    have hb := (bitPlace_byte b hl).2 ‹_›
    refine memoryBit_canonical _ _ fun op number c d => ?_
    simpa [bitPlace, withoutIgnored, clearAt, addressBytes_long] using hb
  case h_7 => trivial

private theorem page6_canonical : ∀ code < 16, Leaves (Canonical start) [halves 6 code] (page6 code) := by
  refine forall_nibble ?_ ?_ ?_ ?_ ?_ ?_ ?_ ?_ ?_ ?_ ?_ ?_ ?_ ?_ ?_ ?_
  · exact indexedRegisterBit_canonical 0 fun _ _ => rfl
  · exact indexedRegisterBit_canonical 1 fun _ _ => rfl
  · exact indexedRegisterBit_canonical 2 fun _ _ => rfl
  · exact indexedRegisterBit_canonical 3 fun _ _ => rfl
  · exact aluRegisters_canonical .or .word _ fun _ _ => rfl
  · exact aluRegisters_canonical .xor .word _ fun _ _ => rfl
  · exact aluRegisters_canonical .and .word _ fun _ _ => rfl
  · exact carryIntoRegisterBit_canonical
  · have width : (0x8 &&& 1 : UInt8) = 0 := rfl
    show Leaves (Canonical start) [0x68] _
    simp [page6, width, Canonical, encode_transfer, withoutIgnored_transfer, moved, move]
  · have width : (0x9 &&& 1 : UInt8) = 1 := rfl
    show Leaves (Canonical start) [0x69] _
    simp [page6, width, Canonical, encode_transfer, withoutIgnored_transfer, moved, move]
  · exact byteAbsolute_canonical
  · exact wordAbsolute_canonical
  · have width : (0xC &&& 1 : UInt8) = 0 := rfl
    show Leaves (Canonical start) [0x6C] _
    simp [page6, width, Canonical, encode_transfer, withoutIgnored_stepping, moved, move_stepping]
  · have width : (0xD &&& 1 : UInt8) = 1 := rfl
    show Leaves (Canonical start) [0x6D] _
    simp [page6, width, Canonical, encode_transfer, withoutIgnored_stepping, moved, move_stepping]
  · have width : (0xE &&& 1 : UInt8) = 0 := rfl
    show Leaves (Canonical start) [0x6E] _
    simp [page6, width, signedWord, Canonical, encode_transfer, withoutIgnored_transfer, moved, move,
      wordBytes_signExtend, wordBytes_word]
  · have width : (0xF &&& 1 : UInt8) = 1 := rfl
    show Leaves (Canonical start) [0x6F] _
    simp [page6, width, signedWord, Canonical, encode_transfer, withoutIgnored_transfer, moved, move,
      wordBytes_signExtend, wordBytes_word]

private theorem displaced32_canonical : Leaves (Canonical start) [0x78] displaced32 := by
  simp only [displaced32, leaves_bind, leaves_next, leaves_require, leaves_long, leaves_pure, beq_iff_eq]
  intro r hr x hx y hy a b c d
  have hr := halves_of_pointer r hr
  have hy := marked_of_high hy
  have hx : x = 0x6A ∨ x = 0x6B := by
    revert x hx
    exact forall_byte (by decide)
  rcases hx with rfl | rfl
  · have width : (0x6A &&& 1 : UInt8) = 0 := rfl
    simp [width, Canonical, encode_transfer, withoutIgnored_transfer, moved, move, hr, hy, longBytes_long]
  · have width : (0x6B &&& 1 : UInt8) = 1 := rfl
    simp [width, Canonical, encode_transfer, withoutIgnored_transfer, moved, move, hr, hy, longBytes_long]

private theorem immediateOp_number {code : UInt8} {op : Option AluOp} (h : immediateOp code = some op) :
    code = op.elim 0 aluImmediate := by
  unfold immediateOp at h
  split at h <;> cases h <;> rfl

private theorem immediate_canonical (width : Width) (hw : width ≠ .byte) :
    Leaves (Canonical start) [if width = .long then 0x7A else 0x79] (immediate width) := by
  simp only [immediate, leaves_bind, leaves_next, leaves_require]
  intro b _
  cases hop : immediateOp (highNibble b) with
  | none => trivial
  | some op =>
    have hb := halves_of_high (immediateOp_number hop)
    cases width with
    | byte => exact (hw rfl).elim
    | word => cases op <;> simpa [Canonical, withoutIgnored, encode, Encoding.immediate, wordBytes_word] using hb
    | long => cases op <;> simpa [Canonical, withoutIgnored, encode, Encoding.immediate, longBytes_long] using hb

private theorem blockMove_canonical : Leaves (Canonical start) [0x7B] blockMove := by
  have words : ∀ hi lo : UInt8, hi.toUInt32 <<< 8 ||| lo.toUInt32 = 0x598F → [hi, lo] = [0x59, 0x8F] := by
    intro hi lo h
    rw [← wordBytes_word, h]
    rfl
  simp only [blockMove, leaves_bind, leaves_next]
  intro b
  split
  · simp only [leaves_bind, leaves_word, leaves_require, leaves_pure, beq_iff_eq]
    intro hi lo h
    exact congrArg ([0x7B, 0x5C] ++ ·) (words hi lo h).symm
  · simp only [leaves_bind, leaves_word, leaves_require, leaves_pure, beq_iff_eq]
    intro hi lo h
    exact congrArg ([0x7B, 0xD4] ++ ·) (words hi lo h).symm
  · trivial

private theorem page7_canonical : ∀ code < 16, Leaves (Canonical start) [halves 7 code] (page7 code) := by
  refine forall_nibble ?_ ?_ ?_ ?_ ?_ ?_ ?_ ?_ ?_ ?_ ?_ ?_ ?_ ?_ ?_ ?_
  · exact plainRegisterBit_canonical 0 (by decide)
  · exact plainRegisterBit_canonical 1 (by decide)
  · exact plainRegisterBit_canonical 2 (by decide)
  · exact plainRegisterBit_canonical 3 (by decide)
  · exact carryRegisterBit_canonical 4 (by decide)
  · exact carryRegisterBit_canonical 5 (by decide)
  · exact carryRegisterBit_canonical 6 (by decide)
  · exact carryRegisterBit_canonical 7 (by decide)
  · exact displaced32_canonical
  · exact immediate_canonical .word (by decide)
  · exact immediate_canonical .long (by decide)
  · exact blockMove_canonical
  · show Leaves (Canonical start) [0x7C] _
    simp only [page7, leaves_bind, leaves_next, leaves_require, beq_iff_eq]
    intro b hb
    have hb := halves_of_pointer b hb
    exact memoryBit_canonical _ _ fun _ _ _ _ => by simp [bitPlace, withoutIgnored, hb]
  · show Leaves (Canonical start) [0x7D] _
    simp only [page7, leaves_bind, leaves_next, leaves_require, beq_iff_eq]
    intro b hb
    have hb := halves_of_pointer b hb
    exact memoryBit_canonical _ _ fun _ _ _ _ => by simp [bitPlace, withoutIgnored, hb]
  · show Leaves (Canonical start) [0x7E] _
    simp only [page7, leaves_bind, leaves_next]
    intro b
    exact memoryBit_canonical _ _ fun _ _ _ _ => by simp [bitPlace, withoutIgnored, clearAt, toUInt8_ofPageOffset]
  · show Leaves (Canonical start) [0x7F] _
    simp only [page7, leaves_bind, leaves_next]
    intro b
    exact memoryBit_canonical _ _ fun _ _ _ _ => by simp [bitPlace, withoutIgnored, clearAt, toUInt8_ofPageOffset]

/-! ### The page after `01` -/

private theorem longDisplaced32_canonical (r : UInt8) (hr : r &&& 0x8F = 0) :
    Leaves (Canonical start) [0x01, 0x00, 0x78, r] (longDisplaced32 (highThree r)) := by
  simp only [longDisplaced32, leaves_bind, leaves_next, leaves_require, leaves_long, leaves_pure, Bool.and_eq_true,
    beq_iff_eq]
  rintro e f ⟨he, hf⟩ a b c d
  have hr : halves (highThree r) 0 = r := by
    revert r hr
    exact forall_byte (by decide)
  have hf : marked (topBit f) (halves 2 (lowThree f)) = f := by
    revert f hf
    exact forall_byte (by decide)
  simp [Canonical, encode_transfer, withoutIgnored_transfer, moved, prefixed, move, hr, he, hf, longBytes_long]

private theorem longAbsolute_byte : ∀ b, b &&& 0x58 = 0 → (b &&& 0x20 = 0 → marked (topBit b) (lowThree b) = b) ∧
    (b &&& 0x20 ≠ 0 → marked (topBit b) (halves 2 (lowThree b)) = b) := forall_byte (by decide)

private theorem longMove_canonical : Leaves (Canonical start) [0x01, 0x00] longMove := by
  have registers : ∀ d, d &&& 0x08 = 0 → marked (topBit d) (halves (highThree d) (lowThree d)) = d :=
    forall_byte (by decide)
  simp only [longMove, leaves_bind, leaves_next]
  intro c d
  split
  · simp only [leaves_bind, leaves_require, beq_iff_eq, bne_iff_ne, ne_eq]
    intro hd
    obtain ⟨low, high⟩ := longAbsolute_byte d hd
    by_cases h : d &&& 0x20 = 0
    · simp [h, address16, signedWord, Canonical, encode_transfer, withoutIgnored_transfer, moved, prefixed, move, clearAt,
        low h, wordBytes_trunc, wordBytes_signExtend, wordBytes_word]
    · simp [h, address32, Canonical, encode_transfer, withoutIgnored_transfer, moved, prefixed, move, clearAt, high h,
        addressBytes_long]
  · simp only [leaves_bind, leaves_require, beq_iff_eq, leaves_pure]
    intro hd
    simp [Canonical, encode_transfer, withoutIgnored_transfer, moved, prefixed, move, registers d hd]
  · simp only [leaves_bind, leaves_require, beq_iff_eq, leaves_pure]
    intro hd
    simp [Canonical, encode_transfer, withoutIgnored_stepping, moved, prefixed, move_stepping, registers d hd]
  · simp only [leaves_bind, leaves_require, beq_iff_eq, signedWord, leaves_word, leaves_pure]
    intro hd
    simp [Canonical, encode_transfer, withoutIgnored_transfer, moved, prefixed, move, registers d hd, wordBytes_signExtend,
      wordBytes_word]
  · simp only [leaves_bind, leaves_require, beq_iff_eq]
    exact fun hd => longDisplaced32_canonical d hd
  · trivial

private theorem controlAbsolute_byte : ∀ b, b &&& 0x5F = 0 → (b &&& 0x20 = 0 → marked (topBit b) 0 = b) ∧
    (b &&& 0x20 ≠ 0 → marked (topBit b) (halves 2 0) = b) := forall_byte (by decide)

private theorem controlMemory_canonical (reg : ControlReg) (c d : UInt8) :
    Leaves (Canonical start) [0x01, controlByte reg, c, d] (controlMemory reg c d) := by
  unfold controlMemory
  split
  · simp only [leaves_bind, leaves_require, beq_iff_eq, bne_iff_ne, ne_eq]
    intro hd
    obtain ⟨low, high⟩ := controlAbsolute_byte d hd
    by_cases h : d &&& 0x20 = 0
    · simp [h, address16, signedWord, Canonical, encode_controlTransfer, withoutIgnored_controlTransfer, prefixed, move,
        clearAt, low h, wordBytes_trunc, wordBytes_signExtend, wordBytes_word]
    · simp [h, address32, Canonical, encode_controlTransfer, withoutIgnored_controlTransfer, prefixed, move, clearAt,
        high h, addressBytes_long]
  · simp only [leaves_bind, leaves_require, beq_iff_eq, leaves_pure]
    intro hd
    simp [Canonical, encode_controlTransfer, withoutIgnored_controlStepping, prefixed, move_stepping, marked_of_low hd]
  · simp only [leaves_bind, leaves_require, beq_iff_eq, leaves_pure]
    intro hd
    simp [Canonical, encode_controlTransfer, withoutIgnored_controlTransfer, prefixed, move, marked_of_low hd]
  · simp only [leaves_bind, leaves_require, beq_iff_eq, signedWord, leaves_word, leaves_pure]
    intro hd
    simp [Canonical, encode_controlTransfer, withoutIgnored_controlTransfer, prefixed, move, marked_of_low hd,
      wordBytes_signExtend, wordBytes_word]
  · -- the top bit of `d` is not looked at: `f` marks the store
    simp only [leaves_bind, leaves_next, leaves_require, leaves_long, leaves_pure, Bool.and_eq_true, beq_iff_eq]
    rintro hd e f ⟨he, hf⟩ _ _ _ _
    have hd : halves (highThree d) 0 = d &&& 0x7F := by
      revert d
      exact forall_byte (by decide)
    have hf : marked (topBit f) (halves 2 0) = f := by
      revert f
      exact forall_byte (by decide)
    simp [Canonical, encode_controlTransfer, withoutIgnored_controlTransfer, prefixed, move, hd, he, hf, longBytes_long]
  · trivial

private theorem controlPage_canonical (reg : ControlReg) :
    Leaves (Canonical start) [0x01, controlByte reg] (controlPage reg) := by
  simp only [controlPage, leaves_bind, leaves_next]
  intro c d
  split
  case h_5 => exact controlMemory_canonical _ _ _
  all_goals simp [Canonical, withoutIgnored, encode, controlImmediate, logicCode, controlByte]

private theorem registerList_canonical (b : UInt8) (hb : highNibble b = 1 ∨ highNibble b = 2 ∨ highNibble b = 3) :
    Leaves (Canonical start) [0x01, b] (registerList b) := by
  have count : lowNibble b = 0 → halves ((b >>> 4) &&& 3) 0 = b := by
    revert b
    exact forall_byte (by decide)
  have last : ∀ d, d &&& 0x78 = 0x70 → (if topBit d then 0xF0 else 0x70) ||| lowThree d = d := forall_byte (by decide)
  simp only [registerList, leaves_bind, leaves_next, leaves_require, leaves_ite, leaves_pure, Bool.and_eq_true, beq_iff_eq]
  rintro hl c d ⟨hc, hd⟩
  have hd := last d hd
  constructor
  · intro ht _
    rw [if_pos ht] at hd
    simp [Canonical, withoutIgnored, encode, hc, count hl, hd]
  · intro ht _
    rw [if_neg ht] at hd
    simp [Canonical, withoutIgnored, encode, hc, count hl, hd]

private theorem signedMulDiv_canonical (b : UInt8) : Leaves (Canonical start) [0x01, b] (signedMulDiv b) := by
  simp only [signedMulDiv, leaves_bind, leaves_next, leaves_require, beq_iff_eq]
  intro hl c d
  have hb := halves_of_low hl
  split
  case h_5 => trivial
  all_goals
    rw [‹highNibble b = _›] at hb
    simp only [leaves_bind, leaves_require, leaves_pure]
    intro _
    simp only [Canonical, withoutIgnored, encode, product, halves_nibbles, ← hb]
    rfl

private theorem testAndSet_canonical (b : UInt8) : Leaves (Canonical start) [0x01, b] (testAndSet b) := by
  simp only [testAndSet, leaves_bind, leaves_next, leaves_require, leaves_pure, beq_iff_eq, Bool.and_eq_true]
  rintro hb c d ⟨hc, hd⟩
  have hd : halves (highThree d) 0xC = d := by
    revert d
    exact forall_byte (by decide)
  simp [Canonical, withoutIgnored, encode, hb, hc, hd]

private theorem longLogic_canonical (b : UInt8) : Leaves (Canonical start) [0x01, b] (longLogic b) := by
  simp only [longLogic, leaves_bind, leaves_next, leaves_require, beq_iff_eq]
  intro hb c d hd
  have hd : halves (highNibble d) (lowThree d) = d := by
    revert d
    exact forall_byte (by decide)
  split
  case h_4 => trivial
  all_goals simp [Canonical, withoutIgnored, encode, aluRegister, aluWord, hb, hd]

private theorem page01_canonical : Leaves (Canonical start) [0x01] page01 := by
  simp only [page01, leaves_bind, leaves_next]
  intro b
  split
  · simp only [leaves_bind, leaves_require, beq_iff_eq]
    rintro rfl
    exact longMove_canonical
  · exact registerList_canonical b (.inl ‹_›)
  · exact registerList_canonical b (.inr (.inl ‹_›))
  · exact registerList_canonical b (.inr (.inr ‹_›))
  · have hb := halves_of_high ‹highNibble b = _›
    split
    · rw [‹lowNibble b = _›] at hb
      exact hb ▸ controlPage_canonical .ccr
    · rw [‹lowNibble b = _›] at hb
      exact hb ▸ controlPage_canonical .exr
    · trivial
  · simp only [leaves_bind, leaves_require, beq_iff_eq]
    rintro rfl
    rfl
  · exact signedMulDiv_canonical b
  · exact signedMulDiv_canonical b
  · exact testAndSet_canonical b
  · exact longLogic_canonical b
  · trivial

/-! ### The instruction set -/

private theorem bytePage_canonical (store : Bool) (reg : UInt8) :
    Leaves (Canonical start) [halves (if store then 3 else 2) reg] (bytePage store reg) := by
  simp [bytePage, Canonical, encode_transfer, withoutIgnored_transfer, moved, move, clearAt, toUInt8_ofPageOffset]

private theorem byteImmediate_canonical (op : AluOp) (dst : UInt8) :
    Leaves (Canonical start) [halves (aluByteImmediate op) dst] (byteImmediate op dst) := by
  simp [byteImmediate, Canonical, withoutIgnored, encode, Encoding.immediate]

/-- An operation and a length determine the bits of an encoding that are not ignored. -/
theorem operation_canonical (start : UInt32) : Leaves (Canonical start) [] (operation start) := by
  simp only [operation, leaves_bind, leaves_next, List.nil_append]
  intro b
  have hlow := lowNibble_lt b
  have page : ∀ {k : UInt8} {d : Decoding Operation}, highNibble b = k →
      Leaves (Canonical start) [halves k (lowNibble b)] d → Leaves (Canonical start) [b] d := by
    intro k d hk h
    rwa [halves_of_high hk] at h
  split
  · exact page ‹_› (page0_canonical page01_canonical _ hlow)
  · exact page ‹_› (page1_canonical _ hlow)
  · exact page ‹_› (bytePage_canonical false _)
  · exact page ‹_› (bytePage_canonical true _)
  · exact page ‹_› (shortBranch_canonical _ hlow)
  · exact page ‹_› (page5_canonical _ hlow)
  · exact page ‹_› (page6_canonical _ hlow)
  · exact page ‹_› (page7_canonical _ hlow)
  · exact page ‹_› (byteImmediate_canonical .add _)
  · exact page ‹_› (byteImmediate_canonical .addx _)
  · exact page ‹_› (byteImmediate_canonical .cmp _)
  · exact page ‹_› (byteImmediate_canonical .subx _)
  · exact page ‹_› (byteImmediate_canonical .or _)
  · exact page ‹_› (byteImmediate_canonical .xor _)
  · exact page ‹_› (byteImmediate_canonical .and _)
  · -- the other fifteen halves are excluded
    have hb : highNibble b = 0xF := by
      have h := mem_nibbles _ (highNibble_lt b)
      simp only [List.mem_cons, List.not_mem_nil, or_false] at h
      grind
    refine page hb ?_
    simp [Canonical, withoutIgnored, encode, Encoding.immediate]

end Decoding

end H8S
