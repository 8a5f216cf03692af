import H8S.Proofs.Assembling
import H8S.Proofs.Leaves
import H8S.Proofs.Sources

/-!
# Well-formed operations

`Operation.WellFormed` says what the numbers in an operation may be: registers have a view of the width they are used with,
immediates fit their width, addresses lie in the address space, shifts go one or two places, and the registers of a list lie
in the register file.  The operation of every encoding is well formed (`operation_wellFormed`), which is a property of the
leaves of the decoding and is shown page by page.

An encoding has ten bytes at most, so a decoding that refuses an eleventh byte is the decoding itself (`upTo_operation`).
-/

namespace H8S

/-! ### Numbers in operations -/

/-- How many views of a width there are. -/
def Width.views : Width → UInt8
  | byte | word => 16
  | long => 8

/-- The pointer is a long register, and an absolute address lies in the address space. -/
def MemOperand.WellFormed : MemOperand → Prop
  | indirect p | postInc p | preDec p => p < Width.long.views
  | displaced _ base => base < Width.long.views
  | absolute addr => addr.toNat < Address.spaceSize

def Operand.WellFormed (width : Width) : Operand → Prop
  | reg id => id < width.views
  | imm value => value ≤ width.mask
  | mem m => m.WellFormed

/-- Whether a value can be delivered to the operand. -/
def Operand.IsPlace : Operand → Prop
  | imm _ => False
  | _ => True

def Operand.IsMemory : Operand → Prop
  | mem _ => True
  | _ => False

def BitNumber.WellFormed : BitNumber → Prop
  | imm n => n < 8
  | reg id => id < Width.byte.views

def BitTarget.WellFormed : BitTarget → Prop
  | reg id => id < Width.byte.views
  | mem m => m.WellFormed

def JumpTarget.WellFormed : JumpTarget → Prop
  | indirect p => p < Width.long.views
  | absolute addr => addr.toNat < Address.spaceSize
  | stored _ => True

/-- The numbers in an operation are those that its form allows. -/
def Operation.WellFormed : Operation → Prop
  | mov width src dst =>
    src.WellFormed width ∧ dst.WellFormed width ∧ dst.IsPlace ∧ ¬(src.IsMemory ∧ dst.IsMemory)
  | alu _ width src dst => src.WellFormed width ∧ dst < width.views
  | adds amount dst | subs amount dst => (amount = 1 ∨ amount = 2 ∨ amount = 4) ∧ dst < Width.long.views
  | inc width amount dst | dec width amount dst => (amount = 1 ∨ amount = 2) ∧ dst < width.views
  | unary _ width dst => dst < width.views
  | daa dst | das dst => dst < Width.byte.views
  | mulDiv _ width src dst => width ≠ .long ∧ src < width.views ∧ dst < width.double.views
  | shift _ width count dst => (count = 1 ∨ count = 2) ∧ dst < width.views
  | bit _ number target => number.WellFormed ∧ target.WellFormed
  | bcc _ target _ | bsr target _ => target.toNat < Address.spaceSize
  | jmp target | jsr target => target.WellFormed
  | trapa n => n < 4
  | ldc src _ => src.WellFormed .byte
  | stc _ dst => dst.WellFormed .byte ∧ dst.IsPlace
  | ldm last count =>
    2 ≤ count.toNat ∧ count.toNat ≤ 4 ∧ count.toNat ≤ last.toNat + 1 ∧ last.toNat < 8
  | stm first count => 2 ≤ count.toNat ∧ count.toNat ≤ 4 ∧ first.toNat + count.toNat ≤ 8
  | tas p => p < Width.long.views
  | eepmov width => width ≠ .long
  | nop | sleep | rts | rte | controlLogic .. => True

namespace Decoding

open Encoding

variable {α : Type} {bytes : List UInt8} {start : UInt32}

/-! ### Fields -/

private theorem byte_le (b : UInt8) : b.toUInt32 ≤ Width.byte.mask := by
  have h := b.toNat_lt
  have hmask : Width.byte.mask.toNat = 255 := rfl
  rw [UInt32.le_iff_toNat_le, hmask, UInt8.toNat_toUInt32]
  omega

private theorem word_le (hi lo : UInt8) : hi.toUInt32 <<< 8 ||| lo.toUInt32 ≤ Width.word.mask := by
  have hhi := hi.toNat_lt
  have hlo := lo.toNat_lt
  have hmask : Width.word.mask.toNat = 65535 := rfl
  rw [UInt32.le_iff_toNat_le, hmask, word_toNat]
  omega

private theorem long_le (v : UInt32) : v ≤ Width.long.mask := by
  have h := v.toNat_lt
  have hmask : Width.long.mask.toNat = 4294967295 := rfl
  rw [UInt32.le_iff_toNat_le, hmask]
  omega

private theorem jump_lt (hi a b : UInt8) :
    (hi.toUInt32 <<< 16 ||| (a.toUInt32 <<< 8 ||| b.toUInt32)).toNat < Address.spaceSize := by
  have hhi := hi.toNat_lt
  have ha := a.toNat_lt
  have hb := b.toNat_lt
  rw [jump_toNat]
  unfold Address.spaceSize
  omega

private theorem page_lt : ∀ b : UInt8, (Address.ofPageOffset b).toNat < Address.spaceSize := forall_byte (by decide)

private theorem highThree_lt : ∀ b, highThree b < 8 := forall_byte (by decide)

private theorem lowThree_lt : ∀ b, lowThree b < 8 := forall_byte (by decide)

/-- A pointer whose byte has no other bits in its high half. -/
private theorem pointer_lt : ∀ b, b &&& 0x8F = 0 → highNibble b < 8 := forall_byte (by decide)

private theorem source_lt : ∀ b, b &&& 0x88 = 0 → highNibble b < 8 := forall_byte (by decide)

private theorem trap_lt : ∀ b, b &&& 0xCF = 0 → highNibble b < 4 := forall_byte (by decide)

/-- What every leaf has to show. -/
private def Formed (_ : List UInt8) (op : Operation) : Prop := op.WellFormed

private theorem transfer_wellFormed {width : Width} {reg : UInt8} {place : MemOperand} (store : Bool)
    (hreg : reg < width.views) (hplace : place.WellFormed) : (transfer width store reg place).WellFormed := by
  cases store
  · exact ⟨hplace, hreg, trivial, fun h => h.2⟩
  · exact ⟨hreg, hplace, trivial, fun h => h.1⟩

private theorem controlTransfer_wellFormed {place : MemOperand} (reg : ControlReg) (store : Bool)
    (hplace : place.WellFormed) : (controlTransfer reg store place).WellFormed := by
  cases store
  · exact hplace
  · exact ⟨hplace, trivial⟩

private theorem stepping_wellFormed {pointer : UInt8} (store : Bool) (hp : pointer < 8) :
    (stepping store pointer).WellFormed := by
  cases store
  · exact hp
  · exact hp

/-! ### Bit manipulation -/

private theorem memoryBit_formed {target : MemOperand} (writes : Bool) (ht : target.WellFormed) :
    Leaves Formed bytes (memoryBit target writes) := by
  have hindexed : ∀ op d, (Operation.bit op (.reg (highNibble d)) (.mem target)).WellFormed :=
    fun _ d => ⟨highNibble_lt d, ht⟩
  have hnumbered : ∀ op d, (Operation.bit op (.imm (highThree d)) (.mem target)).WellFormed :=
    fun _ d => ⟨highThree_lt d, ht⟩
  unfold memoryBit
  split
  · simp only [writingMemoryBit, leaves_bind, leaves_next, leaves_require]
    intro c d _
    split <;> simp [Formed, hindexed, hnumbered]
  · simp only [testingMemoryBit, leaves_bind, leaves_next, leaves_require]
    intro c d _
    split <;> simp [Formed, hindexed, hnumbered]

private theorem numberedRegisterBit_formed (code : UInt8) : Leaves Formed bytes (numberedRegisterBit code) := by
  have hnumbered : ∀ op b, (Operation.bit op (.imm (highThree b)) (.reg (lowNibble b))).WellFormed :=
    fun _ b => ⟨highThree_lt b, lowNibble_lt b⟩
  simp [numberedRegisterBit, Formed, hnumbered]

private theorem indexedRegisterBit_formed (code : UInt8) : Leaves Formed bytes (indexedRegisterBit code) := by
  have hindexed : ∀ op b, (Operation.bit op (.reg (highNibble b)) (.reg (lowNibble b))).WellFormed :=
    fun _ b => ⟨highNibble_lt b, lowNibble_lt b⟩
  simp [indexedRegisterBit, Formed, hindexed]

private theorem carryIntoRegisterBit_formed : Leaves Formed bytes carryIntoRegisterBit := by
  have hnumbered : ∀ op b, (Operation.bit op (.imm (highThree b)) (.reg (lowNibble b))).WellFormed :=
    fun _ b => ⟨highThree_lt b, lowNibble_lt b⟩
  simp [carryIntoRegisterBit, Formed, hnumbered]

/-! ### Data transfer -/

/-- The low half of a byte names a byte or a word register. -/
private theorem narrow_lt {width : Width} (hw : width ≠ .long) {id : UInt8} (hid : id < 16) : id < width.views := by
  cases width with
  | long => exact absurd rfl hw
  | _ => exact hid

private theorem narrowTransfer_wellFormed {width : Width} (hw : width ≠ .long) (store : Bool) (b : UInt8)
    {place : MemOperand} (hp : place.WellFormed) : (transfer width store (lowNibble b) place).WellFormed :=
  transfer_wellFormed store (narrow_lt hw (lowNibble_lt b)) hp

private theorem aluRegisters_formed (op : AluOp) {width : Width} (hw : width ≠ .long) :
    Leaves Formed bytes (aluRegisters op width) := by
  have hop : ∀ b, (Operation.alu op width (.reg (highNibble b)) (lowNibble b)).WellFormed :=
    fun b => ⟨narrow_lt hw (highNibble_lt b), narrow_lt hw (lowNibble_lt b)⟩
  simp [aluRegisters, Formed, hop]

private theorem wordAbsolute_formed : Leaves Formed bytes wordAbsolute := by
  have hplace : ∀ store b v, (transfer .word store (lowNibble b) (.absolute (Address.trunc v))).WellFormed :=
    fun store b v => narrowTransfer_wellFormed (by decide) store b (Address.trunc_lt v)
  simp only [wordAbsolute, leaves_bind, leaves_next]
  intro b
  split <;> simp [Formed, address16, address32, signedWord, hplace]

private theorem byteAbsolute_formed : Leaves Formed bytes byteAbsolute := by
  have hplace : ∀ store b v, (transfer .byte store (lowNibble b) (.absolute (Address.trunc v))).WellFormed :=
    fun store b v => narrowTransfer_wellFormed (by decide) store b (Address.trunc_lt v)
  have hbit : ∀ v writes bytes, Leaves Formed bytes (memoryBit (.absolute (Address.trunc v)) writes) :=
    fun v writes _ => memoryBit_formed writes (Address.trunc_lt v)
  simp only [byteAbsolute, leaves_bind, leaves_next]
  intro b
  split <;> simp [Formed, address16, address32, signedWord, hplace]
  case h_5 => exact fun _ _ _ => hbit _ _ _
  case h_6 => exact fun _ _ _ _ _ => hbit _ _ _

private theorem page6_formed (code : UInt8) : Leaves Formed bytes (page6 code) := by
  unfold page6
  split
  case h_5 => exact aluRegisters_formed .or (by decide)
  case h_6 => exact aluRegisters_formed .xor (by decide)
  case h_7 => exact aluRegisters_formed .and (by decide)
  case h_8 => exact carryIntoRegisterBit_formed
  case h_9 => exact byteAbsolute_formed
  case h_10 => exact wordAbsolute_formed
  case h_11 =>
    have hw : (if code &&& 1 == 0 then .byte else .word : Width) ≠ .long := by
      split <;> decide
    have hdata : ∀ r place, MemOperand.WellFormed place → (transfer (if code &&& 1 == 0 then .byte else .word)
        (topBit r) (lowNibble r) place).WellFormed := fun r _ hp => narrowTransfer_wellFormed hw _ r hp
    simp only [leaves_bind, leaves_next]
    intro r
    split
    · exact hdata r (.indirect (highThree r)) (highThree_lt r)
    · exact hdata r (.indirect (highThree r)) (highThree_lt r)
    · exact hdata r _ (stepping_wellFormed (topBit r) (highThree_lt r))
    · exact hdata r _ (stepping_wellFormed (topBit r) (highThree_lt r))
    · simp only [signedWord, leaves_bind, leaves_word, leaves_pure]
      exact fun _ _ => hdata r (.displaced _ (highThree r)) (highThree_lt r)
  all_goals exact indexedRegisterBit_formed _

private theorem displaced32_formed : Leaves Formed bytes displaced32 := by
  simp only [displaced32, leaves_bind, leaves_next, leaves_require, leaves_long, leaves_pure]
  intro r hr x _ y _ a b c d
  have hw : (if x &&& 1 != 0 then .word else .byte : Width) ≠ .long := by
    split <;> decide
  exact narrowTransfer_wellFormed hw _ y (pointer_lt r (eq_of_beq hr))

private theorem immediate_formed (width : Width) (hw : width ≠ .byte) : Leaves Formed bytes (immediate width) := by
  simp only [immediate, leaves_bind, leaves_next, leaves_require]
  intro b hb
  have hdst : lowNibble b < width.views := by
    cases width with
    | byte => exact absurd rfl hw
    | word => exact lowNibble_lt b
    | long => simpa [Width.views] using hb
  have hmov : ∀ value ≤ width.mask, (Operation.mov width (.imm value) (.reg (lowNibble b))).WellFormed :=
    fun _ hv => ⟨hv, hdst, trivial, fun h => h.1⟩
  have halu : ∀ op, ∀ value ≤ width.mask, (Operation.alu op width (.imm value) (lowNibble b)).WellFormed :=
    fun _ _ hv => ⟨hv, hdst⟩
  split
  · exact leaves_illegal
  · next op _ =>
    by_cases hl : width = .long
    · subst hl
      simp only [if_true, leaves_bind, leaves_long]
      intro _ _ _ _
      cases op with
      | none => exact hmov _ (long_le _)
      | some op => exact halu op _ (long_le _)
    · obtain rfl : width = .word := by cases width <;> simp_all
      simp only [if_neg hl, leaves_bind, leaves_word]
      intro _ _
      cases op with
      | none => exact hmov _ (word_le _ _)
      | some op => exact halu op _ (word_le _ _)

private theorem page7_formed (code : UInt8) : Leaves Formed bytes (page7 code) := by
  unfold page7
  split
  case h_1 => exact displaced32_formed
  case h_2 => exact immediate_formed .word (by decide)
  case h_3 => exact immediate_formed .long (by decide)
  case h_4 =>
    simp only [blockMove, leaves_bind, leaves_next]
    intro b
    split <;> simp [Formed, Operation.WellFormed]
  case h_9 => exact numberedRegisterBit_formed code
  all_goals
    simp only [leaves_bind, leaves_next, leaves_require]
    intro b
  · exact fun hb => memoryBit_formed _ (pointer_lt b (eq_of_beq hb))
  · exact fun hb => memoryBit_formed _ (pointer_lt b (eq_of_beq hb))
  · exact memoryBit_formed _ (page_lt b)
  · exact memoryBit_formed _ (page_lt b)

private theorem longMove_formed : Leaves Formed bytes longMove := by
  have hlong : ∀ store d place, MemOperand.WellFormed place → (transfer .long store (lowThree d) place).WellFormed :=
    fun store d _ hp => transfer_wellFormed store (lowThree_lt d) hp
  simp only [longMove, leaves_bind, leaves_next]
  intro c d
  split
  · simp only [leaves_bind, leaves_require]
    intro _
    split
    · simp only [address32, leaves_bind, leaves_long, leaves_pure]
      exact fun _ _ _ _ => hlong _ d _ (Address.trunc_lt _)
    · simp only [address16, signedWord, leaves_bind, leaves_word, leaves_pure]
      exact fun _ _ => hlong _ d _ (Address.trunc_lt _)
  · simp only [leaves_bind, leaves_require, leaves_pure]
    exact fun _ => hlong _ d (.indirect (highThree d)) (highThree_lt d)
  · simp only [leaves_bind, leaves_require, leaves_pure]
    exact fun _ => hlong _ d _ (stepping_wellFormed _ (highThree_lt d))
  · simp only [signedWord, leaves_bind, leaves_require, leaves_word, leaves_pure]
    exact fun _ _ _ => hlong _ d (.displaced _ (highThree d)) (highThree_lt d)
  · simp only [longDisplaced32, leaves_bind, leaves_next, leaves_require, leaves_long, leaves_pure]
    exact fun _ _ f _ _ _ _ _ => hlong _ f (.displaced _ (highThree d)) (highThree_lt d)
  · exact leaves_illegal

/-! ### The page after `01` -/

private theorem further_bounds : ∀ b, highNibble b = 1 ∨ highNibble b = 2 ∨ highNibble b = 3 →
    1 ≤ ((b >>> 4) &&& 3).toNat ∧ ((b >>> 4) &&& 3).toNat ≤ 3 := forall_byte (by decide)

private theorem registerList_formed {b : UInt8} (hb : highNibble b = 1 ∨ highNibble b = 2 ∨ highNibble b = 3) :
    Leaves Formed bytes (registerList b) := by
  obtain ⟨hlo, hhi⟩ := further_bounds b hb
  simp only [registerList, leaves_bind, leaves_next, leaves_require]
  intro _ c d _
  have hreg := UInt8.lt_iff_toNat_lt.1 (lowThree_lt d)
  generalize (b >>> 4) &&& 3 = further at hlo hhi
  have height : (8 : UInt8).toNat = 8 := rfl
  have hcount : (further + 1).toNat = further.toNat + 1 := by
    rw [UInt8.toNat_add]
    exact Nat.mod_eq_of_lt (by simp; omega)
  split
  · simp only [leaves_bind, leaves_require, leaves_pure]
    intro hfit
    have hsum := UInt8.lt_iff_toNat_lt.1 (of_decide_eq_true hfit)
    rw [UInt8.toNat_add, Nat.mod_eq_of_lt (by omega)] at hsum
    refine ⟨?_, ?_, ?_⟩ <;> omega
  · simp only [leaves_bind, leaves_require, leaves_pure]
    intro hfit
    have hle := UInt8.le_iff_toNat_le.1 (of_decide_eq_true hfit)
    refine ⟨?_, ?_, ?_, ?_⟩ <;> omega

private theorem controlMemory_formed (reg : ControlReg) (c d : UInt8) :
    Leaves Formed bytes (controlMemory reg c d) := by
  unfold controlMemory
  split
  · simp only [leaves_bind, leaves_require]
    intro _
    split
    · simp only [address32, leaves_bind, leaves_long, leaves_pure]
      exact fun _ _ _ _ => controlTransfer_wellFormed _ _ (Address.trunc_lt _)
    · simp only [address16, signedWord, leaves_bind, leaves_word, leaves_pure]
      exact fun _ _ => controlTransfer_wellFormed _ _ (Address.trunc_lt _)
  · simp only [leaves_bind, leaves_require, leaves_pure]
    exact fun _ => controlTransfer_wellFormed _ _ (stepping_wellFormed _ (highThree_lt d))
  · simp only [leaves_bind, leaves_require, leaves_pure]
    exact fun _ => controlTransfer_wellFormed _ _ (highThree_lt d)
  · simp only [signedWord, leaves_bind, leaves_require, leaves_word, leaves_pure]
    exact fun _ _ _ => controlTransfer_wellFormed _ _ (highThree_lt d)
  · simp only [leaves_bind, leaves_next, leaves_require, leaves_long, leaves_pure]
    exact fun _ _ _ _ _ _ _ _ => controlTransfer_wellFormed _ _ (highThree_lt d)
  · exact leaves_illegal

private theorem controlPage_formed (reg : ControlReg) : Leaves Formed bytes (controlPage reg) := by
  simp only [controlPage, leaves_bind, leaves_next]
  intro c d
  split
  case h_4 => exact byte_le d
  case h_5 => exact controlMemory_formed _ c d
  all_goals exact trivial

private theorem product_wellFormed {width : Width} (hw : width ≠ .long) (op : MulDivOp) (b : UInt8)
    (hdst : (width == .byte || decide (lowNibble b < 8)) = true) :
    (Operation.mulDiv op width (highNibble b) (lowNibble b)).WellFormed := by
  refine ⟨hw, narrow_lt hw (highNibble_lt b), ?_⟩
  cases width with
  | byte => exact lowNibble_lt b
  | word => simpa [Width.double, Width.views] using hdst
  | long => exact absurd rfl hw

private theorem signedMulDiv_formed (b : UInt8) : Leaves Formed bytes (signedMulDiv b) := by
  simp only [signedMulDiv, leaves_bind, leaves_next, leaves_require]
  intro _ c d
  split
  case h_5 => exact leaves_illegal
  all_goals
    simp only [leaves_bind, leaves_require, leaves_pure]
    exact product_wellFormed (by decide) _ d

private theorem testAndSet_formed (b : UInt8) : Leaves Formed bytes (testAndSet b) := by
  simp only [testAndSet, leaves_bind, leaves_next, leaves_require, leaves_pure]
  exact fun _ _ d _ => highThree_lt d

private theorem longLogic_formed (b : UInt8) : Leaves Formed bytes (longLogic b) := by
  simp only [longLogic, leaves_bind, leaves_next, leaves_require]
  intro _ c d hd
  have hop : ∀ op, (Operation.alu op .long (.reg (highNibble d)) (lowThree d)).WellFormed :=
    fun _ => ⟨source_lt d (eq_of_beq hd), lowThree_lt d⟩
  split <;> simp [Formed, hop]

private theorem page01_formed : Leaves Formed bytes page01 := by
  simp only [page01, leaves_bind, leaves_next]
  intro b
  split
  · simp only [leaves_bind, leaves_require]
    exact fun _ => longMove_formed
  · next h => exact registerList_formed (.inl h)
  · next h => exact registerList_formed (.inr (.inl h))
  · next h => exact registerList_formed (.inr (.inr h))
  · split
    · exact controlPage_formed .ccr
    · exact controlPage_formed .exr
    · exact leaves_illegal
  · simp [Formed, Operation.WellFormed]
  · exact signedMulDiv_formed b
  · exact signedMulDiv_formed b
  · exact testAndSet_formed b
  · exact longLogic_formed b
  · exact leaves_illegal

/-! ### Register arithmetic -/

private theorem byteOrLongs_formed {one : UInt8 → Operation} {two : UInt8 → UInt8 → Operation}
    (hone : ∀ reg, reg < 16 → (one reg).WellFormed)
    (htwo : ∀ src dst, src < 8 → dst < 8 → (two src dst).WellFormed) :
    Leaves Formed bytes (byteOrLongs one two) := by
  simp only [byteOrLongs, leaves_bind, leaves_next]
  intro b
  split
  · simp only [longPair, leaves_bind, leaves_require, leaves_pure]
    exact fun _ => htwo _ _ (highThree_lt b) (lowThree_lt b)
  · simp only [leaves_bind, leaves_require, leaves_pure]
    exact fun _ => hone _ (lowNibble_lt b)

private theorem smallSteps_formed {pointer : UInt8 → UInt8 → Operation} {counter : Width → UInt8 → UInt8 → Operation}
    (hpointer : ∀ amount reg, amount = 1 ∨ amount = 2 ∨ amount = 4 → reg < 8 → (pointer amount reg).WellFormed)
    (hcounter : ∀ width amount reg, amount = 1 ∨ amount = 2 → reg < width.views → (counter width amount reg).WellFormed) :
    Leaves Formed bytes (smallSteps pointer counter) := by
  simp only [smallSteps, leaves_bind, leaves_next]
  intro b
  split
  case h_4 => exact hcounter .word 1 _ (.inl rfl) (lowNibble_lt b)
  case h_5 => exact hcounter .word 2 _ (.inr rfl) (lowNibble_lt b)
  case h_8 => exact leaves_illegal
  all_goals
    simp only [leaves_bind, leaves_require, leaves_pure]
    intro hreg
  · exact hpointer 1 _ (by decide) (of_decide_eq_true hreg)
  · exact hpointer 2 _ (by decide) (of_decide_eq_true hreg)
  · exact hpointer 4 _ (by decide) (of_decide_eq_true hreg)
  · exact hcounter .long 1 _ (.inl rfl) (of_decide_eq_true hreg)
  · exact hcounter .long 2 _ (.inr rfl) (of_decide_eq_true hreg)

private theorem controlAndRegister_formed {P : List UInt8 → ControlReg × UInt8 → Prop}
    (h : ∀ bytes reg id, id < 16 → P bytes (reg, id)) : Leaves P bytes controlAndRegister := by
  simp only [controlAndRegister, leaves_bind, leaves_next]
  intro b
  split
  · exact h _ .ccr _ (lowNibble_lt b)
  · exact h _ .exr _ (lowNibble_lt b)
  · exact leaves_illegal

private theorem page0_formed (code : UInt8) : Leaves Formed bytes (page0 code) := by
  have hmove : ∀ width b, width ≠ .long →
      (Operation.mov width (.reg (highNibble b)) (.reg (lowNibble b))).WellFormed :=
    fun _ b hw => ⟨narrow_lt hw (highNibble_lt b), narrow_lt hw (lowNibble_lt b), trivial, fun h => h.1⟩
  unfold page0
  split
  case h_2 => exact page01_formed
  case h_3 => exact (leaves_bind _ _).2 (controlAndRegister_formed fun _ _ _ hid => ⟨hid, trivial⟩)
  case h_4 => exact (leaves_bind _ _).2 (controlAndRegister_formed fun _ _ _ hid => hid)
  case h_8 =>
    simp only [leaves_bind, leaves_next, leaves_pure]
    exact byte_le
  case h_9 => exact aluRegisters_formed .add (by decide)
  case h_10 => exact aluRegisters_formed .add (by decide)
  case h_11 => exact byteOrLongs_formed (fun _ hr => ⟨.inl rfl, hr⟩) fun _ _ hs hd => ⟨hs, hd⟩
  case h_12 => exact smallSteps_formed (fun _ _ ha hr => ⟨ha, hr⟩) fun _ _ _ ha hr => ⟨ha, hr⟩
  case h_13 =>
    simp only [leaves_bind, leaves_next, leaves_pure]
    exact fun b => hmove .byte b (by decide)
  case h_14 =>
    simp only [leaves_bind, leaves_next, leaves_pure]
    exact fun b => hmove .word b (by decide)
  case h_15 => exact aluRegisters_formed .addx (by decide)
  case h_16 => exact byteOrLongs_formed (fun _ hr => hr) fun _ _ hs hd => ⟨hs, hd, trivial, fun h => h.1⟩
  all_goals simp [Formed, Operation.WellFormed]

private theorem shift_formed (code : UInt8) : Leaves Formed bytes (shift code) := by
  have hop : ∀ b width, lowNibble b < width.views → (Operation.shift (shiftOp code (topBit b)) width
      (if b &&& 0x40 != 0 then 2 else 1) (lowNibble b)).WellFormed := by
    intro b width hb
    refine ⟨?_, hb⟩
    split
    · exact .inr rfl
    · exact .inl rfl
  simp only [shift, leaves_bind, leaves_next]
  intro b
  split
  · exact hop b .byte (lowNibble_lt b)
  · exact hop b .word (lowNibble_lt b)
  · simp only [leaves_bind, leaves_require, leaves_pure]
    exact fun hb => hop b .long (of_decide_eq_true hb)
  · exact leaves_illegal

private theorem unary_formed : Leaves Formed bytes unary := by
  simp only [unary, leaves_bind, leaves_next]
  intro b
  split <;> simp [Formed, Operation.WellFormed, Width.views, lowNibble_lt]

private theorem page1_formed (code : UInt8) : Leaves Formed bytes (page1 code) := by
  unfold page1
  split
  case h_5 => exact aluRegisters_formed .or (by decide)
  case h_6 => exact aluRegisters_formed .xor (by decide)
  case h_7 => exact aluRegisters_formed .and (by decide)
  case h_8 => exact unary_formed
  case h_9 => exact aluRegisters_formed .sub (by decide)
  case h_10 => exact aluRegisters_formed .sub (by decide)
  case h_11 => exact byteOrLongs_formed (fun _ hr => ⟨.inl rfl, hr⟩) fun _ _ hs hd => ⟨hs, hd⟩
  case h_12 => exact smallSteps_formed (fun _ _ ha hr => ⟨ha, hr⟩) fun _ _ _ ha hr => ⟨ha, hr⟩
  case h_13 => exact aluRegisters_formed .cmp (by decide)
  case h_14 => exact aluRegisters_formed .cmp (by decide)
  case h_15 => exact aluRegisters_formed .subx (by decide)
  case h_16 => exact byteOrLongs_formed (fun _ hr => hr) fun _ _ hs hd => ⟨hs, hd⟩
  all_goals exact shift_formed _

/-! ### Control flow -/

private theorem mulDiv_formed (op : MulDivOp) {width : Width} (hw : width ≠ .long) :
    Leaves Formed bytes (mulDiv op width) := by
  simp only [mulDiv, leaves_bind, leaves_next, leaves_require, leaves_pure]
  exact fun b hb => product_wellFormed hw op b hb

private theorem jumpTarget_formed {P : List UInt8 → JumpTarget → Prop} (mode : UInt8)
    (h : ∀ bytes t, t.WellFormed → P bytes t) : Leaves P bytes (jumpTarget mode) := by
  unfold jumpTarget
  split
  · simp only [leaves_bind, leaves_next, leaves_require, leaves_pure]
    exact fun b hb => h _ _ (pointer_lt b (eq_of_beq hb))
  · simp only [leaves_bind, leaves_next, leaves_word, leaves_pure]
    exact fun hi a b => h _ _ (jump_lt hi a b)
  · simp only [leaves_bind, leaves_next, leaves_pure]
    exact fun b => h _ _ trivial

private theorem page5_formed (code : UInt8) : Leaves Formed bytes (page5 start code) := by
  have htarget : ∀ len disp, (branchTarget start len disp).toNat < Address.spaceSize := fun _ _ => Address.trunc_lt _
  unfold page5
  split
  case h_1 => exact mulDiv_formed .mulxu (by decide)
  case h_2 => exact mulDiv_formed .divxu (by decide)
  case h_3 => exact mulDiv_formed .mulxu (by decide)
  case h_4 => exact mulDiv_formed .divxu (by decide)
  case h_8 =>
    simp only [leaves_bind, leaves_next, leaves_require, leaves_pure]
    exact fun b hb => trap_lt b (eq_of_beq hb)
  case h_11 => exact (leaves_bind _ _).2 (jumpTarget_formed _ fun _ _ ht => ht)
  case h_12 => exact (leaves_bind _ _).2 (jumpTarget_formed _ fun _ _ ht => ht)
  case h_13 => exact (leaves_bind _ _).2 (jumpTarget_formed _ fun _ _ ht => ht)
  case h_14 => exact (leaves_bind _ _).2 (jumpTarget_formed _ fun _ _ ht => ht)
  all_goals simp [signedByte, signedWord, Formed, Operation.WellFormed, htarget]

/-! ### The instruction set -/

private theorem bytePage_formed (store : Bool) {reg : UInt8} (hreg : reg < 16) :
    Leaves Formed bytes (bytePage store reg) := by
  simp only [bytePage, leaves_bind, leaves_next, leaves_pure]
  exact fun b => transfer_wellFormed store hreg (page_lt b)

private theorem byteImmediate_formed (op : AluOp) {dst : UInt8} (hdst : dst < 16) :
    Leaves Formed bytes (byteImmediate op dst) := by
  simp only [byteImmediate, leaves_bind, leaves_next, leaves_pure]
  exact fun b => ⟨byte_le b, hdst⟩

/-- Every encoding is of a well-formed operation. -/
theorem operation_wellFormed : Leaves (fun _ op => op.WellFormed) bytes (operation start) := by
  show Leaves Formed bytes (operation start)
  simp only [operation, leaves_bind, leaves_next]
  intro b
  have hlow := lowNibble_lt b
  split
  · exact page0_formed _
  · exact page1_formed _
  · exact bytePage_formed false hlow
  · exact bytePage_formed true hlow
  · simp only [shortBranch, signedByte, leaves_bind, leaves_next, leaves_pure]
    exact fun _ => Address.trunc_lt _
  · exact page5_formed _
  · exact page6_formed _
  · exact page7_formed _
  · exact byteImmediate_formed .add hlow
  · exact byteImmediate_formed .addx hlow
  · exact byteImmediate_formed .cmp hlow
  · exact byteImmediate_formed .subx hlow
  · exact byteImmediate_formed .or hlow
  · exact byteImmediate_formed .xor hlow
  · exact byteImmediate_formed .and hlow
  · simp only [leaves_bind, leaves_next, leaves_pure]
    exact fun v => ⟨byte_le v, hlow, trivial, fun h => h.1⟩

/-! ### Lengths -/

/-- A decoding that takes so many bytes more and refuses the one after them. -/
def upTo : Nat → Decoding α → Decoding α
  | _, done a => done a
  | _, illegal => illegal
  | 0, byte _ => illegal
  | n + 1, byte next => byte fun b => (next b).upTo n

/-- What never has more than ten bytes never meets the limit. -/
private theorem Ends.upTo_eq {P : Nat → α → Prop} (hP : ∀ n a, P n a → n ≤ 10) {n : Nat} {d : Decoding α}
    (h : Ends P n d) : d.upTo (10 - n) = d := by
  induction d generalizing n with
  | done a => cases 10 - n <;> rfl
  | illegal => cases 10 - n <;> rfl
  | byte next ih =>
    have hle := (h 0).le hP
    obtain ⟨k, hk⟩ : ∃ k, 10 - n = k + 1 := ⟨9 - n, by omega⟩
    rw [hk]
    show (byte fun b => (next b).upTo k) = byte next
    congr 1
    funext b
    have hb := ih b (h b)
    rwa [show 10 - (n + 1) = k by omega] at hb

theorem upTo_operation (start : UInt32) : (operation start).upTo 10 = operation start :=
  (operation_ends start).upTo_eq fun _ _ h => h.2.2

end Decoding

end H8S
