import H8S.Proofs.Steps
import H8S.Proofs.WellFormedOperations
import Mathlib.Data.Nat.Bitwise

/-!
# Checked execution

Words have operations that are defined only for some operands: a word is shifted by less than its size, a difference does
not go below zero, a sum or product does not leave the word, and a divisor is not zero.  `Checked` has these operations with
their conditions.  `perform?` carries out an operation with them in every place where the operands are not fixed, with the register
numbers of a list counted in bytes as they are encoded, and with no result where a value would be delivered to an immediate.

A well-formed operation meets every condition, so the checked execution is the execution (`perform?_eq`), whatever the
registers and the bus hold.  A decoded operation is well formed (`Decoding.operation_wellFormed`).
-/

namespace H8S

/-! ### Checked words -/

namespace Checked

def shl? (v n : UInt32) : Option UInt32 := if n < 32 then some (v <<< n) else none

def shr? (v n : UInt32) : Option UInt32 := if n < 32 then some (v >>> n) else none

/-- The shift that keeps the sign. -/
def sar? (v : Int32) (n : UInt32) : Option Int32 := if n < 32 then some (v >>> n.toInt32) else none

def add? (a b : UInt32) : Option UInt32 := if a.toNat + b.toNat < UInt32.size then some (a + b) else none

def sub? (a b : UInt32) : Option UInt32 := if b ≤ a then some (a - b) else none

def mul? (a b : UInt32) : Option UInt32 := if a.toNat * b.toNat < UInt32.size then some (a * b) else none

def div? (a b : UInt32) : Option UInt32 := if b = 0 then none else some (a / b)

def mod? (a b : UInt32) : Option UInt32 := if b = 0 then none else some (a % b)

def quot? (a b : Int32) : Option Int32 := if b = 0 then none else some (a / b)

def rem? (a b : Int32) : Option Int32 := if b = 0 then none else some (a % b)

/-- The shift of a byte. -/
def byteShl? (v n : UInt8) : Option UInt8 := if n < 8 then some (v <<< n) else none

def byteAdd? (a b : UInt8) : Option UInt8 := if a.toNat + b.toNat < UInt8.size then some (a + b) else none

def byteSub? (a b : UInt8) : Option UInt8 := if b ≤ a then some (a - b) else none

theorem mul?_of_lt {a b : UInt32} (h : a.toNat * b.toNat < UInt32.size) : mul? a b = some (a * b) := if_pos h

theorem byteAdd?_of_lt {a b : UInt8} (h : a.toNat + b.toNat < UInt8.size) : byteAdd? a b = some (a + b) := if_pos h

theorem byteSub?_of_le {a b : UInt8} (h : b ≤ a) : byteSub? a b = some (a - b) := if_pos h

end Checked

open Checked
open OptionT (lift)

/-! ### Shifts -/

namespace Alu

def bitAt? (value n : UInt32) : Option Bool := do
  return (← shr? value n) &&& 1 != 0

def rotateLeftThroughCarry? (w : Width) (value : UInt32) (carry : Bool) : Option (UInt32 × Bool) := do
  let out ← bitAt? value (← sub? w.bits 1)
  return (((← shl? value 1) ||| carry.toUInt32) &&& w.mask, out)

def rotateRightThroughCarry? (w : Width) (value : UInt32) (carry : Bool) : Option (UInt32 × Bool) := do
  let entering ← shl? carry.toUInt32 (← sub? w.bits 1)
  return ((← shr? value 1) ||| entering, value &&& 1 != 0)

def repeated? (step : UInt32 → Bool → Option (UInt32 × Bool)) : Nat → UInt32 → Bool → Option (UInt32 × Bool)
  | 0, value, carry => some (value, carry)
  | n + 1, value, carry => do
    let (value, carry) ← step value carry
    repeated? step n value carry

def shiftValue? (op : ShiftOp) (w : Width) (n value : UInt32) (carry : Bool) : Option (UInt32 × Bool) :=
  match op with
  | .shal | .shll => do
    let out ← bitAt? value (← sub? w.bits n)
    return ((← shl? value n) &&& w.mask, out)
  | .shar => do
    let out ← bitAt? value (← sub? n 1)
    return ((← sar? (w.signExtend value).toInt32 n).toUInt32 &&& w.mask, out)
  | .shlr => do
    let out ← bitAt? value (← sub? n 1)
    return (← shr? value n, out)
  | .rotl => do
    let entering ← shr? value (← sub? w.bits n)
    let rotated := ((← shl? value n) ||| entering) &&& w.mask
    return (rotated, ← bitAt? rotated 0)
  | .rotr => do
    let entering ← shl? value (← sub? w.bits n)
    let out ← bitAt? value (← sub? n 1)
    return (((← shr? value n) ||| entering) &&& w.mask, out)
  | .rotxl => repeated? (rotateLeftThroughCarry? w) n.toNat value carry
  | .rotxr => repeated? (rotateRightThroughCarry? w) n.toNat value carry

def shiftOverflows? (w : Width) (n value : UInt32) : Option Bool := do
  let top ← shr? value (← sub? (← sub? w.bits 1) n)
  let ones ← sub? (← shl? 1 (← add? n 1)) 1
  return top != 0 && top != ones

def shift? (op : ShiftOp) (w : Width) (count : UInt8) (value : UInt32) (f : ConditionCodes) : Option Result := do
  let value := value &&& w.mask
  let (shifted, carry) ← shiftValue? op w count.toUInt32 value f.c
  let overflow ← if op = .shal then shiftOverflows? w count.toUInt32 value else some false
  return ⟨shifted, { signFlags w shifted f with v := overflow, c := carry }⟩

private theorem repeated?_eq {step? : UInt32 → Bool → Option (UInt32 × Bool)} {step : UInt32 → Bool → UInt32 × Bool}
    (h : ∀ value carry, step? value carry = some (step value carry)) (n : Nat) (value : UInt32) (carry : Bool) :
    repeated? step? n value carry = some (repeated step n value carry) := by
  induction n generalizing value carry with
  | zero => rfl
  | succ n ih =>
    have hstep := h value carry
    rw [repeated?, hstep]
    exact ih _ _

/-- The sign is the last bit of a width. -/
private theorem bitAt_sign (w : Width) (value : UInt32) : bitAt value (w.bits - 1) = negative w value := by
  have hbit : ∀ k, value.toNat >>> k &&& 1 = 0 ↔ value.toNat &&& 2 ^ k = 0 := by
    intro k
    rw [Nat.and_two_pow, Nat.and_comm]
    have htest : value.toNat.testBit k = (1 &&& value.toNat >>> k != 0) := rfl
    cases h : value.toNat.testBit k with
    | false => simpa [h] using htest
    | true => simpa [h] using htest
  rw [bitAt, negative, Bool.eq_iff_iff, bne_iff_ne, bne_iff_ne, ne_eq, ne_eq, ← UInt32.toNat_inj, ← UInt32.toNat_inj]
  cases w with
  | byte => exact not_congr (hbit 7)
  | word => exact not_congr (hbit 15)
  | long => exact not_congr (hbit 31)

private theorem rotateLeftThroughCarry?_eq (w : Width) (value : UInt32) (carry : Bool) :
    rotateLeftThroughCarry? w value carry = some (rotateLeftThroughCarry w value carry) := by
  rw [rotateLeftThroughCarry, ← bitAt_sign]
  cases w <;> rfl

private theorem rotateRightThroughCarry?_eq (w : Width) (value : UInt32) (carry : Bool) :
    rotateRightThroughCarry? w value carry = some (rotateRightThroughCarry w value carry) := by
  cases w <;> cases carry <;> rfl

theorem shiftValue?_eq (op : ShiftOp) (w : Width) {n : UInt32} (hn : n = 1 ∨ n = 2) (value : UInt32) (carry : Bool) :
    shiftValue? op w n value carry = some (shiftValue op w n value carry) := by
  rcases hn with rfl | rfl <;> cases op
  case' inl.rotxl | inr.rotxl => exact repeated?_eq (rotateLeftThroughCarry?_eq w) _ _ _
  case' inl.rotxr | inr.rotxr => exact repeated?_eq (rotateRightThroughCarry?_eq w) _ _ _
  all_goals cases w <;> rfl

theorem shiftOverflows?_eq (w : Width) {n : UInt32} (hn : n = 1 ∨ n = 2) (value : UInt32) :
    shiftOverflows? w n value = some (shiftOverflows w n value) := by
  rcases hn with rfl | rfl <;> cases w <;> rfl

theorem shift?_eq (op : ShiftOp) (w : Width) {count : UInt8} (hcount : count = 1 ∨ count = 2) (value : UInt32)
    (f : ConditionCodes) : shift? op w count value f = some (shift op w count value f) := by
  have hn : count.toUInt32 = 1 ∨ count.toUInt32 = 2 := by
    rcases hcount with rfl | rfl
    · exact .inl rfl
    · exact .inr rfl
  simp only [shift?, shift, shiftValue?_eq op w hn, shiftOverflows?_eq w hn]
  by_cases hop : op = .shal
  · simp [hop]
  · simp [hop]

end Alu

/-- The mask of a bit, made by a shift. -/
def bitMask? (n : UInt8) : Option UInt8 := byteShl? 1 (n &&& 7)

theorem bitMask?_eq (n : UInt8) : bitMask? n = some (bitMask n) := by
  have h : ∀ n : UInt8, n &&& 7 < 8 := Encoding.forall_byte (by decide)
  exact if_pos (h n)

/-! ### Products and quotients -/

namespace Registers

def multiplyUnsigned? (r : Registers) (width : Width) (src dst : UInt8) : Option Registers := do
  return r.write width.double dst (← mul? (r.read width src) (r.read width.double dst &&& width.mask))

def divideUnsigned? (r : Registers) (width : Width) (src dst : UInt8) : Option Registers := do
  let divisor := r.read width src
  let dividend := r.read width.double dst
  let flagged := { r with ccr := { r.ccr with n := Alu.negative width divisor, z := divisor == 0 } }
  if divisor = 0 then return flagged
  else return flagged.writeQuotient width dst (← div? dividend divisor) (← mod? dividend divisor)

def divideSigned? (r : Registers) (width : Width) (src dst : UInt8) : Option Registers := do
  let divisor := (width.signExtend (r.read width src)).toInt32
  let dividend := (width.double.signExtend (r.read width.double dst)).toInt32
  let n := (divisor < 0 : Bool) != (dividend < 0 : Bool)
  let flagged := { r with ccr := { r.ccr with n := n, z := divisor == 0 } }
  if divisor = 0 then return flagged
  else return flagged.writeQuotient width dst (← quot? dividend divisor).toUInt32 (← rem? dividend divisor).toUInt32

/-- The product with signs is cut to a word, so nothing has to be checked of it. -/
def mulDiv? (r : Registers) (op : MulDivOp) (width : Width) (src dst : UInt8) : Option Registers :=
  match op with
  | .mulxu => r.multiplyUnsigned? width src dst
  | .mulxs => some (r.multiplySigned width src dst)
  | .divxu => r.divideUnsigned? width src dst
  | .divxs => r.divideSigned? width src dst

variable (r : Registers) {width : Width} (src dst : UInt8)

theorem multiplyUnsigned?_eq (hw : width ≠ .long) :
    r.multiplyUnsigned? width src dst = some (r.multiplyUnsigned width src dst) := by
  have hmask : width.mask.toNat ≤ 65535 := by
    cases width with
    | byte => decide
    | word => decide
    | long => exact absurd rfl hw
  have ha : (r.read width src).toNat ≤ 65535 := Nat.le_trans (UInt32.le_iff_toNat_le.1 (r.read_le_mask src width)) hmask
  have hb : (r.read width.double dst &&& width.mask).toNat ≤ 65535 := by
    rw [UInt32.toNat_and]
    exact Nat.le_trans Nat.and_le_right hmask
  have hproduct := Nat.mul_le_mul ha hb
  rw [multiplyUnsigned?, mul?_of_lt (Nat.lt_of_le_of_lt hproduct (by decide))]
  rfl

theorem divideUnsigned?_eq (width : Width) :
    r.divideUnsigned? width src dst = some (r.divideUnsigned width src dst) := by
  unfold divideUnsigned? divideUnsigned
  by_cases h : r.read width src = 0
  · simp [h]
  · simp [h, div?, mod?]

theorem divideSigned?_eq (width : Width) : r.divideSigned? width src dst = some (r.divideSigned width src dst) := by
  unfold divideSigned? divideSigned
  by_cases h : (width.signExtend (r.read width src)).toInt32 = 0
  · simp [h]
  · simp [h, quot?, rem?]

theorem mulDiv?_eq (op : MulDivOp) (hw : width ≠ .long) : r.mulDiv? op width src dst = some (r.mulDiv op width src dst) := by
  cases op with
  | mulxu => exact r.multiplyUnsigned?_eq src dst hw
  | mulxs => rfl
  | divxu => exact r.divideUnsigned?_eq src dst width
  | divxs => exact r.divideSigned?_eq src dst width

def shift? (r : Registers) (op : ShiftOp) (width : Width) (count dst : UInt8) : Option Registers := do
  return r.commit width dst (← Alu.shift? op width count (r.read width dst) r.ccr)

theorem shift?_eq (op : ShiftOp) (width : Width) {count : UInt8} (hcount : count = 1 ∨ count = 2) :
    r.shift? op width count dst = some (r.shift op width count dst) := by
  rw [shift?, Alu.shift?_eq op width hcount]
  rfl

end Registers

/-! ### Register lists -/

/-- The numbers from one up to another, which is not among them. -/
def upwards (first stop : UInt8) : List UInt8 := (List.range' first.toNat (stop.toNat - first.toNat)).map Nat.toUInt8

/-- The registers that are pushed, in their order. -/
def pushed? (first count : UInt8) : Option (List UInt8) := do
  return upwards first (← byteAdd? first count)

/-- The registers that are popped, in their order. -/
def popped? (last count : UInt8) : Option (List UInt8) := do
  let above ← byteAdd? last 1
  return (upwards (← byteSub? above count) above).reverse

theorem pushed?_eq {first count : UInt8} (h : first.toNat + count.toNat ≤ 8) :
    pushed? first count = some ((List.range' first.toNat count.toNat).map Nat.toUInt8) := by
  have hsize : UInt8.size = 256 := rfl
  have hsum : (first + count).toNat = first.toNat + count.toNat := by
    rw [UInt8.toNat_add]
    exact Nat.mod_eq_of_lt (by omega)
  rw [pushed?, byteAdd?_of_lt (by omega)]
  show some (upwards first (first + count)) = _
  rw [upwards, hsum, Nat.add_sub_cancel_left]

theorem popped?_eq {last count : UInt8} (hcount : count.toNat ≤ last.toNat + 1) (hlast : last.toNat < 8) :
    popped? last count = some ((List.range' (last.toNat + 1 - count.toNat) count.toNat).map Nat.toUInt8).reverse := by
  have hone : (1 : UInt8).toNat = 1 := rfl
  have hsize : UInt8.size = 256 := rfl
  have habove : (last + 1).toNat = last.toNat + 1 := by
    rw [UInt8.toNat_add]
    exact Nat.mod_eq_of_lt (by omega)
  have hle : count ≤ last + 1 := by
    rw [UInt8.le_iff_toNat_le]
    omega
  have hlow : (last + 1 - count).toNat = last.toNat + 1 - count.toNat := by
    rw [UInt8.toNat_sub_of_le _ _ hle, habove]
  rw [popped?, byteAdd?_of_lt (by omega)]
  show (byteSub? (last + 1) count).bind _ = _
  rw [byteSub?_of_le hle]
  show some (upwards (last + 1 - count) (last + 1)).reverse = _
  rw [upwards, hlow, habove]
  congr 4
  omega

example : popped? 1 4 = none := rfl

namespace CpuM

variable {β : Type} [Bus β]

def pushEach : List UInt8 → CpuM β Unit
  | [] => pure ()
  | reg :: regs => do
    push32 ((← getRegs).readLong reg)
    pushEach regs

def popEach : List UInt8 → CpuM β Unit
  | [] => pure ()
  | reg :: regs => do
    let value ← pop32
    modifyRegs (·.writeLong reg value)
    popEach regs

theorem pushEach_range (n k : Nat) :
    (pushEach ((List.range' k n).map Nat.toUInt8) : CpuM β Unit) = pushRegisters k.toUInt8 n := by
  induction n generalizing k with
  | zero => rfl
  | succ n ih =>
    have hnext : (k + 1).toUInt8 = k.toUInt8 + 1 := UInt8.ofNat_add k 1
    rw [List.range'_succ, List.map_cons, pushEach, pushRegisters, ih, hnext]

theorem popEach_range (n k : Nat) :
    (popEach ((List.range' k n).map Nat.toUInt8).reverse : CpuM β Unit) = popRegisters (k + n - 1).toUInt8 n := by
  induction n with
  | zero => rfl
  | succ n ih =>
    rw [List.range'_1_concat, List.map_append, List.reverse_append]
    show popEach ((k + n).toUInt8 :: ((List.range' k n).map Nat.toUInt8).reverse) = _
    rw [popEach, ih, popRegisters]
    -- the register before the first of all is never reached
    cases n with
    | zero => rfl
    | succ n =>
      have hbefore : (k + (n + 1) - 1).toUInt8 = (k + (n + 1)).toUInt8 - 1 := UInt8.ofNat_sub (by omega)
      rw [hbefore]
      rfl

/-! ### Actions -/

/-- A value that a check has to let through. -/
def checked {α : Type} (value : Option α) : OptionT (CpuM β) α := OptionT.mk (pure value)

def modifyRegs? (f : Registers → Option Registers) : OptionT (CpuM β) Unit := do
  let regs ← lift getRegs
  let regs ← checked (f regs)
  lift (setRegs regs)

/-- A value is never delivered to an immediate. -/
def deliver? (width : Width) (dst : Operand) (addr : Option UInt32) (value : UInt32) : OptionT (CpuM β) Unit :=
  match addr, dst with
  | some addr, _ => lift (writeSized width addr value)
  | none, .reg id => lift (modifyRegs (·.write width id value))
  | none, _ => failure

def move? (width : Width) (src dst : Operand) : OptionT (CpuM β) Unit := do
  let addr ← lift (destinationAddress width dst)
  let value ← lift (sourceValue width src)
  lift (modifyRegs fun r => { r with ccr := Alu.moveFlags width value r.ccr })
  deliver? width dst addr value
  lift (advanceSource width src)

def storeControl? (src : ControlReg) (dst : Operand) : OptionT (CpuM β) Unit := do
  let regs ← lift getRegs
  let value := regs.control src
  match dst with
  | .reg id => lift (modifyRegs (·.writeByte id value))
  | .mem m =>
    let addr ← lift (resolve m .word)
    lift (write16 addr value.toUInt16)
  | .imm _ => failure

def bitOperation? (op : BitOp) (number : BitNumber) (target : BitTarget) : OptionT (CpuM β) Unit := do
  let regs ← lift getRegs
  let mask ← checked (bitMask? (regs.bitNumber number))
  match target with
  | .reg id =>
    let regs ← lift getRegs
    lift (operateBit op mask (regs.readByte id) fun value => modifyRegs (·.writeByte id value))
  | .mem m =>
    let addr ← lift (resolve m .byte)
    let byte ← lift (read8 addr)
    lift (operateBit op mask byte (write8 addr))

/-- Carries out an operation with every check; it has no result if one of them fails. -/
def perform? (op : Operation) : OptionT (CpuM β) Unit :=
  match op with
  | .mov width src dst => move? width src dst
  | .mulDiv op width src dst => modifyRegs? (·.mulDiv? op width src dst)
  | .shift op width count dst => modifyRegs? (·.shift? op width count dst)
  | .bit op number target => bitOperation? op number target
  | .stc src dst => storeControl? src dst
  | .ldm last count => do
    let regs ← checked (popped? last count)
    lift (popEach regs)
  | .stm first count => do
    let regs ← checked (pushed? first count)
    lift (pushEach regs)
  | op => lift (perform op)

/-- Executes an instruction with every check. -/
def execute? (i : Instruction) : OptionT (CpuM β) Unit := do
  lift (modifyRegs fun r => { r with pc := i.nextPc })
  perform? i.op
  lift (spend i.op.internalCycles.toUInt64)

omit [Bus β] in
private theorem checked_bind {α γ : Type} (a : α) (f : α → OptionT (CpuM β) γ) :
    (checked (some a) >>= f : OptionT (CpuM β) γ) = f a := rfl

omit [Bus β] in
theorem modifyRegs?_eq {f? : Registers → Option Registers} {f : Registers → Registers} (h : ∀ r, f? r = some (f r)) :
    (modifyRegs? f? : OptionT (CpuM β) Unit) = lift (modifyRegs f) := by
  simp only [modifyRegs?, h]
  rfl

theorem deliver?_eq (width : Width) {dst : Operand} {addr : Option UInt32} (value : UInt32)
    (h : addr = none → ∃ id, dst = .reg id) :
    (deliver? width dst addr value : OptionT (CpuM β) Unit) = lift (deliver width dst addr value) := by
  cases addr with
  | some addr => rfl
  | none =>
    obtain ⟨id, rfl⟩ := h rfl
    rfl

theorem move?_eq (width : Width) (src : Operand) {dst : Operand} (h : dst.IsPlace) :
    (move? width src dst : OptionT (CpuM β) Unit) = lift (move width src dst) := by
  have hpure : ∀ a : Option UInt32, (lift (pure a) : OptionT (CpuM β) (Option UInt32)) = pure a := fun _ => rfl
  cases dst with
  | imm value => exact h.elim
  | reg id =>
    have hdeliver : ∀ value, (deliver? width (.reg id) none value : OptionT (CpuM β) Unit) = _ :=
      fun value => deliver?_eq width value fun _ => ⟨id, rfl⟩
    simp only [move?, move, destinationAddress, OptionT.lift_bind, hpure, pure_bind, hdeliver]
  | mem m =>
    have hdeliver : ∀ addr value, (deliver? width (.mem m) (some addr) value : OptionT (CpuM β) Unit) = _ :=
      fun addr value => deliver?_eq width value nofun
    simp only [move?, move, destinationAddress, map_eq_pure_bind, OptionT.lift_bind, bind_assoc, hpure, pure_bind, hdeliver]

theorem storeControl?_eq (src : ControlReg) {dst : Operand} (h : dst.IsPlace) :
    (storeControl? src dst : OptionT (CpuM β) Unit) = lift (storeControl src dst) := by
  cases dst with
  | imm value => exact h.elim
  | reg id => simp only [storeControl?, storeControl, OptionT.lift_bind]
  | mem m => simp only [storeControl?, storeControl, OptionT.lift_bind]

theorem bitOperation?_eq (op : BitOp) (number : BitNumber) (target : BitTarget) :
    (bitOperation? op number target : OptionT (CpuM β) Unit) = lift (bitOperation op number target) := by
  rw [bitOperation?, bitOperation, OptionT.lift_bind]
  refine bind_congr fun regs => ?_
  rw [bitMask?_eq, checked_bind]
  cases target with
  | reg id => rfl
  | mem m => simp only [OptionT.lift_bind]

/-- A well-formed operation passes every check. -/
theorem perform?_eq {op : Operation} (h : op.WellFormed) :
    (perform? op : OptionT (CpuM β) Unit) = lift (perform op) := by
  cases op with
  | mov width src dst => exact move?_eq width src h.2.2.1
  | mulDiv op width src dst => exact modifyRegs?_eq fun r => r.mulDiv?_eq src dst op h.1
  | shift op width count dst => exact modifyRegs?_eq fun r => r.shift?_eq dst op width h.1
  | bit op number target => exact bitOperation?_eq op number target
  | stc src dst => exact storeControl?_eq src h.2
  | ldm last count =>
    obtain ⟨-, -, hcount, hlast⟩ := h
    rw [perform?, popped?_eq hcount hlast, checked_bind, popEach_range, Nat.sub_add_cancel hcount, Nat.add_sub_cancel]
    show lift (popRegisters (UInt8.ofNat last.toNat) count.toNat) = _
    rw [UInt8.ofNat_toNat]
    rfl
  | stm first count =>
    obtain ⟨-, -, hfit⟩ := h
    rw [perform?, pushed?_eq hfit, checked_bind, pushEach_range]
    show lift (pushRegisters (UInt8.ofNat first.toNat) count.toNat) = _
    rw [UInt8.ofNat_toNat]
    rfl
  | _ => rfl

theorem execute?_eq {i : Instruction} (h : i.op.WellFormed) :
    (execute? i : OptionT (CpuM β) Unit) = lift (execute i) := by
  simp only [execute?, execute, perform?_eq h, OptionT.lift_bind]

end CpuM

/-! ### Decoded instructions -/

/-- What a run comes to is a leaf. -/
theorem Decoding.Leaves.of_run {σ α : Type} {P : List UInt8 → α → Prop} {fetch : Source σ} {start : UInt32}
    {d : Decoding α} {a : α} {consumed bytes : List UInt8} {s t : σ} (hd : d.Leaves P consumed)
    (h : d.run fetch start consumed s = .ok (a, bytes) t) : P bytes a := by
  induction d generalizing consumed s with
  | done a' =>
    cases h
    exact hd
  | illegal => cases h
  | byte next ih =>
    obtain ⟨b, u, -, hrun⟩ := BusM.bind_ok.1 h
    exact ih b (hd b) hrun

namespace Instruction

variable {σ : Type} {fetch : Source σ} {pc : UInt32} {s t : σ} {i : Instruction}

/-- What a decoding results in satisfies what its leaves do. -/
theorem decode_leaf {P : List UInt8 → Operation → Prop} (hP : (Decoding.operation (Address.even pc)).Leaves P [])
    (h : decode fetch pc s = .ok i t) : i.addr = Address.even pc ∧ P i.bytes i.op := by
  obtain ⟨⟨op, bytes⟩, u, hrun, hi⟩ := BusM.bind_ok.1 h
  cases hi
  exact ⟨rfl, hP.of_run hrun⟩

theorem wellFormed_of_decode (h : decode fetch pc s = .ok i t) : i.op.WellFormed :=
  (decode_leaf Decoding.operation_wellFormed h).2

/-- A decoded instruction lies at the even address, has an even number of bytes from two to ten, which is no fewer than a
decoding can ask for, and its operation is well formed.  So its execution meets every check of the arithmetic, on every bus
and in every state. -/
theorem decode_wellFormed {σ : Type} (fetch : Source σ) (pc : UInt32) (s t : σ) (i : Instruction)
    (h : decode fetch pc s = .ok i t) :
    i.addr = pc &&& 0xFFFFFE ∧
      i.bytes.length % 2 = 0 ∧ 2 ≤ i.bytes.length ∧ i.bytes.length ≤ 10 ∧
      (Decoding.operation i.addr).upTo 10 = Decoding.operation i.addr ∧
      i.op.WellFormed ∧
      ∀ (β : Type) [Bus β], (CpuM.execute? i : OptionT (CpuM β) Unit) = OptionT.lift (CpuM.execute i) := by
  have hwhole := (Decoding.operation_ends (Address.even pc)).leaves (List.length_nil (α := UInt8))
  obtain ⟨haddr, heven, hmin, hmax⟩ := decode_leaf hwhole h
  have hformed := wellFormed_of_decode h
  exact ⟨haddr, heven, hmin, hmax, Decoding.upTo_operation _, hformed, fun _ _ => CpuM.execute?_eq hformed⟩

/-- `LDM.L @SP+,(ER4-ER7)`, of which the register numbers are counted down from the last. -/
theorem decode_wellFormed_ldm :
    let code := Source.fixed (Decoding.fetchCode 0x100 #[0x01, 0x30, 0x6D, 0x77])
    let i : Instruction := ⟨0x100, .ldm 7 4, [0x01, 0x30, 0x6D, 0x77]⟩
    decode code 0x101 () = .ok i () ∧ i.op.WellFormed ∧ popped? 7 4 = some [7, 6, 5, 4] ∧
      ∀ (β : Type) [Bus β], (CpuM.execute? i : OptionT (CpuM β) Unit) = OptionT.lift (CpuM.execute i) := by
  intro code i
  have hdecode : decode code 0x101 () = .ok i () := rfl
  obtain ⟨-, -, -, -, -, hformed, hchecked⟩ := decode_wellFormed code 0x101 () () i hdecode
  exact ⟨hdecode, hformed, rfl, hchecked⟩

end Instruction

/-! ### Instructions that a step carries out -/

namespace CpuM

variable {β : Type} [Bus β] {config : Config} {s u : System β}

/-- The byte reads of the core are a source. -/
private theorem run_read8 {α : Type} (d : Decoding α) (start : UInt32) (consumed : List UInt8) :
    (d.run read8 start consumed : CpuM β (α × List UInt8)) config =
      d.run (fun addr => (read8 addr : CpuM β UInt8) config) start consumed := by
  induction d generalizing consumed with
  | done a => rfl
  | illegal => rfl
  | byte next ih =>
    show EStateM.bind ((read8 _ : CpuM β UInt8) config) (fun b => (next b).run read8 start (consumed ++ [b]) config) = _
    congr 1
    funext b
    exact ih b (consumed ++ [b])

/-- An instruction that is carried out satisfies what the leaves of its decoding do. -/
theorem CarriesOut.leaf {i : Instruction} {P : List UInt8 → Operation → Prop}
    (hP : (Decoding.operation (Address.even s.cpu.regs.pc)).Leaves P []) (h : CarriesOut config i s u) :
    i.addr = Address.even s.cpu.regs.pc ∧ P i.bytes i.op := by
  obtain ⟨t, hd⟩ := h.decoded
  have hsource : Instruction.decode (fun addr => (read8 addr : CpuM β UInt8) config) s.cpu.regs.pc s = .ok i t := by
    rw [← hd]
    unfold Instruction.decode
    rw [← run_read8]
    rfl
  exact Instruction.decode_leaf hP hsource

theorem CarriesOut.wellFormed {i : Instruction} (h : CarriesOut config i s u) : i.op.WellFormed :=
  (h.leaf Decoding.operation_wellFormed).2

end CpuM

end H8S
