import H8S.Cpu.Execute

/-!
# What register operations leave alone

Results go to the eight registers and to the control registers; the program counter moves only by jumps.  So every
operation on the register file keeps `pc`, and the stack pointer can be moved without any other change.  What is read is no
wider than the view it is read from.
-/

namespace H8S.Registers

variable (r : Registers) (id : UInt8) (width : Width)

@[simp] theorem writeLong_pc (value : UInt32) : (r.writeLong id value).pc = r.pc := rfl

@[simp] theorem writeByte_pc (value : UInt8) : (r.writeByte id value).pc = r.pc := rfl

@[simp] theorem write_pc (value : UInt32) : (r.write width id value).pc = r.pc := by
  cases width <;> rfl

@[simp] theorem write_ccr (value : UInt32) : (r.write width id value).ccr = r.ccr := by
  cases width <;> rfl

@[simp] theorem write_exr (value : UInt32) : (r.write width id value).exr = r.exr := by
  cases width <;> rfl

@[simp] theorem setControl_pc (reg : ControlReg) (value : UInt8) : (r.setControl reg value).pc = r.pc := by
  cases reg <;> rfl

@[simp] theorem setControl_er (reg : ControlReg) (value : UInt8) : (r.setControl reg value).er = r.er := by
  cases reg <;> rfl

/-- A control register holds what it was set to. -/
@[simp] theorem control_setControl (reg : ControlReg) (value : UInt8) : (r.setControl reg value).control reg = value := by
  cases reg with
  | ccr => exact ConditionCodes.toByte_ofByte value
  | exr => rfl

theorem control_setControl_of_ne {reg reg' : ControlReg} (value : UInt8) (h : reg' ≠ reg) :
    (r.setControl reg value).control reg' = r.control reg' := by
  cases reg <;> cases reg' <;> first | rfl | exact absurd rfl h

@[simp] theorem commit_pc (result : Alu.Result) : (r.commit width id result).pc = r.pc := by
  simp [commit]

@[simp] theorem commit_ccr (result : Alu.Result) : (r.commit width id result).ccr = result.flags := by
  simp [commit]

@[simp] theorem commit_exr (result : Alu.Result) : (r.commit width id result).exr = r.exr := by
  simp [commit]

@[simp] theorem alu_pc (op : AluOp) (source : UInt32) : (r.alu op width source id).pc = r.pc := by
  unfold alu
  split <;> simp

@[simp] theorem writeQuotient_pc (quotient remainder : UInt32) :
    (r.writeQuotient width id quotient remainder).pc = r.pc := by
  cases width <;> rfl

@[simp] theorem mulDiv_pc (op : MulDivOp) (src dst : UInt8) : (r.mulDiv op width src dst).pc = r.pc := by
  cases op with
  | mulxu => simp [mulDiv, multiplyUnsigned]
  | mulxs => simp [mulDiv, multiplySigned]
  | divxu => unfold mulDiv divideUnsigned; simp only; split <;> simp
  | divxs => unfold mulDiv divideSigned; simp only; split <;> simp

@[simp] theorem controlLogic_pc (op : LogicOp) (imm : UInt8) (dst : ControlReg) :
    (r.controlLogic op imm dst).pc = r.pc := by
  simp [controlLogic]

theorem resolve_pc (m : MemOperand) : (m.resolve width r).2.pc = r.pc := by
  cases m <;> rfl

@[simp] theorem afterAccess_pc (m : MemOperand) : (m.afterAccess width r).pc = r.pc := by
  cases m <;> rfl

/-! ### Views -/

/-- A view has no more bits than its width. -/
theorem read_le_mask : r.read width id ≤ width.mask := by
  rw [UInt32.le_iff_toNat_le]
  cases width with
  | byte =>
    have h := (r.readByte id).toNat_lt
    have hmask : Width.byte.mask.toNat = 255 := rfl
    rw [read, UInt8.toNat_toUInt32, hmask]
    omega
  | word =>
    have h := (r.readWord id).toNat_lt
    have hmask : Width.word.mask.toNat = 65535 := rfl
    rw [read, UInt16.toNat_toUInt32, hmask]
    omega
  | long =>
    have h := (r.readLong id).toNat_lt
    have hmask : Width.long.mask.toNat = 4294967295 := rfl
    rw [read, hmask]
    omega

/-! ### The stack pointer -/

@[simp] theorem setSp_sp (value : UInt32) : (r.setSp value).sp = value := by
  simp [setSp, sp, readLong, writeLong]

@[simp] theorem setSp_pc (value : UInt32) : (r.setSp value).pc = r.pc := rfl

@[simp] theorem setSp_ccr (value : UInt32) : (r.setSp value).ccr = r.ccr := rfl

@[simp] theorem setSp_exr (value : UInt32) : (r.setSp value).exr = r.exr := rfl

end H8S.Registers
