import H8S.Proofs.InterruptDispatch
import H8S.Proofs.RegisterViews

/-!
# Which registers and flags an instruction writes

The text of an operation says which views of the registers it may write (`Operation.views`), and which flags.  All other bits
of the registers and all other flags are after a successful operation as they were before (`Altering.perform`).  This is a
preorder (`Operation.Alters`), so an action alters what its parts alter; accesses to memory alter nothing.
-/

namespace H8S

/-! ### What an operation writes -/

/-- The pointer that an operand moves. -/
def MemOperand.pointers : MemOperand → List View
  | .postInc p | .preDec p => [⟨.long, p⟩]
  | _ => []

namespace Operand

def pointers : Operand → List View
  | .mem m => m.pointers
  | _ => []

/-- The view that a result goes to, unless it goes to memory. -/
def views (width : Width) : Operand → List View
  | .reg id => [⟨width, id⟩]
  | _ => []

end Operand

/-- What a bit operation writes of the registers. -/
def BitTarget.views (op : BitOp) : BitTarget → List View
  | .reg id => if op.modifies then [⟨.byte, id⟩] else []
  | .mem m => m.pointers

namespace Operation

/-- The views of registers that an operation may write: that of its destination, the pointers that it moves, the stack
pointer, and what a block move counts with. -/
def views : Operation → List View
  | .mov width src dst => dst.views width ++ dst.pointers ++ src.pointers
  | .alu op width src dst => (if op = .cmp then [] else [⟨width, dst⟩]) ++ src.pointers
  | .adds _ dst | .subs _ dst => [⟨.long, dst⟩]
  | .inc width _ dst | .dec width _ dst | .unary _ width dst | .shift _ width _ dst => [⟨width, dst⟩]
  | .daa dst | .das dst => [⟨.byte, dst⟩]
  | .mulDiv _ width _ dst => [⟨width.double, dst⟩]
  | .bit op _ target => target.views op
  | .bsr _ _ | .jsr _ | .rts | .rte | .trapa _ => [⟨.long, 7⟩]
  | .ldc src _ => src.pointers
  | .stc _ dst => dst.views .byte ++ dst.pointers
  | .ldm last count => ⟨.long, 7⟩ :: (List.range count.toNat).map fun k => ⟨.long, last - k.toUInt8⟩
  | .stm _ _ => [⟨.long, 7⟩]
  | .eepmov width => [⟨.long, CpuM.blockSource⟩, ⟨.long, CpuM.blockDestination⟩, ⟨width, CpuM.blockCounter width⟩]
  | .nop | .sleep | .bcc _ _ _ | .jmp _ | .controlLogic _ _ _ | .tas _ => []

/-- Whether an operation is about the condition codes as a whole. -/
def writesFlags : Operation → Bool
  | .ldc _ .ccr | .controlLogic _ _ .ccr | .rte | .trapa _ => true
  | _ => false

def writesExtended : Operation → Bool
  | .ldc _ .exr | .controlLogic _ _ .exr => true
  | _ => false

/-- Whether an operation may change the half carry. -/
def writesHalf : Operation → Bool
  | .alu .add _ _ _ | .alu .addx _ _ _ | .alu .sub _ _ _ | .alu .subx _ _ _ | .alu .cmp _ _ _ => true
  | .unary .neg _ _ | .das _ => true
  | op => op.writesFlags

/-- Whether an operation may change the carry. -/
def writesCarry : Operation → Bool
  | .daa _ | .shift _ _ _ _ => true
  | .bit .bld _ _ | .bit .bild _ _ | .bit .bor _ _ | .bit .bior _ _ => true
  | .bit .bxor _ _ | .bit .bixor _ _ | .bit .band _ _ | .bit .biand _ _ => true
  | op => op.writesHalf

/-- The flags that an operation leaves alone are the same. -/
structure KeepsFlags (op : Operation) (f f' : ConditionCodes) : Prop where
  masks : op.writesFlags = false → f'.i = f.i ∧ f'.ui = f.ui ∧ f'.u = f.u
  half : op.writesHalf = false → f'.h = f.h
  carry : op.writesCarry = false → f'.c = f.c

/-- Registers and flags differ at most in what an operation may write. -/
structure Alters (op : Operation) (r r' : Registers) : Prop where
  flags : op.KeepsFlags r.ccr r'.ccr
  extended : op.writesExtended = false → r'.exr = r.exr
  bits : ∀ k i, (∀ v ∈ op.views, ¬v.Holds k i) → r'.bit k i = r.bit k i

variable {op : Operation} {f f' f'' : ConditionCodes} {r r' r'' : Registers} {width : Width} {id : UInt8}

theorem KeepsFlags.refl (f : ConditionCodes) : op.KeepsFlags f f := ⟨fun _ => ⟨rfl, rfl, rfl⟩, fun _ => rfl, fun _ => rfl⟩

theorem KeepsFlags.trans (h : op.KeepsFlags f f') (k : op.KeepsFlags f' f'') : op.KeepsFlags f f'' where
  masks hop := by
    obtain ⟨hi, hui, hu⟩ := h.masks hop
    obtain ⟨ki, kui, ku⟩ := k.masks hop
    exact ⟨ki.trans hi, kui.trans hui, ku.trans hu⟩
  half hop := (k.half hop).trans (h.half hop)
  carry hop := (k.carry hop).trans (h.carry hop)

/-- An operation that is about single flags. -/
theorem KeepsFlags.of_eq (hi : f'.i = f.i) (hui : f'.ui = f.ui) (hu : f'.u = f.u) (hh : op.writesHalf = false → f'.h = f.h)
    (hc : op.writesCarry = false → f'.c = f.c) : op.KeepsFlags f f' :=
  ⟨fun _ => ⟨hi, hui, hu⟩, hh, hc⟩

namespace Alters

theorem refl (r : Registers) : op.Alters r r := ⟨.refl r.ccr, fun _ => rfl, fun _ _ _ => rfl⟩

theorem trans (h : op.Alters r r') (k : op.Alters r' r'') : op.Alters r r'' where
  flags := h.flags.trans k.flags
  extended hop := (k.extended hop).trans (h.extended hop)
  bits n i hn := (k.bits n i hn).trans (h.bits n i hn)

theorem of_eq (h : r' = r) : op.Alters r r' := h ▸ refl r'

theorem setFlags (h : op.KeepsFlags r.ccr f) : op.Alters r { r with ccr := f } := ⟨h, fun _ => rfl, fun _ _ _ => rfl⟩

/-- A write to a part of a view. -/
theorem write (value : UInt32) (h : ∀ k i, View.Holds ⟨width, id⟩ k i → ∃ v ∈ op.views, v.Holds k i) :
    op.Alters r (r.write width id value) where
  flags := by
    cases width <;> exact .refl r.ccr
  extended _ := by
    cases width <;> rfl
  bits k i hn := by
    refine Registers.bit_write_of_not_holds value fun hh => ?_
    obtain ⟨v, hv, hvk⟩ := h k i hh
    exact hn v hv hvk

theorem write_of_mem (value : UInt32) (h : ⟨width, id⟩ ∈ op.views) : op.Alters r (r.write width id value) :=
  write value fun _ _ hh => ⟨_, h, hh⟩

theorem writeLong (value : UInt32) (h : ⟨.long, id⟩ ∈ op.views) : op.Alters r (r.writeLong id value) :=
  write_of_mem value h

theorem writeByte (value : UInt8) (h : ⟨.byte, id⟩ ∈ op.views) : op.Alters r (r.writeByte id value) := by
  have e : r.write .byte id value.toUInt32 = r.writeByte id value := by
    unfold Registers.write
    rw [UInt8.toUInt8_toUInt32]
  exact e ▸ write_of_mem value.toUInt32 h

theorem writeWord (value : UInt16) (h : ∀ k i, View.Holds ⟨.word, id⟩ k i → ∃ v ∈ op.views, v.Holds k i) :
    op.Alters r (r.writeWord id value) := by
  have e : r.write .word id value.toUInt32 = r.writeWord id value := by
    unfold Registers.write
    rw [UInt16.toUInt16_toUInt32]
  exact e ▸ write value.toUInt32 h

theorem commit {result : Alu.Result} (h : ⟨width, id⟩ ∈ op.views) (hf : op.KeepsFlags r.ccr result.flags) :
    op.Alters r (r.commit width id result) :=
  (setFlags hf).trans (write_of_mem result.value h)

/-- An operation that writes no register leaves all of them. -/
theorem er_eq (h : op.Alters r r') (hv : op.views = []) : r'.er = r.er := by
  refine Registers.er_ext fun k i => h.bits k i fun v hmem => ?_
  rw [hv] at hmem
  cases hmem

end Alters

/-! ### Flags of the results -/

theorem KeepsFlags.signed (width : Width) (value : UInt32) : op.KeepsFlags f (Alu.signFlags width value f) :=
  .of_eq rfl rfl rfl (fun _ => rfl) fun _ => rfl

theorem KeepsFlags.moved (width : Width) (value : UInt32) : op.KeepsFlags f (Alu.moveFlags width value f) :=
  .of_eq rfl rfl rfl (fun _ => rfl) fun _ => rfl

private theorem binary_keepsFlags (width : Width) (op : AluOp) (src : Operand) (dst : UInt8) (a b : UInt32) :
    (Operation.alu op width src dst).KeepsFlags f (Alu.binary op width a b f).flags := by
  cases op with
  | add | addx | sub | subx | cmp => exact .of_eq rfl rfl rfl (by rintro ⟨⟩) (by rintro ⟨⟩)
  | and | or | xor => exact .moved width _

private theorem unary_keepsFlags (op : UnaryOp) (dst : UInt8) (a : UInt32) :
    (Operation.unary op width dst).KeepsFlags f (Alu.unary op width a f).flags := by
  cases op with
  | neg => exact .of_eq rfl rfl rfl (by rintro ⟨⟩) (by rintro ⟨⟩)
  | not | extu | exts => exact .moved width _

private theorem shift_keepsFlags (op : ShiftOp) (count dst : UInt8) (a : UInt32) :
    (Operation.shift op width count dst).KeepsFlags f (Alu.shift op width count a f).flags :=
  .of_eq rfl rfl rfl (fun _ => rfl) (by rintro ⟨⟩)

private theorem observed_keepsFlags (op : BitOp) (number : BitNumber) (target : BitTarget) (bit : Bool) :
    (Operation.bit op number target).KeepsFlags f (op.observed bit f) := by
  cases op with
  | bld | bild | bor | bior | bxor | bixor | band | biand => exact .of_eq rfl rfl rfl (fun _ => rfl) (by rintro ⟨⟩)
  | btst => exact .of_eq rfl rfl rfl (fun _ => rfl) fun _ => rfl
  | bset | bnot | bclr | bst | bist => exact .refl f

/-! ### Register operations -/

/-- A quotient and its remainder stay inside the view of their destination. -/
private theorem writeQuotient_alters {dst : UInt8} (quotient remainder : UInt32) (h : ⟨width.double, dst⟩ ∈ op.views) :
    op.Alters r (r.writeQuotient width dst quotient remainder) := by
  have hlow := Registers.cell_low dst
  have hhigh := (Registers.cell_high (dst &&& 7)).trans hlow
  have halves (hv : ⟨.long, dst⟩ ∈ op.views) : op.Alters r (r.writeQuotient .word dst quotient remainder) := by
    refine Alters.trans (Alters.writeWord _ fun k i hh => ?_) (Alters.writeWord _ fun k i hh => ?_)
    · exact ⟨_, hv, View.holds_long_of_word hh hlow⟩
    · exact ⟨_, hv, View.holds_long_of_word hh hhigh⟩
  cases width with
  | byte => exact .writeWord _ fun _ _ hh => ⟨_, h, hh⟩
  | word => exact halves h
  | long => exact halves h

private theorem mulDiv_alters (op : MulDivOp) (width : Width) (src dst : UInt8) (r : Registers) :
    (Operation.mulDiv op width src dst).Alters r (r.mulDiv op width src dst) := by
  have hv : ⟨width.double, dst⟩ ∈ (Operation.mulDiv op width src dst).views := List.mem_singleton.2 rfl
  have flagged : ∀ n z : Bool, (Operation.mulDiv op width src dst).Alters r { r with ccr := { r.ccr with n := n, z := z } } :=
    fun n z => .setFlags (.of_eq rfl rfl rfl (fun _ => rfl) fun _ => rfl)
  unfold Registers.mulDiv
  cases op with
  | mulxu => exact .write_of_mem _ hv
  | mulxs => exact (Alters.setFlags (.signed _ _)).trans (.write_of_mem _ hv)
  | divxu =>
    unfold Registers.divideUnsigned
    simp only
    split
    · exact flagged _ _
    · exact (flagged _ _).trans (writeQuotient_alters _ _ hv)
  | divxs =>
    unfold Registers.divideSigned
    simp only
    split
    · exact flagged _ _
    · exact (flagged _ _).trans (writeQuotient_alters _ _ hv)

private theorem alu_alters (op : AluOp) (width : Width) (src : Operand) (dst : UInt8) (source : UInt32) (r : Registers) :
    (Operation.alu op width src dst).Alters r (r.alu op width source dst) := by
  have hf := binary_keepsFlags (f := r.ccr) width op src dst (r.read width dst) source
  unfold Registers.alu
  split
  · exact .setFlags hf
  · next hop => exact .commit (by simp [views, hop]) hf

private theorem setControl_alters (value : UInt8) (reg : ControlReg) (hc : reg = .ccr → op.writesFlags = true)
    (he : reg = .exr → op.writesExtended = true) (hh : op.writesFlags = true → op.writesHalf = true ∧ op.writesCarry = true) :
    op.Alters r (r.setControl reg value) := by
  cases reg with
  | ccr =>
    have hw := hc rfl
    obtain ⟨hhalf, hcarry⟩ := hh hw
    exact .setFlags ⟨by simp [hw], by simp [hhalf], by simp [hcarry]⟩
  | exr => exact ⟨.refl _, by simp [he rfl], fun _ _ _ => rfl⟩

private theorem resolve_alters (m : MemOperand) (width : Width) (h : ∀ v ∈ m.pointers, v ∈ op.views) (r : Registers) :
    op.Alters r (m.resolve width r).2 := by
  cases m with
  | preDec p => exact .writeLong _ (h _ (List.mem_singleton.2 rfl))
  | indirect p | postInc p | displaced disp base | absolute addr => exact .refl r

private theorem afterAccess_alters (m : MemOperand) (width : Width) (h : ∀ v ∈ m.pointers, v ∈ op.views) (r : Registers) :
    op.Alters r (m.afterAccess width r) := by
  cases m with
  | postInc p => exact .writeLong _ (h _ (List.mem_singleton.2 rfl))
  | indirect p | preDec p | displaced disp base | absolute addr => exact .refl r

end Operation

/-! ### Actions -/

namespace CpuM

section Registers

variable {β α γ : Type} {op : Operation}

/-- A run of the action that ends has changed only what the operation may change of registers and flags. -/
structure Altering (op : Operation) (m : CpuM β α) : Prop where
  ok : ∀ {config s a t}, m config s = .ok a t → op.Alters s.cpu.regs t.cpu.regs

namespace Altering

theorem pure (a : α) : Altering op (pure a : CpuM β α) := ⟨by rintro _ _ _ _ ⟨⟩; exact .refl _⟩

theorem bind {m : CpuM β α} {f : α → CpuM β γ} (hm : Altering op m) (hf : ∀ a, Altering op (f a)) :
    Altering op (m >>= f) where
  ok h := by
    obtain ⟨a, t, h₁, h₂⟩ := bind_ok.1 h
    exact (hm.ok h₁).trans ((hf a).ok h₂)

theorem map {m : CpuM β α} (f : α → γ) (hm : Altering op m) : Altering op (f <$> m) := by
  rw [← bind_pure_comp]
  exact hm.bind fun a => .pure (f a)

theorem ofKeeps {m : CpuM β α} (hm : Keeps coreView m) : Altering op m where
  ok h := .of_eq (congrArg Prod.fst (hm.ok h))

theorem ofReads {m : CpuM β α} (hm : Keeps readView m) : Altering op m where
  ok h := .of_eq (congrArg (fun v => v.1.1) (hm.ok h))

theorem getRegs : Altering op (getRegs : CpuM β Registers) := ⟨by rintro _ _ _ _ ⟨⟩; exact .refl _⟩

theorem modifyRegs {f : Registers → Registers} (hf : ∀ r, op.Alters r (f r)) : Altering op (modifyRegs f : CpuM β Unit) :=
  ⟨by rintro _ s _ _ ⟨⟩; exact hf s.cpu.regs⟩

theorem modifyCpu {f : Cpu → Cpu} (hf : ∀ c, op.Alters c.regs (f c).regs) : Altering op (modifyCpu f : CpuM β Unit) :=
  ⟨by rintro _ s _ _ ⟨⟩; exact hf s.cpu⟩

private theorem registers (f : Registers → Registers) (hf : ∀ r, op.Alters r (f r)) :
    Altering op (CpuM.modifyRegs f : CpuM β Unit) :=
  modifyRegs hf

private theorem core (f : Cpu → Cpu) (hf : ∀ c, op.Alters c.regs (f c).regs) : Altering op (CpuM.modifyCpu f : CpuM β Unit) :=
  modifyCpu hf

theorem jump (target : UInt32) : Altering op (jump target : CpuM β Unit) :=
  modifyCpu fun c => ⟨.refl c.regs.ccr, fun _ => rfl, fun _ _ _ => rfl⟩

theorem resolve (m : MemOperand) (width : Width) (h : ∀ v ∈ m.pointers, v ∈ op.views) :
    Altering op (resolve m width : CpuM β UInt32) :=
  ⟨by rintro _ s _ _ ⟨⟩; exact Operation.resolve_alters m width h s.cpu.regs⟩

variable [Bus β]

theorem readSized (width : Width) (addr : UInt32) : Altering op (readSized width addr : CpuM β UInt32) := by
  cases width with
  | byte => exact (ofReads (read8_keeps addr)).bind fun _ => .pure _
  | word => exact (ofReads (read16_keeps addr)).bind fun _ => .pure _
  | long => exact ofReads (read32_keeps addr)

theorem writeSized (width : Width) (addr value : UInt32) : Altering op (writeSized width addr value : CpuM β Unit) := by
  cases width with
  | byte => exact ofKeeps (write8_keeps addr _)
  | word => exact ofKeeps (write16_keeps addr _)
  | long => exact ofKeeps (write32_keeps addr _)

theorem loadOperand (m : MemOperand) (width : Width) (h : ∀ v ∈ m.pointers, v ∈ op.views) :
    Altering op (loadOperand m width : CpuM β UInt32) :=
  (resolve m width h).bind fun addr => (readSized width addr).bind fun value =>
    (modifyRegs (Operation.afterAccess_alters m width h)).bind fun _ => .pure value

theorem readOperand (width : Width) (src : Operand) (h : ∀ v ∈ src.pointers, v ∈ op.views) :
    Altering op (readOperand width src : CpuM β UInt32) := by
  cases src with
  | reg id => exact getRegs.bind fun _ => .pure _
  | imm value => exact .pure _
  | mem m => exact loadOperand m width h

theorem push32 (value : UInt32) (h : ⟨.long, 7⟩ ∈ op.views) : Altering op (push32 value : CpuM β Unit) :=
  getRegs.bind fun _ => (modifyRegs fun _ => .writeLong _ h).bind fun _ =>
    ofKeeps (write32_keeps _ value)

theorem pop32 (h : ⟨.long, 7⟩ ∈ op.views) : Altering op (pop32 : CpuM β UInt32) :=
  getRegs.bind fun _ => (ofReads (read32_keeps _)).bind fun _ =>
    (modifyRegs fun _ => .writeLong _ h).bind fun _ => .pure _

theorem move (width : Width) (src dst : Operand) : Altering (.mov width src dst) (move width src dst : CpuM β Unit) := by
  have hdst : ∀ v ∈ dst.pointers, v ∈ (Operation.mov width src dst).views := fun v hv => by simp [Operation.views, hv]
  have hsrc : ∀ v ∈ src.pointers, v ∈ (Operation.mov width src dst).views := fun v hv => by simp [Operation.views, hv]
  have address : Altering (.mov width src dst) (destinationAddress width dst : CpuM β (Option UInt32)) := by
    cases dst with
    | mem m => exact (resolve m width hdst).map some
    | reg id => exact .pure none
    | imm value => exact .pure none
  have value : Altering (.mov width src dst) (sourceValue width src : CpuM β UInt32) := by
    cases src with
    | mem m => exact (resolve m width hsrc).bind fun addr => readSized width addr
    | reg id => exact getRegs.bind fun _ => .pure _
    | imm value => exact .pure _
  have delivery : ∀ addr v, Altering (.mov width src dst) (deliver width dst addr v : CpuM β Unit) := fun addr v => by
    unfold CpuM.deliver
    split
    · exact writeSized width _ v
    · exact modifyRegs fun _ => .write_of_mem v (by simp [Operation.views, Operand.views])
    · exact .pure ()
  have advance : Altering (.mov width src dst) (advanceSource width src : CpuM β Unit) := by
    cases src with
    | mem m => exact modifyRegs (Operation.afterAccess_alters m width hsrc)
    | reg id => exact .pure ()
    | imm value => exact .pure ()
  exact address.bind fun addr => value.bind fun v => (modifyRegs fun _ => .setFlags (.moved width v)).bind fun _ =>
    (delivery addr v).bind fun _ => advance

theorem bitOperation (op : BitOp) (number : BitNumber) (target : BitTarget) :
    Altering (.bit op number target) (bitOperation op number target : CpuM β Unit) := by
  have operate : ∀ mask byte (writeBack : UInt8 → CpuM β Unit),
      (op.modifies = true → ∀ v, Altering (.bit op number target) (writeBack v)) →
      Altering (.bit op number target) (operateBit op mask byte writeBack) := fun mask byte writeBack h => by
    rw [operateBit_eq]
    split
    · next hop => exact getRegs.bind fun _ => h hop _
    · exact modifyRegs fun _ => .setFlags (Operation.observed_keepsFlags op number target _)
  refine getRegs.bind fun _ => ?_
  cases target with
  | reg id =>
    refine getRegs.bind fun _ => operate _ _ _ fun hop v => modifyRegs fun r => ?_
    exact .writeByte v (by simp [Operation.views, BitTarget.views, hop])
  | mem m =>
    have hm : ∀ v ∈ m.pointers, v ∈ (Operation.bit op number (.mem m)).views := fun v hv => hv
    exact (resolve m .byte hm).bind fun addr => (ofReads (read8_keeps addr)).bind fun _ =>
      operate _ _ _ fun _ v => ofKeeps (write8_keeps addr v)

theorem pushRegisters (h : ⟨.long, 7⟩ ∈ op.views) (n : Nat) (first : UInt8) :
    Altering op (pushRegisters first n : CpuM β Unit) := by
  induction n generalizing first with
  | zero => exact .pure ()
  | succ n ih => exact getRegs.bind fun _ => (push32 _ h).bind fun _ => ih (first + 1)

theorem popRegisters (h : ⟨.long, 7⟩ ∈ op.views) (n : Nat) (last : UInt8)
    (hlast : ∀ k < n, ⟨.long, last - k.toUInt8⟩ ∈ op.views) : Altering op (popRegisters last n : CpuM β Unit) := by
  induction n generalizing last with
  | zero => exact .pure ()
  | succ n ih =>
    have hfirst : ⟨.long, last⟩ ∈ op.views := by simpa using hlast 0 (by omega)
    refine (pop32 h).bind fun _ => (modifyRegs fun _ => .writeLong _ hfirst).bind fun _ => ih (last - 1) fun k hk => ?_
    have e : last - 1 - k.toUInt8 = last - (k + 1).toUInt8 := by
      apply UInt8.toNat_inj.1
      simp [UInt8.toNat_sub]
      omega
    exact e ▸ hlast (k + 1) (by omega)

theorem copyBlock (width : Width) (n : Nat) : Altering (.eepmov width) (copyBlock width n : CpuM β Unit) := by
  induction n with
  | zero => exact .pure ()
  | succ n ih =>
    refine getRegs.bind fun _ => (ofReads (read8_keeps _)).bind fun _ => (ofKeeps (write8_keeps _ _)).bind fun _ =>
      (modifyRegs fun r => ?_).bind fun _ => ih
    exact ((Operation.Alters.writeLong _ (by simp [Operation.views])).trans (.writeLong _ (by simp [Operation.views]))).trans
      (.write_of_mem _ (by simp [Operation.views]))

theorem testAndSet (pointer : UInt8) : Altering (.tas pointer) (testAndSet pointer : CpuM β Unit) :=
  getRegs.bind fun _ => (ofReads (read8_keeps _)).bind fun _ => (modifyRegs fun _ => .setFlags (.moved .byte _)).bind fun _ =>
    ofKeeps (write8_keeps _ _)

theorem loadControl (src : Operand) (dst : ControlReg) :
    Altering (.ldc src dst) (loadControl src dst : CpuM β Unit) := by
  have value : Altering (.ldc src dst) (controlValue src : CpuM β UInt8) := by
    cases src with
    | reg id => exact getRegs.bind fun _ => .pure _
    | imm value => exact .pure _
    | mem m =>
      have hm : ∀ v ∈ m.pointers, v ∈ (Operation.ldc (.mem m) dst).views := fun _ hv => hv
      exact (loadOperand m .word hm).bind fun _ => .pure _
  refine value.bind fun v => modifyRegs fun r => Operation.setControl_alters v dst ?_ ?_ ?_
  · rintro rfl
    rfl
  · rintro rfl
    rfl
  · cases dst <;> simp [Operation.writesFlags, Operation.writesHalf, Operation.writesCarry]

theorem storeControl (src : ControlReg) (dst : Operand) :
    Altering (.stc src dst) (storeControl src dst : CpuM β Unit) := by
  refine getRegs.bind fun r => ?_
  cases dst with
  | reg id => exact modifyRegs fun _ => .writeByte _ (by simp [Operation.views, Operand.views])
  | imm value => exact .pure ()
  | mem m =>
    have hm : ∀ v ∈ m.pointers, v ∈ (Operation.stc src (.mem m)).views := fun v hv => by
      simpa [Operation.views, Operand.views, Operand.pointers] using hv
    exact (resolve m .word hm).bind fun addr => ofKeeps (write16_keeps addr _)

theorem jumpAddress (target : JumpTarget) : Altering op (jumpAddress target : CpuM β UInt32) := by
  cases target with
  | indirect p => exact getRegs.bind fun _ => .pure _
  | absolute addr => exact .pure addr
  | stored addr => exact ofReads (read32_keeps _)

theorem call (target : UInt32) (h : ⟨.long, 7⟩ ∈ op.views) : Altering op (call target : CpuM β Unit) :=
  getRegs.bind fun _ => (push32 _ h).bind fun _ => (jump target).bind fun _ => modifyCpu fun c => .refl c.regs

/-- A trap sets masks only. -/
theorem trap (n : UInt8) : Altering (.trapa n) (trap n : CpuM β Unit) := by
  have enable : Altering (.trapa n) (userEnable : CpuM β Bool) :=
    (ofKeeps .readConfig).bind fun _ => (ofReads (read8_keeps _)).bind fun _ => .pure _
  have masked : ∀ e, Altering (.trapa n) (maskInterrupts e : CpuM β Unit) := fun e =>
    modifyRegs fun r => .setFlags ⟨by rintro ⟨⟩, by rintro ⟨⟩, by rintro ⟨⟩⟩
  have pushed : Altering (.trapa n) (pushFrame : CpuM β Unit) :=
    getRegs.bind fun _ => push32 _ (by simp [Operation.views])
  have landed : ∀ addr, Altering (.trapa n) (jumpThrough addr : CpuM β Unit) := fun addr =>
    (ofReads (read32_keeps _)).bind fun _ => jump _
  exact pushed.bind fun _ => enable.bind fun e => (masked e).bind fun _ => (landed _).bind fun _ =>
    modifyCpu fun c => .refl c.regs

theorem returnFromException : Altering .rte (returnFromException : CpuM β Unit) :=
  (pop32 (by simp [Operation.views])).bind fun _ =>
    (modifyRegs fun r => .setFlags ⟨by rintro ⟨⟩, by rintro ⟨⟩, by rintro ⟨⟩⟩).bind fun _ => (jump _).bind fun _ =>
      modifyCpu fun c => .refl c.regs

/-- An operation changes only what it may change. -/
theorem perform (op : Operation) : Altering op (perform op : CpuM β Unit) := by
  cases op with
  | nop => exact .pure ()
  | sleep => exact core (fun c => { c with sleeping := true }) fun c => .refl c.regs
  | mov width src dst => exact move width src dst
  | alu op width src dst =>
    have hsrc : ∀ v ∈ src.pointers, v ∈ (Operation.alu op width src dst).views := fun v hv => by
      simp [Operation.views, hv]
    exact (readOperand width src hsrc).bind fun v => modifyRegs (Operation.alu_alters op width src dst v)
  | adds amount dst =>
    exact registers (fun r => r.writeLong dst (r.readLong dst + amount.toUInt32)) fun _ => .writeLong _ (.head _)
  | subs amount dst =>
    exact registers (fun r => r.writeLong dst (r.readLong dst - amount.toUInt32)) fun _ => .writeLong _ (.head _)
  | inc width amount dst =>
    exact registers (·.increment width amount dst) fun _ =>
      .commit (.head _) (.of_eq rfl rfl rfl (fun _ => rfl) fun _ => rfl)
  | dec width amount dst =>
    exact registers (·.decrement width amount dst) fun _ =>
      .commit (.head _) (.of_eq rfl rfl rfl (fun _ => rfl) fun _ => rfl)
  | unary op width dst =>
    exact registers (·.unary op width dst) fun _ => .commit (.head _) (Operation.unary_keepsFlags op dst _)
  | daa dst =>
    exact registers (·.adjustAddition dst) fun _ =>
      .commit (.head _) (.of_eq rfl rfl rfl (fun _ => rfl) (by rintro ⟨⟩))
  | das dst =>
    exact registers (·.adjustSubtraction dst) fun _ =>
      .commit (.head _) (.of_eq rfl rfl rfl (by rintro ⟨⟩) (by rintro ⟨⟩))
  | mulDiv op width src dst => exact registers (·.mulDiv op width src dst) (Operation.mulDiv_alters op width src dst)
  | shift op width count dst =>
    exact registers (·.shift op width count dst) fun _ => .commit (.head _) (Operation.shift_keepsFlags op count dst _)
  | bit op number target => exact bitOperation op number target
  | bcc cond target wide =>
    refine getRegs.bind fun r => ?_
    split
    · exact jump target
    · exact .pure ()
  | bsr target wide => exact call target (by simp [Operation.views])
  | jmp target => exact (jumpAddress target).bind fun addr => jump addr
  | jsr target => exact (jumpAddress target).bind fun addr => call addr (by simp [Operation.views])
  | rts =>
    exact (pop32 (by simp [Operation.views])).bind fun addr => (jump addr).bind fun _ => modifyCpu fun c => .refl c.regs
  | rte => exact returnFromException
  | trapa n => exact trap n
  | ldc src dst => exact loadControl src dst
  | stc src dst => exact storeControl src dst
  | controlLogic op imm dst =>
    refine registers (·.controlLogic op imm dst) fun r => Operation.setControl_alters _ dst ?_ ?_ ?_
    · rintro rfl
      rfl
    · rintro rfl
      rfl
    · cases dst <;> simp [Operation.writesFlags, Operation.writesHalf, Operation.writesCarry]
  | ldm last count =>
    exact popRegisters (by simp [Operation.views]) _ _ fun k hk => by
      simpa [Operation.views] using .inr ⟨k, hk, rfl⟩
  | stm first count => exact pushRegisters (by simp [Operation.views]) _ _
  | tas pointer => exact testAndSet pointer
  | eepmov width => exact getRegs.bind fun _ => copyBlock width _

end Altering

end Registers

end CpuM

end H8S
