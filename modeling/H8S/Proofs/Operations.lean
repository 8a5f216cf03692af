import H8S.Proofs.Accesses

/-!
# Operations as traces

Each operation is a trace of accesses, after which control lands in one of five ways: the core goes on, falls asleep,
jumps, enters a call or exception, or leaves one.  Which ways are open to an operation, and for a branch which one is
taken, is said by `Operation.Lands`.  A fault always comes before the landing, so that it finds the call depth and
sleep as they were.
-/

namespace H8S

/-- How an operation leaves control once its accesses are made. -/
inductive Landing where
  | onward
  | asleep
  | jumped (target : UInt32)
  | entered (target : UInt32)
  | left (target : UInt32)
  deriving DecidableEq

def Landing.apply : Landing → Cpu → Cpu
  | onward, c => c
  | asleep, c => { c with sleeping := true }
  | jumped target, c => c.jumped target
  | entered target, c => (c.jumped target).entered
  | left target, c => (c.jumped target).left

/-- Whether the core goes on with the next instruction, be it after some sleep. -/
def Landing.advances : Landing → Bool
  | onward | asleep => true
  | jumped _ | entered _ | left _ => false

/-- The landings open to an operation that begins with some flags. -/
def Operation.Lands (f : ConditionCodes) : Operation → Landing → Prop
  | .sleep, l => l = .asleep
  | .bcc cond target _, l => l = if cond.holds f then .jumped target else .onward
  | .jmp _, l => ∃ target, l = .jumped target
  | .bsr target _, l => l = .entered target
  | .jsr _, l | .trapa _, l => ∃ target, l = .entered target
  | .rts, l | .rte, l => ∃ target, l = .left target
  | _, l => l = .onward

/-- The operation and its flags decide whether the core goes on; only where it goes otherwise may depend on memory. -/
theorem Operation.Lands.advances_eq {f : ConditionCodes} {op : Operation} {l l' : Landing} (h : op.Lands f l)
    (h' : op.Lands f l') : l.advances = l'.advances := by
  cases op
  case jmp | jsr | trapa | rts | rte =>
    obtain ⟨target, rfl⟩ := h
    obtain ⟨target', rfl⟩ := h'
    rfl
  all_goals
    obtain rfl := h
    obtain rfl := h'
    rfl

namespace CpuM

variable {β α : Type} [Bus β] {config : Config} {s t u : System β} {e : Fault}

/-! ### Traces of the parts -/

namespace Traced

theorem resolve (m : MemOperand) (width : Width) : Traced (resolve m width : CpuM β UInt32) where
  ok := by
    rintro config s _ _ ⟨⟩
    exact ⟨[], .registers _ .refl (Registers.resolve_pc s.cpu.regs width m)⟩
  error := by rintro _ _ _ _ ⟨⟩

theorem loadOperand (m : MemOperand) (width : Width) : Traced (loadOperand m width : CpuM β UInt32) :=
  (resolve m width).bind fun addr =>
    (readSized width addr).bind fun value =>
      (modifyRegs fun r => r.afterAccess_pc width m).bind fun _ => .pure value

theorem readOperand (width : Width) (operand : Operand) : Traced (readOperand width operand : CpuM β UInt32) := by
  cases operand with
  | reg id => exact getRegs.bind fun _ => .pure _
  | imm value => exact .pure _
  | mem m => exact loadOperand m width

theorem push32 (value : UInt32) : Traced (push32 value : CpuM β Unit) :=
  getRegs.bind fun _ => (modifyRegs fun r => r.setSp_pc _).bind fun _ => write32 _ value

theorem pop32 : Traced (pop32 : CpuM β UInt32) :=
  getRegs.bind fun _ => (read32 _).bind fun _ => (modifyRegs fun r => r.setSp_pc _).bind fun _ => .pure _

theorem deliver (width : Width) (dst : Operand) (addr : Option UInt32) (value : UInt32) :
    Traced (deliver width dst addr value : CpuM β Unit) := by
  unfold CpuM.deliver
  split
  · exact writeSized width _ value
  · exact modifyRegs fun r => r.write_pc _ width value
  · exact .pure ()

theorem destinationAddress (width : Width) (dst : Operand) :
    Traced (destinationAddress width dst : CpuM β (Option UInt32)) := by
  cases dst with
  | mem m => exact (resolve m width).map some
  | reg id => exact .pure none
  | imm value => exact .pure none

theorem sourceValue (width : Width) (src : Operand) : Traced (sourceValue width src : CpuM β UInt32) := by
  cases src with
  | mem m => exact (resolve m width).bind fun addr => readSized width addr
  | reg id => exact getRegs.bind fun _ => .pure _
  | imm value => exact .pure _

theorem advanceSource (width : Width) (src : Operand) : Traced (advanceSource width src : CpuM β Unit) := by
  cases src with
  | mem m => exact modifyRegs fun r => r.afterAccess_pc width m
  | reg id => exact .pure ()
  | imm value => exact .pure ()

theorem move (width : Width) (src dst : Operand) : Traced (move width src dst : CpuM β Unit) :=
  (destinationAddress width dst).bind fun addr => (sourceValue width src).bind fun value =>
    (modifyRegs fun _ => by rfl).bind fun _ => (deliver width dst addr value).bind fun _ => advanceSource width src

theorem pushRegisters (count : Nat) (first : UInt8) : Traced (pushRegisters first count : CpuM β Unit) := by
  induction count generalizing first with
  | zero => exact .pure ()
  | succ n ih => exact getRegs.bind fun _ => (push32 _).bind fun _ => ih (first + 1)

theorem popRegisters (count : Nat) (last : UInt8) : Traced (popRegisters last count : CpuM β Unit) := by
  induction count generalizing last with
  | zero => exact .pure ()
  | succ n ih =>
    exact pop32.bind fun value => (modifyRegs fun r => r.writeLong_pc last value).bind fun _ => ih (last - 1)

theorem copyBlock (width : Width) (count : Nat) : Traced (copyBlock width count : CpuM β Unit) := by
  induction count with
  | zero => exact .pure ()
  | succ n ih =>
    exact getRegs.bind fun _ => (read8 _).bind fun byte => (write8 _ byte).bind fun _ =>
      (modifyRegs fun r => by simp).bind fun _ => ih

theorem testAndSet (pointer : UInt8) : Traced (testAndSet pointer : CpuM β Unit) :=
  getRegs.bind fun _ => (read8 _).bind fun value => (modifyRegs fun _ => by rfl).bind fun _ => write8 _ _

theorem controlValue (src : Operand) : Traced (controlValue src : CpuM β UInt8) := by
  cases src with
  | reg id => exact getRegs.bind fun _ => .pure _
  | imm value => exact .pure _
  | mem m => exact (loadOperand m .word).bind fun _ => .pure _

theorem loadControl (src : Operand) (dst : ControlReg) : Traced (loadControl src dst : CpuM β Unit) :=
  (controlValue src).bind fun value => modifyRegs fun r => r.setControl_pc dst value

theorem storeControl (src : ControlReg) (dst : Operand) : Traced (storeControl src dst : CpuM β Unit) := by
  refine getRegs.bind fun regs => ?_
  cases dst with
  | reg id => exact modifyRegs fun r => r.writeByte_pc id _
  | imm value => exact .pure ()
  | mem m => exact (resolve m .word).bind fun addr => write16 addr _

theorem operateBit (op : BitOp) (mask byte : UInt8) {writeBack : UInt8 → CpuM β Unit}
    (h : ∀ value, Traced (writeBack value)) : Traced (operateBit op mask byte writeBack) := by
  rw [operateBit_eq]
  split
  · exact getRegs.bind fun regs => h _
  · exact modifyRegs fun r => rfl

theorem bitOperation (op : BitOp) (number : BitNumber) (target : BitTarget) :
    Traced (bitOperation op number target : CpuM β Unit) := by
  refine getRegs.bind fun regs => ?_
  cases target with
  | reg id =>
    exact getRegs.bind fun _ => operateBit op _ _ fun value => modifyRegs fun r => r.writeByte_pc id value
  | mem m =>
    exact (resolve m .byte).bind fun addr => (read8 addr).bind fun byte => operateBit op _ byte (write8 addr)

theorem jumpAddress (target : JumpTarget) : Traced (jumpAddress target : CpuM β UInt32) := by
  cases target with
  | indirect p => exact getRegs.bind fun _ => .pure _
  | absolute addr => exact .pure addr
  | stored addr => exact read32 _

theorem userEnable : Traced (userEnable : CpuM β Bool) :=
  readConfig.bind fun config => (read8 config.syscrAddress).bind fun _ => .pure _

theorem maskInterrupts (enable : Bool) : Traced (maskInterrupts enable : CpuM β Unit) :=
  modifyRegs fun _ => rfl

end Traced

/-! ### Landings -/

/-- Every run that ends is a trace of accesses and then a landing; every other run is a trace that stops. -/
structure Landed (m : CpuM β Unit) (P : Landing → Prop) : Prop where
  ok : ∀ {config s u}, m config s = .ok () u →
    ∃ log t l, Reaches config s log t ∧ P l ∧ u = { t with cpu := l.apply t.cpu }
  error : ∀ {config s e u}, m config s = .error e u → Stops config s e u

namespace Landed

variable {P Q : Landing → Prop}

theorem of_traced {m : CpuM β Unit} (h : Traced m) : Landed m (· = .onward) where
  ok := by
    intro config s u k
    obtain ⟨log, hr⟩ := h.ok k
    exact ⟨log, u, .onward, hr, rfl, rfl⟩
  error := h.error

theorem registers (f : Registers → Registers) (hf : ∀ r, (f r).pc = r.pc) :
    Landed (modifyRegs f : CpuM β Unit) (· = .onward) :=
  of_traced (.modifyRegs hf)

theorem after {m : CpuM β α} {f : α → CpuM β Unit} (hm : Traced m) (hf : ∀ a, Landed (f a) P) :
    Landed (m >>= f) P where
  ok := by
    intro config s u h
    obtain ⟨a, t, h₁, h₂⟩ := bind_ok.1 h
    obtain ⟨log, k₁⟩ := hm.ok h₁
    obtain ⟨log', v, l, k₂, hl, hu⟩ := (hf a).ok h₂
    exact ⟨log ++ log', v, l, k₁.trans k₂, hl, hu⟩
  error := by
    intro config s e u h
    rcases bind_error.1 h with h | ⟨a, t, h₁, h₂⟩
    · exact hm.error h
    · obtain ⟨log, k₁⟩ := hm.ok h₁
      exact ((hf a).error h₂).of_reaches k₁

theorem imp {m : CpuM β Unit} (h : Landed m P) (hPQ : ∀ l, P l → Q l) : Landed m Q where
  ok := by
    intro config s u k
    obtain ⟨log, t, l, hr, hl, hu⟩ := h.ok k
    exact ⟨log, t, l, hr, hPQ l hl, hu⟩
  error := h.error

/-- An action on the core that makes no access. -/
private theorem final (l : Landing) {m : CpuM β Unit}
    (h : ∀ config s, m config s = .ok () { s with cpu := l.apply s.cpu }) : Landed m (· = l) where
  ok := by
    intro config s u k
    rw [h config s] at k
    cases k
    exact ⟨[], s, l, .refl, rfl, rfl⟩
  error := by
    intro config s e u k
    rw [h config s] at k
    cases k

theorem sleep : Landed (modifyCpu fun c => { c with sleeping := true } : CpuM β Unit) (· = .asleep) :=
  final .asleep fun _ _ => rfl

theorem jump (target : UInt32) : Landed (jump target : CpuM β Unit) (· = .jumped target) :=
  final (.jumped target) fun _ _ => rfl

private theorem enter (target : UInt32) :
    Landed (do CpuM.jump target; modifyCpu Cpu.entered : CpuM β Unit) (· = .entered target) :=
  final (.entered target) fun _ _ => rfl

private theorem leave (target : UInt32) :
    Landed (do CpuM.jump target; modifyCpu Cpu.left : CpuM β Unit) (· = .left target) :=
  final (.left target) fun _ _ => rfl

theorem call (target : UInt32) : Landed (call target : CpuM β Unit) (· = .entered target) :=
  after .getRegs fun r => after (.push32 r.pc) fun _ => enter target

theorem trap (n : UInt8) : Landed (trap n : CpuM β Unit) fun l => ∃ target, l = .entered target := by
  unfold CpuM.trap CpuM.pushFrame CpuM.jumpThrough
  simp only [bind_assoc]
  exact after .getRegs fun r => after (.push32 _) fun _ => after .userEnable fun enable =>
    after (.maskInterrupts enable) fun _ => after (.read32 _) fun target =>
      (enter target).imp fun _ hl => ⟨target, hl⟩

theorem returnFromCall : Landed (returnFromCall : CpuM β Unit) fun l => ∃ target, l = .left target :=
  after .pop32 fun target => (leave target).imp fun _ hl => ⟨target, hl⟩

theorem returnFromException : Landed (returnFromException : CpuM β Unit) fun l => ∃ target, l = .left target :=
  after .pop32 fun frame => after (.modifyRegs fun _ => by rfl) fun _ =>
    (leave frame).imp fun _ hl => ⟨frame, hl⟩

end Landed

/-- Which way a branch goes is decided by the flags it begins with, so it is left out here. -/
private theorem perform_landed (op : Operation) (hop : ∀ cond target wide, op ≠ .bcc cond target wide) (f : ConditionCodes) :
    Landed (perform op : CpuM β Unit) (op.Lands f) := by
  cases op with
  | nop => exact .of_traced (.pure ())
  | sleep => exact .sleep
  | mov width src dst => exact .of_traced (.move width src dst)
  | alu op width src dst =>
    exact .of_traced ((Traced.readOperand width src).bind fun v => .modifyRegs fun r => r.alu_pc dst width op v)
  | adds amount dst => exact .registers (fun r => r.writeLong dst (r.readLong dst + amount.toUInt32)) fun _ => rfl
  | subs amount dst => exact .registers (fun r => r.writeLong dst (r.readLong dst - amount.toUInt32)) fun _ => rfl
  | inc width amount dst => exact .registers (·.increment width amount dst) fun r => r.commit_pc dst width _
  | dec width amount dst => exact .registers (·.decrement width amount dst) fun r => r.commit_pc dst width _
  | unary op width dst => exact .registers (·.unary op width dst) fun r => r.commit_pc dst width _
  | daa dst => exact .registers (·.adjustAddition dst) fun r => r.commit_pc dst .byte _
  | das dst => exact .registers (·.adjustSubtraction dst) fun r => r.commit_pc dst .byte _
  | mulDiv op width src dst => exact .registers (·.mulDiv op width src dst) fun r => r.mulDiv_pc width op src dst
  | shift op width count dst => exact .registers (·.shift op width count dst) fun r => r.commit_pc dst width _
  | bit op number target => exact .of_traced (.bitOperation op number target)
  | bcc cond target wide => exact absurd rfl (hop cond target wide)
  | bsr target wide => exact .call target
  | jmp target =>
    exact .after (.jumpAddress target) fun addr => (Landed.jump addr).imp fun _ hl => ⟨addr, hl⟩
  | jsr target =>
    exact .after (.jumpAddress target) fun addr => (Landed.call addr).imp fun _ hl => ⟨addr, hl⟩
  | rts => exact .returnFromCall
  | rte => exact .returnFromException
  | trapa n => exact .trap n
  | ldc src dst => exact .of_traced (.loadControl src dst)
  | stc src dst => exact .of_traced (.storeControl src dst)
  | controlLogic op imm dst => exact .registers (·.controlLogic op imm dst) fun r => r.controlLogic_pc op imm dst
  | ldm last count => exact .of_traced (.popRegisters count.toNat last)
  | stm first count => exact .of_traced (.pushRegisters count.toNat first)
  | tas pointer => exact .of_traced (.testAndSet pointer)
  | eepmov width => exact .of_traced (Traced.getRegs.bind fun _ => .copyBlock width _)

private theorem perform_bcc (cond : Condition) (target : UInt32) (wide : Bool) :
    (perform (.bcc cond target wide) : CpuM β Unit) config s =
      .ok () { s with
        cpu := (if cond.holds s.cpu.regs.ccr then Landing.jumped target else .onward).apply s.cpu } := by
  show (do if cond.holds (← getRegs).ccr then CpuM.jump target : CpuM β Unit) config s = _
  rw [bind_of_ok run_getRegs]
  split <;> rfl

/-- An operation that ends is a trace of accesses and then one of its landings. -/
theorem perform_ok {op : Operation} (h : perform op config s = .ok () u) :
    ∃ log t l, Reaches config s log t ∧ op.Lands s.cpu.regs.ccr l ∧ u = { t with cpu := l.apply t.cpu } := by
  by_cases hop : ∃ cond target wide, op = .bcc cond target wide
  · obtain ⟨cond, target, wide, rfl⟩ := hop
    rw [perform_bcc] at h
    cases h
    exact ⟨[], s, _, .refl, rfl, rfl⟩
  · exact (perform_landed op (fun cond target wide e => hop ⟨cond, target, wide, e⟩) s.cpu.regs.ccr).ok h

/-- An operation that fails is a trace of accesses of which the last one fails. -/
theorem perform_error {op : Operation} (h : perform op config s = .error e u) : Stops config s e u := by
  by_cases hop : ∃ cond target wide, op = .bcc cond target wide
  · obtain ⟨cond, target, wide, rfl⟩ := hop
    rw [perform_bcc] at h
    cases h
  · exact (perform_landed op (fun cond target wide e => hop ⟨cond, target, wide, e⟩) s.cpu.regs.ccr).error h

end CpuM

end H8S
