import H8S.Proofs.ProgramCounter
import H8S.Proofs.Sources

/-!
# Two runs of an action

An action can be run on two states.  It respects a relation between states if on related states both runs come to the same,
a result or a fault, and leave related states (`BusM.Respects`).  Actions that are put together from such actions respect the
relation, too, so it is enough to look at the simple ones.

The accesses of the core that are not charged respect every relation that does not part the buses or the pending interrupts
(`CpuM.Oblivious`), and its other accesses do if charges and acknowledgements do (`CpuM.Lasting`).  All actions of the core
respect the relation that looks at the core and the bus and not at the lines traced so far (`CpuM.Alike`): nothing that the core
does depends on them.
-/

namespace H8S

/-! ### Actions in general -/

/-- The same came of two runs, and they left related states. -/
inductive BusM.Matched {σ α : Type} (R : σ → σ → Prop) :
    EStateM.Result Fault σ α → EStateM.Result Fault σ α → Prop where
  | ok (a : α) {s t : σ} : R s t → Matched R (.ok a s) (.ok a t)
  | error (e : Fault) {s t : σ} : R s t → Matched R (.error e s) (.error e t)

/-- On related states both runs come to the same and leave related states. -/
def BusM.Respects {σ α : Type} (R : σ → σ → Prop) (m : BusM σ α) : Prop := ∀ s t, R s t → Matched R (m s) (m t)

namespace BusM

variable {σ α γ : Type} {R : σ → σ → Prop}

theorem Matched.verdict {x y : EStateM.Result Fault σ α} (h : Matched R x y) : verdict x = verdict y := by
  cases h <;> rfl

theorem Matched.outcome {x y : EStateM.Result Fault σ α} (h : Matched R x y) : R (outcome x) (outcome y) := by
  cases h <;> assumption

namespace Respects

theorem pure (a : α) : Respects R (pure a : BusM σ α) := fun _ _ h => .ok a h

theorem throw (e : Fault) : Respects R (throw e : BusM σ α) := fun _ _ h => .error e h

theorem bind {m : BusM σ α} {f : α → BusM σ γ} (hm : Respects R m) (hf : ∀ a, Respects R (f a)) :
    Respects R (m >>= f : BusM σ γ) := by
  intro s t h
  have hm := hm s t h
  show Matched R (EStateM.bind m f s) (EStateM.bind m f t)
  unfold EStateM.bind
  generalize m s = x, m t = y at hm
  cases hm with
  | ok a h => exact hf a _ _ h
  | error e h => exact .error e h

theorem map {m : BusM σ α} (f : α → γ) (hm : Respects R m) : Respects R (f <$> m : BusM σ γ) := by
  rw [← bind_pure_comp]
  exact hm.bind fun a => .pure (f a)

/-- What is done next may depend on the state where related states agree. -/
theorem reading {f : σ → BusM σ α} (hf : ∀ s t, R s t → f s = f t) (hr : ∀ s, Respects R (f s)) :
    Respects R (get >>= f : BusM σ α) := by
  intro s t h
  have ht := hr s s t h
  show Matched R (f s s) (f t t)
  rwa [← hf s t h]

theorem modify {f : σ → σ} (hf : ∀ s t, R s t → R (f s) (f t)) : Respects R (modify f : BusM σ Unit) :=
  fun s t h => .ok () (hf s t h)

end Respects

end BusM

namespace CpuM

variable {β α γ : Type}

/-- The action respects a relation between systems, whatever the configuration. -/
def Respects (R : System β → System β → Prop) (m : CpuM β α) : Prop := ∀ config, BusM.Respects R (m config)

namespace Respects

variable {R : System β → System β → Prop}

theorem pure (a : α) : Respects R (pure a : CpuM β α) := fun _ => .pure a

theorem throw (e : Fault) : Respects R (throw e : CpuM β α) := fun _ => .throw e

theorem bind {m : CpuM β α} {f : α → CpuM β γ} (hm : Respects R m) (hf : ∀ a, Respects R (f a)) :
    Respects R (m >>= f) :=
  fun config => (hm config).bind fun a => hf a config

theorem map {m : CpuM β α} (f : α → γ) (hm : Respects R m) : Respects R (f <$> m) := by
  rw [← bind_pure_comp]
  exact hm.bind fun a => .pure (f a)

theorem readConfig : Respects R (read : CpuM β Config) := fun config => BusM.Respects.pure config

theorem reading {f : System β → CpuM β α} (hf : ∀ s t, R s t → f s = f t) (hr : ∀ s, Respects R (f s)) :
    Respects R (get >>= f) := by
  intro config
  have h : BusM.Respects R (get >>= fun s => f s config : BusM (System β) α) :=
    .reading (fun s t h => congrFun (hf s t h) config) fun s => hr s config
  exact h

theorem widening {m : CpuM β α} (width : Nat) (hm : Respects R m) : Respects R (widening width m) := by
  intro config s t h
  have hm := hm config s t h
  unfold CpuM.widening
  generalize m config s = x, m config t = y at hm
  cases hm with
  | ok a h => exact .ok a h
  | error e h => exact .error _ h

end Respects

/-! ### Accesses that are not charged -/

/-- The relation does not part the buses or the pending interrupts, and holds as well if the bus goes on to another state. -/
structure Oblivious (R : System β → System β → Prop) : Prop where
  bus : ∀ {s t}, R s t → s.bus = t.bus
  pending : ∀ {s t}, R s t → s.cpu.pending = t.cpu.pending
  moved : ∀ {s t}, R s t → ∀ bus, R { s with bus := bus } { t with bus := bus }

namespace Oblivious

variable {R : System β → System β → Prop}

theorem onBus (hR : Oblivious R) (action : BusM β α) : Respects R (onBus action) := by
  intro config s t h
  have hbus := hR.bus h
  rw [run_onBus, run_onBus, hbus]
  cases action t.bus with
  | ok a bus => exact .ok a (hR.moved h bus)
  | error e bus => exact .error e (hR.moved h bus)

variable [Bus β]

theorem load8 (hR : Oblivious R) (addr : UInt32) : Respects R (load8 addr : CpuM β UInt8) := by
  refine Respects.readConfig.bind fun config => ?_
  split
  · exact .reading (fun s t h => by rw [hR.pending h]) fun _ => .pure _
  · exact hR.onBus _

theorem load16 (hR : Oblivious R) (addr : UInt32) : Respects R (load16 addr : CpuM β UInt16) := by
  refine Respects.readConfig.bind fun config => ?_
  split
  · exact (hR.load8 addr).bind fun hi => (hR.load8 (addr + 1)).bind fun lo => .pure _
  · exact (hR.onBus _).widening 16

end Oblivious

/-! ### Accesses -/

/-- The relation holds as well after an access was charged, and after one acknowledged interrupts. -/
structure Lasting [Bus β] (R : System β → System β → Prop) : Prop extends Oblivious R where
  charge : ∀ direction addr, Respects R (charge direction addr : CpuM β Unit)
  acknowledge : ∀ value : UInt8,
    Respects R (modifyCpu fun c => { c with pending := c.pending.acknowledge value } : CpuM β Unit)

namespace Lasting

variable [Bus β] {R : System β → System β → Prop}

theorem store8 (hR : Lasting R) (addr : UInt32) (value : UInt8) : Respects R (store8 addr value : CpuM β Unit) := by
  refine Respects.readConfig.bind fun config => ?_
  split
  · exact hR.acknowledge value
  · exact hR.onBus _

theorem store16 (hR : Lasting R) (addr : UInt32) (value : UInt16) : Respects R (store16 addr value : CpuM β Unit) := by
  refine Respects.widening 16 (Respects.readConfig.bind fun config => ?_)
  split
  · exact (hR.store8 addr _).bind fun _ => hR.store8 (addr + 1) _
  · exact hR.onBus _

theorem read8 (hR : Lasting R) (addr : UInt32) : Respects R (read8 addr : CpuM β UInt8) :=
  (hR.charge .read addr).bind fun _ => hR.load8 addr

theorem write8 (hR : Lasting R) (addr : UInt32) (value : UInt8) : Respects R (write8 addr value : CpuM β Unit) :=
  (hR.charge .write addr).bind fun _ => hR.store8 addr value

theorem read16 (hR : Lasting R) (addr : UInt32) : Respects R (read16 addr : CpuM β UInt16) :=
  (hR.charge .read addr).bind fun _ => (hR.charge .read (addr + 1)).bind fun _ => hR.load16 addr

theorem write16 (hR : Lasting R) (addr : UInt32) (value : UInt16) : Respects R (write16 addr value : CpuM β Unit) :=
  (hR.charge .write addr).bind fun _ => (hR.charge .write (addr + 1)).bind fun _ => hR.store16 addr value

theorem read32 (hR : Lasting R) (addr : UInt32) : Respects R (read32 addr : CpuM β UInt32) :=
  Respects.widening 32 <| (hR.read16 addr).bind fun _ => (hR.read16 (addr + 2)).bind fun _ => .pure _

theorem write32 (hR : Lasting R) (addr value : UInt32) : Respects R (write32 addr value : CpuM β Unit) :=
  Respects.widening 32 <| (hR.write16 addr _).bind fun _ => hR.write16 (addr + 2) _

theorem readSized (hR : Lasting R) (width : Width) (addr : UInt32) : Respects R (readSized width addr : CpuM β UInt32) := by
  cases width with
  | byte => exact (hR.read8 addr).bind fun _ => .pure _
  | word => exact (hR.read16 addr).bind fun _ => .pure _
  | long => exact hR.read32 addr

theorem writeSized (hR : Lasting R) (width : Width) (addr value : UInt32) :
    Respects R (writeSized width addr value : CpuM β Unit) := by
  cases width with
  | byte => exact hR.write8 addr _
  | word => exact hR.write16 addr _
  | long => exact hR.write32 addr value

end Lasting

/-! ### Traced lines -/

/-- The same core on the same bus, whatever was traced. -/
structure Alike (s t : System β) : Prop where
  cpu : s.cpu = t.cpu
  bus : s.bus = t.bus

theorem oblivious_alike : Oblivious (Alike : System β → System β → Prop) where
  bus h := h.bus
  pending h := by rw [h.cpu]
  moved h _ := ⟨h.cpu, rfl⟩

/-- What the action does, but for tracing, does not depend on the lines traced so far. -/
abbrev Blind (m : CpuM β α) : Prop := Respects Alike m

namespace Blind

theorem modifyCpu (f : Cpu → Cpu) : Blind (modifyCpu f : CpuM β Unit) :=
  fun _ => .modify fun _ _ h => ⟨congrArg f h.cpu, h.bus⟩

theorem modifyRegs (f : Registers → Registers) : Blind (modifyRegs f : CpuM β Unit) := modifyCpu _

/-- What is done next may depend on the core. -/
theorem readCpu {f : System β → CpuM β α} (hf : ∀ s t, s.cpu = t.cpu → f s = f t) (hr : ∀ s, Blind (f s)) :
    Blind (get >>= f) :=
  .reading (fun s t h => hf s t h.cpu) hr

theorem getRegs : Blind (getRegs : CpuM β Registers) := readCpu (fun _ _ h => by rw [h]) fun _ => .pure _

theorem onBus (action : BusM β α) : Blind (onBus action) := oblivious_alike.onBus action

theorem traceLine (line : String) : Blind (traceLine line : CpuM β Unit) := fun _ => .modify fun _ _ h => ⟨h.cpu, h.bus⟩

theorem retreatingTo {m : CpuM β α} (pc : UInt32) (hm : Blind m) : Blind (retreatingTo pc m) := by
  intro config s t h
  have hm := hm config s t h
  unfold CpuM.retreatingTo
  generalize m config s = x, m config t = y at hm
  cases hm with
  | ok a h => exact .ok a h
  | error e h => exact .error e ⟨by rw [h.cpu], h.bus⟩

/-! ### Actions without accesses -/

theorem resolve (m : MemOperand) (width : Width) : Blind (resolve m width : CpuM β UInt32) :=
  getRegs.bind fun _ => (modifyRegs _).bind fun _ => .pure _

theorem destinationAddress (width : Width) (dst : Operand) :
    Blind (destinationAddress width dst : CpuM β (Option UInt32)) := by
  cases dst with
  | mem m => exact (resolve m width).map some
  | reg id => exact .pure none
  | imm value => exact .pure none

theorem advanceSource (width : Width) (src : Operand) : Blind (advanceSource width src : CpuM β Unit) := by
  cases src with
  | mem m => exact modifyRegs _
  | reg id => exact .pure ()
  | imm value => exact .pure ()

theorem operateBit (op : BitOp) (mask byte : UInt8) {writeBack : UInt8 → CpuM β Unit} (hw : ∀ b, Blind (writeBack b)) :
    Blind (operateBit op mask byte writeBack) := by
  rw [operateBit_eq]
  split
  · exact getRegs.bind fun _ => hw _
  · exact modifyRegs _

theorem traceInstruction (i : Instruction) : Blind (traceInstruction i : CpuM β Unit) := by
  refine Respects.readConfig.bind fun config => ?_
  cases config.trace with
  | some options => exact readCpu (fun _ _ h => by rw [h]) fun _ => traceLine _
  | none => exact .pure ()

/-! ### Accesses -/

variable [Bus β]

theorem lasting_alike : Lasting (Alike : System β → System β → Prop) where
  toOblivious := oblivious_alike
  charge _ _ := modifyCpu _
  acknowledge _ := modifyCpu _

theorem read8 (addr : UInt32) : Blind (read8 addr : CpuM β UInt8) := lasting_alike.read8 addr

theorem write8 (addr : UInt32) (value : UInt8) : Blind (write8 addr value : CpuM β Unit) := lasting_alike.write8 addr value

theorem read16 (addr : UInt32) : Blind (read16 addr : CpuM β UInt16) := lasting_alike.read16 addr

theorem write16 (addr : UInt32) (value : UInt16) : Blind (write16 addr value : CpuM β Unit) := lasting_alike.write16 addr value

theorem read32 (addr : UInt32) : Blind (read32 addr : CpuM β UInt32) := lasting_alike.read32 addr

theorem write32 (addr value : UInt32) : Blind (write32 addr value : CpuM β Unit) := lasting_alike.write32 addr value

theorem readSized (width : Width) (addr : UInt32) : Blind (readSized width addr : CpuM β UInt32) :=
  lasting_alike.readSized width addr

theorem writeSized (width : Width) (addr value : UInt32) : Blind (writeSized width addr value : CpuM β Unit) :=
  lasting_alike.writeSized width addr value

/-! ### Operands and transfers -/

theorem loadOperand (m : MemOperand) (width : Width) : Blind (loadOperand m width : CpuM β UInt32) :=
  (resolve m width).bind fun addr => (readSized width addr).bind fun _ => (modifyRegs _).bind fun _ => .pure _

theorem readOperand (width : Width) (operand : Operand) : Blind (readOperand width operand : CpuM β UInt32) := by
  cases operand with
  | reg id => exact getRegs.bind fun _ => .pure _
  | imm value => exact .pure _
  | mem m => exact loadOperand m width

theorem push32 (value : UInt32) : Blind (push32 value : CpuM β Unit) :=
  getRegs.bind fun _ => (modifyRegs _).bind fun _ => write32 _ value

theorem pop32 : Blind (pop32 : CpuM β UInt32) :=
  getRegs.bind fun _ => (read32 _).bind fun _ => (modifyRegs _).bind fun _ => .pure _

theorem sourceValue (width : Width) (src : Operand) : Blind (sourceValue width src : CpuM β UInt32) := by
  cases src with
  | mem m => exact (resolve m width).bind fun addr => readSized width addr
  | reg id => exact getRegs.bind fun _ => .pure _
  | imm value => exact .pure _

theorem deliver (width : Width) (dst : Operand) (addr : Option UInt32) (value : UInt32) :
    Blind (deliver width dst addr value : CpuM β Unit) := by
  cases addr with
  | some addr => exact writeSized width addr value
  | none =>
    cases dst with
    | reg id => exact modifyRegs (·.write width id value)
    | imm value => exact .pure ()
    | mem m => exact .pure ()

theorem move (width : Width) (src dst : Operand) : Blind (move width src dst : CpuM β Unit) :=
  (destinationAddress width dst).bind fun addr => (sourceValue width src).bind fun value =>
    (modifyRegs _).bind fun _ => (deliver width dst addr value).bind fun _ => advanceSource width src

theorem pushRegisters (n : Nat) (first : UInt8) : Blind (pushRegisters first n : CpuM β Unit) := by
  induction n generalizing first with
  | zero => exact .pure ()
  | succ n ih => exact getRegs.bind fun _ => (push32 _).bind fun _ => ih (first + 1)

theorem popRegisters (n : Nat) (last : UInt8) : Blind (popRegisters last n : CpuM β Unit) := by
  induction n generalizing last with
  | zero => exact .pure ()
  | succ n ih => exact pop32.bind fun _ => (modifyRegs _).bind fun _ => ih (last - 1)

theorem copyBlock (width : Width) (n : Nat) : Blind (copyBlock width n : CpuM β Unit) := by
  induction n with
  | zero => exact .pure ()
  | succ n ih =>
    exact getRegs.bind fun _ => (read8 _).bind fun byte => (write8 _ byte).bind fun _ => (modifyRegs _).bind fun _ => ih

theorem testAndSet (pointer : UInt8) : Blind (testAndSet pointer : CpuM β Unit) :=
  getRegs.bind fun _ => (read8 _).bind fun _ => (modifyRegs _).bind fun _ => write8 _ _

theorem loadControl (src : Operand) (dst : ControlReg) : Blind (loadControl src dst : CpuM β Unit) := by
  refine Respects.bind ?_ fun _ => modifyRegs _
  cases src with
  | reg id => exact getRegs.bind fun _ => .pure _
  | imm value => exact .pure _
  | mem m => exact (loadOperand m .word).bind fun _ => .pure _

theorem storeControl (src : ControlReg) (dst : Operand) : Blind (storeControl src dst : CpuM β Unit) := by
  refine getRegs.bind fun _ => ?_
  cases dst with
  | reg id => exact modifyRegs _
  | mem m => exact (resolve m .word).bind fun addr => write16 addr _
  | imm value => exact .pure ()

/-! ### Operations -/

theorem bitOperation (op : BitOp) (number : BitNumber) (target : BitTarget) :
    Blind (bitOperation op number target : CpuM β Unit) := by
  refine getRegs.bind fun _ => ?_
  cases target with
  | reg id => exact getRegs.bind fun _ => operateBit op _ _ fun _ => modifyRegs _
  | mem m => exact (resolve m .byte).bind fun addr => (read8 addr).bind fun byte => operateBit op _ byte (write8 addr)

theorem jumpAddress (target : JumpTarget) : Blind (jumpAddress target : CpuM β UInt32) := by
  cases target with
  | indirect p => exact getRegs.bind fun _ => .pure _
  | absolute addr => exact .pure addr
  | stored addr => exact read32 _

theorem call (target : UInt32) : Blind (call target : CpuM β Unit) :=
  getRegs.bind fun _ => (push32 _).bind fun _ => (modifyCpu _).bind fun _ => modifyCpu _

theorem jumpThrough (addr : UInt32) : Blind (jumpThrough addr : CpuM β Unit) := (read32 _).bind fun _ => modifyCpu _

theorem userEnable : Blind (userEnable : CpuM β Bool) :=
  Respects.readConfig.bind fun _ => (read8 _).bind fun _ => .pure _

theorem pushFrame : Blind (pushFrame : CpuM β Unit) := getRegs.bind fun _ => push32 _

theorem trap (n : UInt8) : Blind (trap n : CpuM β Unit) :=
  pushFrame.bind fun _ => userEnable.bind fun _ => (modifyRegs _).bind fun _ =>
    (jumpThrough _).bind fun _ => modifyCpu _

theorem returnFromCall : Blind (returnFromCall : CpuM β Unit) :=
  pop32.bind fun _ => (modifyCpu _).bind fun _ => modifyCpu _

theorem returnFromException : Blind (returnFromException : CpuM β Unit) :=
  pop32.bind fun _ => (modifyRegs _).bind fun _ => (modifyCpu _).bind fun _ => modifyCpu _

theorem perform (op : Operation) : Blind (perform op : CpuM β Unit) := by
  cases op with
  | nop => exact .pure ()
  | sleep => exact modifyCpu fun c => { c with sleeping := true }
  | mov width src dst => exact move width src dst
  | alu op width src dst => exact (readOperand width src).bind fun _ => modifyRegs _
  | bit op number target => exact bitOperation op number target
  | bcc cond target wide =>
    refine getRegs.bind fun _ => ?_
    split
    · exact modifyCpu _
    · exact .pure ()
  | bsr target wide => exact call target
  | jmp target => exact (jumpAddress target).bind fun _ => modifyCpu _
  | jsr target => exact (jumpAddress target).bind fun addr => call addr
  | rts => exact returnFromCall
  | rte => exact returnFromException
  | trapa n => exact trap n
  | ldc src dst => exact loadControl src dst
  | stc src dst => exact storeControl src dst
  | ldm last count => exact popRegisters count.toNat last
  | stm first count => exact pushRegisters count.toNat first
  | tas pointer => exact testAndSet pointer
  | eepmov width => exact getRegs.bind fun _ => copyBlock width _
  | _ =>
    unfold CpuM.perform
    exact modifyRegs _

/-! ### Steps -/

theorem decode (pc : UInt32) : Blind (Instruction.decode CpuM.read8 pc : CpuM β Instruction) := by
  have hrun : ∀ {α : Type} (d : Decoding α) (start : UInt32) (consumed : List UInt8),
      Blind (d.run CpuM.read8 start consumed : CpuM β (α × List UInt8)) := by
    intro α d start consumed
    induction d generalizing consumed with
    | done a => exact .pure _
    | illegal => exact .throw _
    | byte next ih => exact (read8 _).bind fun b => ih b _
  exact (hrun _ _ _).bind fun _ => .pure _

theorem execute (i : Instruction) : Blind (execute i : CpuM β Unit) :=
  (modifyRegs _).bind fun _ => (perform i.op).bind fun _ => modifyCpu _

theorem executeNext : Blind (executeNext : CpuM β Unit) :=
  getRegs.bind fun _ => retreatingTo _ <| (decode _).bind fun i => (traceInstruction i).bind fun _ => execute i

theorem enterInterrupt (n : UInt8) : Blind (enterInterrupt n : CpuM β Unit) :=
  userEnable.bind fun _ => (modifyCpu _).bind fun _ => pushFrame.bind fun _ => (modifyCpu _).bind fun _ =>
    (modifyRegs _).bind fun _ => Respects.readConfig.bind fun _ => (jumpThrough _).bind fun _ => modifyCpu _

theorem advance : Blind (advance : CpuM β Unit) := by
  refine readCpu (fun _ _ h => by rw [h]) fun s => ?_
  cases s.cpu.dueInterrupt? with
  | some n => exact enterInterrupt n
  | none =>
    refine readCpu (fun _ _ h => by rw [h]) fun s => ?_
    split
    · exact modifyCpu _
    · exact executeNext

theorem step : Blind (step : CpuM β UInt32) :=
  readCpu (fun _ _ h => by rw [h]) fun _ => advance.bind fun _ => readCpu (fun _ _ h => by rw [h]) fun _ => .pure _

theorem raise (n : UInt8) : Blind (raise n : CpuM β Unit) := by
  have henabled : Blind (isEnabled n : CpuM β Bool) := by
    refine Respects.readConfig.bind fun config => ?_
    cases config.ierAddress with
    | some addr =>
      show Blind (if InterruptSet.isGated n then _ else _)
      split
      · exact (read8 addr).bind fun _ => .pure _
      · exact .pure true
    | none => exact .pure true
  unfold CpuM.raise
  split
  · refine henabled.bind fun enabled => ?_
    cases enabled with
    | true => exact modifyCpu fun c => { c with pending := c.pending.insert n }
    | false => exact .pure ()
  · exact .pure ()

end Blind

end CpuM

end H8S
