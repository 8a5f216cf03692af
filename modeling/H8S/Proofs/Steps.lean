import H8S.Cpu.Step
import H8S.Proofs.Fetching
import H8S.Proofs.Operations

/-!
# Steps

A step is taken apart here once.  The interrupt that is due decides what it does (`advance_of_due`,
`advance_of_asleep`, `advance_of_awake`); an entry is a read of the system control register, a write of the frame and
a read of the vector (`enterInterrupt_ok`); an instruction is fetched, traced and carried out (`executeNext_ok`), and
as a whole it is a trace of accesses with a landing (`Executes`).
-/

namespace H8S

variable {β : Type}

/-- The interrupt `n` no longer waits, the core is awake, and there is room for a frame on the stack. -/
def Cpu.taking (n : UInt8) (c : Cpu) : Cpu :=
  { c with pending := c.pending.erase n, sleeping := false, regs := c.regs.setSp (c.regs.sp - 4) }

/-- The core after the frame was pushed, with the mask that goes with a value of the system control register. -/
def Cpu.shielded (syscr : UInt8) (c : Cpu) : Cpu :=
  { c with cycles := c.cycles + 4, regs := { c.regs with ccr := Cpu.masked (syscr &&& 0x08 != 0) c.regs.ccr } }

namespace System

/-- The system after the line of an instruction was traced, if lines are. -/
def traced (config : Config) (i : Instruction) (s : System β) : System β :=
  match config.trace with
  | some options => { s with trace := s.trace.push (Listing.traceLine options i s.cpu.depth) }
  | none => s

/-- The system as the operation of an instruction finds it, with the program counter past the instruction. -/
def begun (config : Config) (i : Instruction) (s : System β) : System β :=
  { s.traced config i with cpu := { s.cpu with regs := { s.cpu.regs with pc := i.nextPc } } }

@[simp] theorem begun_cpu (config : Config) (i : Instruction) (s : System β) :
    (s.begun config i).cpu = { s.cpu with regs := { s.cpu.regs with pc := i.nextPc } } := rfl

@[simp] theorem begun_bus (config : Config) (i : Instruction) (s : System β) : (s.begun config i).bus = s.bus := by
  unfold begun traced
  cases config.trace <;> rfl

/-- The system after some cycles inside the core. -/
def spent (s : System β) (cycles : UInt64) : System β :=
  { s with cpu := { s.cpu with cycles := s.cpu.cycles + cycles } }

end System

namespace CpuM

theorem run_traceInstruction {config : Config} {s : System β} (i : Instruction) :
    (traceInstruction i : CpuM β Unit) config s = .ok () (s.traced config i) := by
  unfold traceInstruction System.traced
  rw [bind_of_ok run_read]
  cases config.trace <;> rfl

variable [Bus β] {config : Config} {s t u : System β} {e : Fault} {n : UInt8}

/-! ### What a step does -/

theorem step_ok {c : UInt32} :
    step config s = .ok c u ↔ advance config s = .ok () u ∧ c = (u.cpu.cycles - s.cpu.cycles).toUInt32 := by
  unfold step
  rw [bind_of_ok run_get, bind_ok]
  constructor
  · rintro ⟨_, t, h, k⟩
    cases k
    exact ⟨h, rfl⟩
  · rintro ⟨h, rfl⟩
    exact ⟨(), u, h, rfl⟩

theorem step_error : step config s = .error e u ↔ advance config s = .error e u := by
  unfold step
  rw [bind_of_ok run_get, bind_error]
  constructor
  · rintro (h | ⟨_, _, _, ⟨⟩⟩)
    exact h
  · exact .inl

theorem advance_of_due (h : s.cpu.dueInterrupt? = some n) : advance config s = enterInterrupt n config s := by
  unfold advance
  rw [bind_of_ok run_get, h]

theorem advance_of_asleep (h : s.cpu.dueInterrupt? = none) (hs : s.cpu.sleeping = true) :
    advance config s = .ok () (s.spent idleCycles) := by
  unfold advance
  rw [bind_of_ok run_get, h]
  show (get >>= fun r => if r.cpu.sleeping = true then spend idleCycles else executeNext) config s = _
  rw [bind_of_ok run_get, if_pos hs]
  rfl

theorem advance_of_awake (h : s.cpu.dueInterrupt? = none) (hs : s.cpu.sleeping = false) :
    advance config s = executeNext config s := by
  unfold advance
  rw [bind_of_ok run_get, h]
  show (get >>= fun r => if r.cpu.sleeping = true then spend idleCycles else executeNext) config s = _
  rw [bind_of_ok run_get, if_neg (by simp [hs])]

/-! ### Entries -/

/-- An entry that ends has read the system control register, written the frame and read the vector. -/
theorem enterInterrupt_ok (h : enterInterrupt n config s = .ok () u) :
    ∃ syscr target s₁ s₂ s₃, read8 config.syscrAddress config s = .ok syscr s₁ ∧
      write32 (Address.trunc (s.cpu.regs.sp - 4)) (Cpu.frame s.cpu.regs) config
        { s₁ with cpu := s₁.cpu.taking n } = .ok () s₂ ∧
      read32 (Address.trunc (config.vectorBase + 4 * n.toUInt32)) config
        { s₂ with cpu := s₂.cpu.shielded syscr } = .ok target s₃ ∧
      u = { s₃ with cpu := (s₃.cpu.jumped target).entered } := by
  unfold enterInterrupt userEnable pushFrame push32 maskInterrupts jumpThrough at h
  simp only [bind_assoc] at h
  rw [bind_of_ok run_read] at h
  obtain ⟨syscr, s₁, h₁, h⟩ := bind_ok.1 h
  rw [bind_of_ok (run_pure _), bind_of_ok (run_modifyCpu _), bind_of_ok run_getRegs, bind_of_ok run_getRegs,
    bind_of_ok (run_modifyRegs _)] at h
  obtain ⟨_, s₂, h₂, h⟩ := bind_ok.1 h
  rw [bind_of_ok (run_spend 4), bind_of_ok (run_modifyRegs _), bind_of_ok run_read] at h
  obtain ⟨target, s₃, h₃, h⟩ := bind_ok.1 h
  rw [bind_of_ok (run_jump target)] at h
  cases h
  -- the frame is made of the registers as they were before the system control register was read
  have hr : s₁.cpu.regs = s.cpu.regs := congrArg (fun v => v.1.1) ((read8_keeps _).ok h₁)
  refine ⟨syscr, target, s₁, s₂, s₃, h₁, ?_, h₃, rfl⟩
  rw [← hr]
  exact h₂

/-- Conversely, an entry ends if its accesses do. -/
theorem enterInterrupt_of_accesses {syscr : UInt8} {target : UInt32} {s₁ s₂ s₃ : System β}
    (h₁ : read8 config.syscrAddress config s = .ok syscr s₁)
    (h₂ : write32 (Address.trunc (s.cpu.regs.sp - 4)) (Cpu.frame s.cpu.regs) config
      { s₁ with cpu := s₁.cpu.taking n } = .ok () s₂)
    (h₃ : read32 (Address.trunc (config.vectorBase + 4 * n.toUInt32)) config
      { s₂ with cpu := s₂.cpu.shielded syscr } = .ok target s₃) :
    enterInterrupt n config s = .ok () { s₃ with cpu := (s₃.cpu.jumped target).entered } := by
  have hr : s₁.cpu.regs = s.cpu.regs := congrArg (fun v => v.1.1) ((read8_keeps _).ok h₁)
  rw [← hr] at h₂
  unfold enterInterrupt userEnable pushFrame push32 maskInterrupts jumpThrough
  simp only [bind_assoc]
  rw [bind_of_ok run_read, bind_of_ok h₁, bind_of_ok (run_pure _), bind_of_ok (run_modifyCpu _), bind_of_ok run_getRegs,
    bind_of_ok run_getRegs, bind_of_ok (run_modifyRegs _)]
  have h₂ : write32 (Address.trunc (s₁.cpu.regs.sp - 4)) (Cpu.frame s₁.cpu.regs) config _ = .ok () s₂ := h₂
  refine (bind_of_ok h₂).trans ?_
  rw [bind_of_ok (run_spend 4), bind_of_ok (run_modifyRegs _), bind_of_ok run_read]
  refine (bind_of_ok h₃).trans ?_
  rw [bind_of_ok (run_jump target)]
  rfl

/-- What the accesses of an entry make of the core, whatever the frame and the vector. -/
theorem entry_core {syscr : UInt8} {target value addr vector : UInt32} {s₁ s₂ s₃ : System β}
    (h₁ : read8 config.syscrAddress config s = .ok syscr s₁)
    (h₂ : write32 addr value config { s₁ with cpu := s₁.cpu.taking n } = .ok () s₂)
    (h₃ : read32 vector config { s₂ with cpu := s₂.cpu.shielded syscr } = .ok target s₃) :
    coreView s₃ =
      ({ s.cpu.regs.setSp (s.cpu.regs.sp - 4) with ccr := Cpu.masked (syscr &&& 0x08 != 0) s.cpu.regs.ccr }, false,
        s.cpu.depth, s.trace) := by
  have k₁ := (read8_keeps _).ok h₁
  have k₂ := (write32_keeps _ _).ok h₂
  have k₃ := (read32_keeps _).ok h₃
  simp only [readView, coreView, Prod.mk.injEq] at k₁ k₂ k₃
  obtain ⟨⟨r₁, -, d₁, t₁⟩, -⟩ := k₁
  obtain ⟨r₂, a₂, d₂, t₂⟩ := k₂
  obtain ⟨⟨r₃, a₃, d₃, t₃⟩, -⟩ := k₃
  simp only [coreView, Prod.mk.injEq]
  refine ⟨?_, a₃.trans a₂, d₃.trans (d₂.trans d₁), t₃.trans (t₂.trans t₁)⟩
  rw [r₃]
  simp only [Cpu.shielded, r₂, Cpu.taking, r₁, Registers.setSp_ccr]

/-- A trap that ends has written the frame, read the system control register and read the vector. -/
theorem trap_ok (h : trap n config s = .ok () u) :
    ∃ syscr target s₁ s₂ s₃,
      write32 (Address.trunc (s.cpu.regs.sp - 4)) (Cpu.frame s.cpu.regs) config
        { s with cpu := { s.cpu with regs := s.cpu.regs.setSp (s.cpu.regs.sp - 4) } } = .ok () s₁ ∧
      read8 config.syscrAddress config s₁ = .ok syscr s₂ ∧
      read32 (Address.trunc (0x20 + 4 * n.toUInt32)) config
        { s₂ with
          cpu := { s₂.cpu with
            regs := { s₂.cpu.regs with ccr := Cpu.masked (syscr &&& 0x08 != 0) s₂.cpu.regs.ccr } } } = .ok target s₃ ∧
      u = { s₃ with cpu := (s₃.cpu.jumped target).entered } := by
  unfold trap pushFrame push32 userEnable maskInterrupts jumpThrough at h
  simp only [bind_assoc] at h
  rw [bind_of_ok run_getRegs, bind_of_ok run_getRegs, bind_of_ok (run_modifyRegs _)] at h
  obtain ⟨_, s₁, h₁, h⟩ := bind_ok.1 h
  rw [bind_of_ok run_read] at h
  obtain ⟨syscr, s₂, h₂, h⟩ := bind_ok.1 h
  rw [bind_of_ok (run_pure _), bind_of_ok (run_modifyRegs _)] at h
  obtain ⟨target, s₃, h₃, h⟩ := bind_ok.1 h
  rw [bind_of_ok (run_jump target)] at h
  cases h
  exact ⟨syscr, target, s₁, s₂, s₃, h₁, h₂, h₃, rfl⟩

/-- What the accesses of a trap make of the core. -/
theorem trap_core {syscr : UInt8} {target value addr vector : UInt32} {s₁ s₂ s₃ : System β}
    (h₁ : write32 addr value config
      { s with cpu := { s.cpu with regs := s.cpu.regs.setSp (s.cpu.regs.sp - 4) } } = .ok () s₁)
    (h₂ : read8 config.syscrAddress config s₁ = .ok syscr s₂)
    (h₃ : read32 vector config
      { s₂ with
        cpu := { s₂.cpu with
          regs := { s₂.cpu.regs with ccr := Cpu.masked (syscr &&& 0x08 != 0) s₂.cpu.regs.ccr } } } = .ok target s₃) :
    coreView s₃ =
      ({ s.cpu.regs.setSp (s.cpu.regs.sp - 4) with ccr := Cpu.masked (syscr &&& 0x08 != 0) s.cpu.regs.ccr },
        s.cpu.sleeping, s.cpu.depth, s.trace) := by
  have k₁ := (write32_keeps _ _).ok h₁
  have k₂ := (read8_keeps _).ok h₂
  have k₃ := (read32_keeps _).ok h₃
  simp only [readView, coreView, Prod.mk.injEq] at k₁ k₂ k₃
  obtain ⟨r₁, a₁, d₁, t₁⟩ := k₁
  obtain ⟨⟨r₂, a₂, d₂, t₂⟩, -⟩ := k₂
  obtain ⟨⟨r₃, a₃, d₃, t₃⟩, -⟩ := k₃
  simp only [coreView, Prod.mk.injEq]
  refine ⟨?_, a₃.trans (a₂.trans a₁), d₃.trans (d₂.trans d₁), t₃.trans (t₂.trans t₁)⟩
  rw [r₃, r₂, r₁]
  rfl

/-- An entry that fails stops at one of its accesses, before control has moved. -/
theorem enterInterrupt_error (h : enterInterrupt n config s = .error e u) :
    ∃ t, Stops config t e u ∧ t.cpu.regs.pc = s.cpu.regs.pc ∧ t.cpu.depth = s.cpu.depth := by
  unfold enterInterrupt at h
  rcases bind_error.1 h with h | ⟨enable, s₁, h₁, h⟩
  · exact ⟨s, Traced.userEnable.error h, rfl, rfl⟩
  obtain ⟨log, k₁⟩ := Traced.userEnable.ok h₁
  have c₁ := k₁.control
  rw [bind_of_ok (run_modifyCpu _)] at h
  have pushed : Traced (pushFrame : CpuM β Unit) := Traced.getRegs.bind fun _ => Traced.push32 _
  rcases bind_error.1 h with h | ⟨_, s₂, h₂, h⟩
  · refine ⟨_, pushed.error h, ?_, ?_⟩
    · exact congrArg Prod.fst c₁
    · exact congrArg (fun v => v.2.2.1) c₁
  obtain ⟨log', k₂⟩ := pushed.ok h₂
  have c₂ := k₂.control
  rw [bind_of_ok (run_spend 4)] at h
  unfold maskInterrupts at h
  rw [bind_of_ok (run_modifyRegs _), bind_of_ok run_read] at h
  rcases bind_error.1 h with h | ⟨_, _, _, ⟨⟩⟩
  rcases bind_error.1 h with h | ⟨_, _, _, ⟨⟩⟩
  refine ⟨_, (Traced.read32 _).error h, ?_, ?_⟩
  · exact (congrArg Prod.fst c₂).trans (congrArg Prod.fst c₁)
  · exact (congrArg (fun v => v.2.2.1) c₂).trans (congrArg (fun v => v.2.2.1) c₁)

/-! ### Instructions -/

private theorem execute_eq (i : Instruction) :
    execute i config (s.traced config i) =
      (perform i.op >>= fun _ => spend i.op.internalCycles.toUInt64) config (s.begun config i) := by
  have hb : s.begun config i =
      { s.traced config i with
        cpu := { (s.traced config i).cpu with regs := { (s.traced config i).cpu.regs with pc := i.nextPc } } } := by
    unfold System.begun System.traced
    cases config.trace <;> rfl
  unfold execute
  rw [bind_of_ok (run_modifyRegs _), hb]

theorem executeNext_ok :
    executeNext config s = .ok () u ↔
      ∃ i t v, Instruction.decode read8 s.cpu.regs.pc config s = .ok i t ∧
        perform i.op config (t.begun config i) = .ok () v ∧ u = v.spent i.op.internalCycles.toUInt64 := by
  unfold executeNext executeAt
  rw [bind_of_ok run_getRegs, retreatingTo_ok]
  constructor
  · intro h
    obtain ⟨i, t, hd, h⟩ := bind_ok.1 h
    rw [bind_of_ok (run_traceInstruction i), execute_eq] at h
    obtain ⟨_, v, hp, h⟩ := bind_ok.1 h
    cases h
    exact ⟨i, t, v, hd, hp, rfl⟩
  · rintro ⟨i, t, v, hd, hp, rfl⟩
    rw [bind_of_ok hd, bind_of_ok (run_traceInstruction i), execute_eq, bind_of_ok hp]
    rfl

theorem executeNext_error (h : executeNext config s = .error e u) :
    ∃ v, u = { v with cpu := { v.cpu with regs := { v.cpu.regs with pc := s.cpu.regs.pc } } } ∧
      (Instruction.decode read8 s.cpu.regs.pc config s = .error e v ∨
        ∃ i t, Instruction.decode read8 s.cpu.regs.pc config s = .ok i t ∧
          perform i.op config (t.begun config i) = .error e v) := by
  unfold executeNext executeAt at h
  rw [bind_of_ok run_getRegs] at h
  obtain ⟨v, hv, rfl⟩ := retreatingTo_error.1 h
  refine ⟨v, rfl, ?_⟩
  rcases bind_error.1 hv with h | ⟨i, t, hd, h⟩
  · exact .inl h
  · rw [bind_of_ok (run_traceInstruction i), execute_eq] at h
    rcases bind_error.1 h with h | ⟨_, _, _, ⟨⟩⟩
    exact .inr ⟨i, t, hd, h⟩

/-- The step is that of the instruction `i`, and it ends. -/
structure CarriesOut (config : Config) (i : Instruction) (s u : System β) : Prop where
  awake : s.cpu.sleeping = false
  undisturbed : s.cpu.dueInterrupt? = none
  decoded : ∃ t, Instruction.decode read8 s.cpu.regs.pc config s = .ok i t
  ends : ∃ c, step config s = .ok c u

theorem carriesOut_iff {i : Instruction} :
    CarriesOut config i s u ↔ s.cpu.sleeping = false ∧ s.cpu.dueInterrupt? = none ∧
      ∃ t v, Instruction.decode read8 s.cpu.regs.pc config s = .ok i t ∧
        perform i.op config (t.begun config i) = .ok () v ∧ u = v.spent i.op.internalCycles.toUInt64 := by
  constructor
  · rintro ⟨ha, hq, ⟨t, hd⟩, c, hc⟩
    have h := (step_ok.1 hc).1
    rw [advance_of_awake hq ha] at h
    obtain ⟨i', t', v, hd', hp, hu⟩ := executeNext_ok.1 h
    rw [hd] at hd'
    cases hd'
    exact ⟨ha, hq, t, v, hd, hp, hu⟩
  · rintro ⟨ha, hq, t, v, hd, hp, hu⟩
    have h : advance config s = .ok () u := by
      rw [advance_of_awake hq ha]
      exact executeNext_ok.2 ⟨i, t, v, hd, hp, hu⟩
    exact ⟨ha, hq, ⟨t, hd⟩, _, step_ok.2 ⟨h, rfl⟩⟩

/-- An instruction that changes registers alone leaves them so, and of the core only the clock moves besides. -/
theorem CarriesOut.registers {g : Registers → Registers} {i : Instruction} (h : CarriesOut config i s u)
    (hp : ∀ b : System β, perform i.op config b = .ok () { b with cpu := { b.cpu with regs := g b.cpu.regs } }) :
    u.cpu = { s.cpu with
      regs := g { s.cpu.regs with pc := i.nextPc }, cycles := u.cpu.cycles, timer := u.cpu.timer } := by
  obtain ⟨-, -, t, v, hd, hv, rfl⟩ := carriesOut_iff.1 h
  rw [hp] at hv
  cases hv
  unfold System.spent
  rw [System.begun_cpu, (decode_ok hd).2.2.cpu]

/-- Such an instruction ends once it is fetched. -/
theorem carriesOut_registers {g : Registers → Registers} {op : Operation} {bytes : List UInt8}
    (hawake : s.cpu.sleeping = false) (hquiet : s.cpu.dueInterrupt? = none)
    (hf : Fetches config s (Address.even s.cpu.regs.pc) bytes t)
    (hd : (Decoding.operation (Address.even s.cpu.regs.pc)).feed bytes = some (.done op))
    (hp : ∀ b : System β, perform op config b = .ok () { b with cpu := { b.cpu with regs := g b.cpu.regs } }) :
    ∃ u, CarriesOut config ⟨Address.even s.cpu.regs.pc, op, bytes⟩ s u ∧ u.bus = t.bus :=
  ⟨_, carriesOut_iff.2 ⟨hawake, hquiet, t, _, decode_of_fetches hf hd, hp _, rfl⟩, System.begun_bus ..⟩

/-- One instruction is fetched and carried out with the accesses of `log`, and control lands as `l` says. -/
structure Executes (config : Config) (s : System β) (i : Instruction) (log : List CoreAccess) (l : Landing)
    (u : System β) : Prop where
  addr : i.addr = Address.even s.cpu.regs.pc
  whole : Decoding.Whole i.bytes.length i.op
  lands : i.op.Lands s.cpu.regs.ccr l
  runs : ∃ t v, Fetches config s i.addr i.bytes t ∧ Reaches config (t.begun config i) log v ∧
    u = System.spent { v with cpu := l.apply v.cpu } i.op.internalCycles.toUInt64

theorem CarriesOut.executes {i : Instruction} (h : CarriesOut config i s u) : ∃ log l, Executes config s i log l u := by
  obtain ⟨-, -, t, v, hd, hp, rfl⟩ := carriesOut_iff.1 h
  obtain ⟨ha, hw, hf⟩ := decode_ok hd
  obtain ⟨log, w, l, hr, hl, rfl⟩ := perform_ok hp
  have hccr : (t.begun config i).cpu.regs.ccr = s.cpu.regs.ccr := by
    rw [System.begun_cpu, hf.cpu]
  exact ⟨log, l, ha, hw, hccr ▸ hl, t, w, hf, hr, rfl⟩

/-- A step that ends is an entry, an idle period or one instruction. -/
theorem step_cases {c : UInt32} (h : step config s = .ok c u) :
    (∃ n, s.cpu.dueInterrupt? = some n ∧ enterInterrupt n config s = .ok () u) ∨
    (s.cpu.dueInterrupt? = none ∧ s.cpu.sleeping = true ∧ u = s.spent idleCycles) ∨
    ∃ i, CarriesOut config i s u := by
  have ha := (step_ok.1 h).1
  cases hdue : s.cpu.dueInterrupt? with
  | some n => exact .inl ⟨n, rfl, advance_of_due hdue ▸ ha⟩
  | none =>
    by_cases hs : s.cpu.sleeping = true
    · rw [advance_of_asleep hdue hs] at ha
      cases ha
      exact .inr (.inl ⟨rfl, hs, rfl⟩)
    · have hawake : s.cpu.sleeping = false := by simpa using hs
      rw [advance_of_awake hdue hawake] at ha
      obtain ⟨i, t, v, hd, hp, hu⟩ := executeNext_ok.1 ha
      exact .inr (.inr ⟨i, carriesOut_iff.2 ⟨hawake, hdue, t, v, hd, hp, hu⟩⟩)

namespace Executes

variable {i : Instruction} {log : List CoreAccess} {l : Landing}

/-- Sequential operations leave the program counter after the instruction. -/
theorem pc (h : Executes config s i log l u) :
    u.cpu.regs.pc =
      match l with
      | .onward | .asleep => i.nextPc
      | .jumped target | .entered target | .left target => Address.even target := by
  obtain ⟨t, v, -, hr, rfl⟩ := h.runs
  have hpc : v.cpu.regs.pc = i.nextPc := congrArg Prod.fst hr.control
  cases l with
  | onward => exact hpc
  | asleep => exact hpc
  | jumped target => rfl
  | entered target => rfl
  | left target => rfl

/-- An instruction changes the pending interrupts only by what it writes to the status register. -/
theorem pending (h : Executes config s i log l u) :
    u.cpu.pending = (log.flatMap (statusWrites config)).foldl InterruptSet.acknowledge s.cpu.pending := by
  obtain ⟨t, v, hf, hr, rfl⟩ := h.runs
  have hv : v.cpu.pending = _ := hr.pending
  rw [System.begun_cpu, hf.cpu] at hv
  rw [← hv]
  cases l <;> rfl

end Executes

/-! ### Frames of exceptions -/

/-- The step enters an interrupt or a trap, and pushes `frame` for the return address `ra`. -/
inductive PushesFrame (config : Config) (ra frame : UInt32) (s u : System β) : Prop where
  | interrupt (n syscr : UInt8) (target : UInt32) (s₁ s₂ s₃ : System β) : s.cpu.dueInterrupt? = some n →
      ra = s.cpu.regs.pc → read8 config.syscrAddress config s = .ok syscr s₁ →
      write32 (Address.trunc (s.cpu.regs.sp - 4)) frame config { s₁ with cpu := s₁.cpu.taking n } = .ok () s₂ →
      read32 (Address.trunc (config.vectorBase + 4 * n.toUInt32)) config
        { s₂ with cpu := s₂.cpu.shielded syscr } = .ok target s₃ →
      u = { s₃ with cpu := (s₃.cpu.jumped target).entered } → PushesFrame config ra frame s u
  | trap (i : Instruction) (n syscr : UInt8) (target : UInt32) (t s₁ s₂ s₃ : System β) : i.op = .trapa n →
      ra = i.nextPc → Instruction.decode read8 s.cpu.regs.pc config s = .ok i t →
      write32 (Address.trunc (s.cpu.regs.sp - 4)) frame config
        { t.begun config i with
          cpu := { t.cpu with regs := { s.cpu.regs with pc := i.nextPc }.setSp (s.cpu.regs.sp - 4) } } = .ok () s₁ →
      read8 config.syscrAddress config s₁ = .ok syscr s₂ →
      read32 (Address.trunc (0x20 + 4 * n.toUInt32)) config
        { s₂ with
          cpu := { s₂.cpu with
            regs := { s₂.cpu.regs with ccr := Cpu.masked (syscr &&& 0x08 != 0) s₂.cpu.regs.ccr } } } = .ok target s₃ →
      u = System.spent { s₃ with cpu := (s₃.cpu.jumped target).entered } i.op.internalCycles.toUInt64 →
      PushesFrame config ra frame s u

theorem interrupt_pushesFrame {c : UInt32} (hdue : s.cpu.dueInterrupt? = some n) (h : step config s = .ok c u) :
    PushesFrame config s.cpu.regs.pc (Cpu.frame s.cpu.regs) s u := by
  have ha := (step_ok.1 h).1
  rw [advance_of_due hdue] at ha
  obtain ⟨syscr, target, s₁, s₂, s₃, h₁, h₂, h₃, hu⟩ := enterInterrupt_ok ha
  exact .interrupt n syscr target s₁ s₂ s₃ hdue rfl h₁ h₂ h₃ hu

theorem trap_pushesFrame {i : Instruction} (hop : i.op = .trapa n) (h : CarriesOut config i s u) :
    PushesFrame config i.nextPc (Cpu.frame { s.cpu.regs with pc := i.nextPc }) s u := by
  obtain ⟨-, -, t, v, hd, hp, rfl⟩ := carriesOut_iff.1 h
  rw [hop] at hp
  obtain ⟨syscr, target, s₁, s₂, s₃, h₁, h₂, h₃, rfl⟩ := trap_ok hp
  obtain ⟨-, -, hf⟩ := decode_ok hd
  have hr : t.cpu.regs = s.cpu.regs := by rw [hf.cpu]
  rw [System.begun_cpu, hr] at h₁
  exact .trap i n syscr target t s₁ s₂ s₃ hop rfl hd h₁ h₂ h₃ rfl

end CpuM

end H8S
