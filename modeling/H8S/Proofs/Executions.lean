import H8S.Proofs.FlatMemory

/-!
# Executed operations

An operation is executed by itself or as the instruction of a step (`Executed`).  Either way it is performed on the system as it
was, up to the program counter, the clock and what fetching does to the bus (`Readied`), and the cycles inside the core are spent
after it (`Executed.performed`).  So what is shown of its performance holds of both, and an operation that is always performed to
its end ends wherever it is executed (`Ends`, `executed_of_performs`).
-/

namespace H8S.CpuM

variable {β : Type} [Bus β] {config : Config} {i : Instruction} {op : Operation} {s t b : System β}

/-- The operation is executed and ends, by itself or as the instruction of a step. -/
inductive Executed (config : Config) (op : Operation) (s t : System β) : Prop where
  | alone (i : Instruction) : i.op = op → execute i config s = .ok () t → Executed config op s t
  | fetched (i : Instruction) : i.op = op → CarriesOut config i s t → Executed config op s t

/-- The operation ends wherever it is executed, by itself or after it was fetched and decoded. -/
structure Ends (config : Config) (op : Operation) (s : System β) : Prop where
  alone : ∀ i : Instruction, i.op = op → ∃ t, execute i config s = .ok () t
  fetched : ∀ (i : Instruction) (f : System β), i.op = op → s.cpu.sleeping = false → s.cpu.dueInterrupt? = none →
    Instruction.decode read8 s.cpu.regs.pc config s = .ok i f → ∃ t, CarriesOut config i s t

/-- The system is ready for the operation of an instruction. -/
structure Readied (s b : System β) : Prop where
  regs : ∃ pc, b.cpu.regs = { s.cpu.regs with pc := pc }
  bus : ∀ {γ : Type} {view : β → γ}, Bus.KeptByReads view → view b.bus = view s.bus

namespace Readied

theorem er (h : Readied s b) : b.cpu.regs.er = s.cpu.regs.er := by
  obtain ⟨pc, hregs⟩ := h.regs
  rw [hregs]

theorem readLong (h : Readied s b) (id : UInt8) : b.cpu.regs.readLong id = s.cpu.regs.readLong id :=
  congrArg (fun er => er[Registers.cell id]) h.er

theorem sp (h : Readied s b) : b.cpu.regs.sp = s.cpu.regs.sp := h.readLong 7

theorem memory {s b : System Memory} (h : Readied s b) : b.bus = s.bus := h.bus keptByReads_memory

end Readied

theorem execute_ok : execute i config s = .ok () t ↔
    ∃ v, perform i.op config { s with cpu := { s.cpu with regs := { s.cpu.regs with pc := i.nextPc } } } = .ok () v ∧
      t = v.spent i.op.internalCycles.toUInt64 := by
  unfold execute
  rw [bind_of_ok (run_modifyRegs _)]
  constructor
  · intro h
    obtain ⟨_, v, hp, h⟩ := bind_ok.1 h
    cases h
    exact ⟨v, hp, rfl⟩
  · rintro ⟨v, hp, rfl⟩
    exact bind_ok.2 ⟨(), v, hp, rfl⟩

theorem readied_alone (s : System β) (pc : UInt32) :
    Readied s { s with cpu := { s.cpu with regs := { s.cpu.regs with pc := pc } } } :=
  ⟨⟨pc, rfl⟩, fun _ => rfl⟩

theorem readied_fetched {f : System β} (hd : Instruction.decode read8 s.cpu.regs.pc config s = .ok i f) :
    Readied s (f.begun config i) where
  regs := by
    obtain ⟨-, -, hf⟩ := decode_ok hd
    refine ⟨i.nextPc, ?_⟩
    rw [System.begun_cpu, hf.cpu]
  bus hview := by
    obtain ⟨-, -, hf⟩ := decode_ok hd
    rw [System.begun_bus]
    exact hf.busView hview

theorem Executed.performed (h : Executed config op s t) :
    ∃ b v, Readied s b ∧ perform op config b = .ok () v ∧ t = v.spent op.internalCycles.toUInt64 := by
  cases h with
  | alone i hop h =>
    subst hop
    obtain ⟨v, hp, ht⟩ := execute_ok.1 h
    exact ⟨_, v, readied_alone s i.nextPc, hp, ht⟩
  | fetched i hop h =>
    subst hop
    obtain ⟨-, -, f, v, hd, hp, ht⟩ := carriesOut_iff.1 h
    exact ⟨_, v, readied_fetched hd, hp, ht⟩

theorem ends_of_performs (h : ∀ b, Readied s b → ∃ v, perform op config b = .ok () v) : Ends config op s where
  alone i hop := by
    subst hop
    obtain ⟨v, hp⟩ := h _ (readied_alone s i.nextPc)
    exact ⟨_, execute_ok.2 ⟨v, hp, rfl⟩⟩
  fetched i f hop hawake hquiet hd := by
    subst hop
    obtain ⟨v, hp⟩ := h _ (readied_fetched hd)
    exact ⟨_, carriesOut_iff.2 ⟨hawake, hquiet, f, v, hd, hp, rfl⟩⟩

/-- What an operation is always performed to, it is executed to. -/
theorem executed_of_performs {performed : System β → System β → Prop}
    (h : ∀ b, Readied s b → ∃ v, perform op config b = .ok () v ∧ performed b v) :
    Ends config op s ∧
      ∀ t, Executed config op s t → ∃ b v, Readied s b ∧ performed b v ∧ t = v.spent op.internalCycles.toUInt64 := by
  refine ⟨ends_of_performs fun b hb => (h b hb).imp fun _ hv => hv.1, fun t ht => ?_⟩
  obtain ⟨b, v, hb, hv, rfl⟩ := ht.performed
  obtain ⟨w, hw, hperformed⟩ := h b hb
  rw [hv] at hw
  cases hw
  exact ⟨b, v, hb, hperformed, rfl⟩

/-! ### Operations on registers -/

variable {g : Registers → Registers}

/-- An operation that changes registers alone makes of them what it makes of them, wherever it is executed. -/
theorem Executed.registers (h : Executed config op s t)
    (hp : ∀ b : System β, perform op config b = .ok () { b with cpu := { b.cpu with regs := g b.cpu.regs } }) :
    ∃ pc, t.cpu.regs = g { s.cpu.regs with pc := pc } := by
  obtain ⟨b, v, hb, hv, rfl⟩ := h.performed
  obtain ⟨pc, hregs⟩ := hb.regs
  rw [hp] at hv
  cases hv
  exact ⟨pc, congrArg g hregs⟩

theorem ends_of_registers
    (hp : ∀ b : System β, perform op config b = .ok () { b with cpu := { b.cpu with regs := g b.cpu.regs } }) :
    Ends config op s :=
  ends_of_performs fun b _ => ⟨_, hp b⟩

end H8S.CpuM
