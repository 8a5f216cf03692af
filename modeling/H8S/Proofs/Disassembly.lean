import H8S.Machine
import H8S.Peripheral
import H8S.Proofs.FlatMemory
import H8S.Proofs.Sources

/-!
# Disassembled and executed code

A step decodes through the byte reads of the core, and a disassembly decodes from memory alone.  Where no device and no
register of the core answers in place of the memory (`DeviceBus.Plain`), the two sources give the same replies, and fetching
moves only the cycle counter and the timer of the core.  So what is disassembled at the program counter is what the next
instruction step executes, and where it cannot be disassembled the step fails in the same way (`step_disassembled`).
-/

namespace H8S

namespace CpuM

section Timed

variable {β α : Type} [Bus β]

/-- The byte reads of the core. -/
def timed (config : Config) : Source (System β) := fun addr => read8 addr config

private theorem run_timed (config : Config) (start : UInt32) (d : Decoding α) (consumed : List UInt8) (s : System β) :
    d.run read8 start consumed config s = d.run (timed config) start consumed s := by
  induction d generalizing consumed s with
  | done a => rfl
  | illegal => rfl
  | byte next ih =>
    show EStateM.bind _ _ s = EStateM.bind _ _ s
    exact congrArg (fun k => EStateM.bind (timed config _) k s) (funext fun b => funext fun t => ih b _ t)

theorem decode_timed (config : Config) (pc : UInt32) (s : System β) :
    Instruction.decode read8 pc config s = Instruction.decode (timed config) pc s := by
  unfold Instruction.decode
  rw [run_bind, run_timed]
  show _ = EStateM.bind _ _ s
  unfold EStateM.bind
  cases (Decoding.operation (Address.even pc)).run (timed config) (Address.even pc) [] s <;> rfl

end Timed

section Plain

variable {δ : Type} [Device δ] {config : Config} {s t u : System (DeviceBus δ)}

/-- The memory alone answers at an address: no device does, and no register of the core. -/
def Plain (config : Config) (bus : DeviceBus δ) (addr : UInt32) : Prop :=
  bus.mapping? addr = none ∧ config.isrAddress ≠ some addr

private theorem read8_plain {addr : UInt32} (h : Plain config s.bus addr) :
    read8 addr config s =
      match s.bus.memory.read? addr with
      | .ok b => .ok b { s with cpu := s.cpu.charged .read addr }
      | .error e => .error e { s with cpu := s.cpu.charged .read addr } := by
  obtain ⟨hm, hi⟩ := h
  unfold read8 load8
  rw [bind_of_ok (run_charge .read addr), bind_of_ok run_read, if_neg hi]
  cases hr : s.bus.memory.read? addr with
  | ok b =>
    have hb : DeviceBus.read8 addr s.bus = .ok b s.bus := by
      unfold DeviceBus.read8
      simp only [hm, hr]
    exact onBus_ok.2 ⟨s.bus, hb, rfl⟩
  | error e =>
    have hb : DeviceBus.read8 addr s.bus = .error e s.bus := by
      unfold DeviceBus.read8
      simp only [hm, hr]
    exact onBus_error.2 ⟨s.bus, hb, rfl⟩

/-- Plain addresses are read as they are in memory. -/
private theorem replies_timed (addrs : List UInt32) (s : System (DeviceBus δ))
    (h : ∀ addr ∈ addrs, Plain config s.bus addr) :
    (timed config).replies s addrs = addrs.map s.bus.memory.read? := by
  induction addrs generalizing s with
  | nil => rfl
  | cons addr addrs ih =>
    have hr := read8_plain (h addr List.mem_cons_self)
    have ih := ih { s with cpu := s.cpu.charged .read addr } fun a ha => h a (List.mem_cons_of_mem _ ha)
    rw [Source.replies, timed, hr, List.map_cons]
    cases hm : s.bus.memory.read? addr with
    | ok b => exact congrArg (List.cons _) ih
    | error e => exact congrArg (List.cons _) ih

/-- The code at an address is plain, as far as a decoding from memory looks at it. -/
def PlainCode (config : Config) (bus : DeviceBus δ) (pc : UInt32) : Prop :=
  ∀ addr ∈ (Source.fixed bus.memory.read?).fetched pc (), Plain config bus addr

/-- Plain code is decoded as it lies in memory. -/
theorem decode_plain {pc : UInt32} (h : PlainCode config s.bus pc) :
    verdict (Instruction.decode read8 pc config s) = Instruction.decode s.bus.memory.read? pc := by
  rw [decode_timed, ← Source.decode_fixed]
  refine (Source.decode_of_replies ?_).2
  rw [replies_timed _ s h, Source.replies_fixed]

/-- Fetching plain code leaves the bus alone. -/
private theorem Fetches.bus_of_plain {start : UInt32} {bytes : List UInt8} (hf : Fetches config s start bytes t)
    (h : ∀ addr ∈ Source.addressesFrom start bytes.length, Plain config s.bus addr) : t.bus = s.bus := by
  induction hf with
  | nil => rfl
  | @snoc bytes t b bus hf ha ih =>
    unfold Source.addressesFrom at h ih
    rw [List.length_append, List.length_singleton, List.range_succ, List.map_append] at h
    have ih := ih fun addr hm => h addr (List.mem_append_left _ hm)
    have hp : Plain config t.bus (start + bytes.length.toUInt32) := by
      rw [ih]
      exact h _ (List.mem_append_right _ List.mem_cons_self)
    have hr := read8_ok.2 ⟨bus, ha, rfl⟩
    rw [read8_plain hp] at hr
    split at hr
    · cases hr
      exact ih
    · cases hr

/-- The system, with the clock of the core at another time. -/
def clockedAs (s t : System (DeviceBus δ)) : System (DeviceBus δ) :=
  { s with cpu := { s.cpu with cycles := t.cpu.cycles, timer := t.cpu.timer } }

/-- Decoding plain code moves only the clock of the core. -/
theorem decode_plain_ok {pc : UInt32} {i : Instruction} (h : PlainCode config s.bus pc)
    (hd : Instruction.decode read8 pc config s = .ok i t) : t = clockedAs s t := by
  have hi : Instruction.decode s.bus.memory.read? pc = .ok i := by
    rw [← decode_plain h, hd]
    rfl
  obtain ⟨-, -, hf⟩ := decode_ok hd
  have hbus : t.bus = s.bus := by
    refine hf.bus_of_plain ?_
    rw [← Source.decode_fixed] at hi
    rw [← Source.fetched_of_ok hi]
    exact h
  unfold clockedAs
  rw [← hf.cpu, ← hf.trace, ← hbus]

end Plain

/-! ### Steps -/

section Steps

variable {β : Type} [Bus β] {config : Config} {s t : System β} {i : Instruction} {e : Fault}

/-- What a step does after it has decoded an instruction at `pc`, when the cycle counter had the value `start`. -/
def carryOn (pc : UInt32) (start : UInt64) (i : Instruction) : CpuM β UInt32 := do
  retreatingTo pc do
    traceInstruction i
    execute i
  return ((← get).cpu.cycles - start).toUInt32

/-- An instruction step goes on with the instruction that it decodes. -/
theorem step_of_decode (hs : s.cpu.sleeping = false) (hq : s.cpu.dueInterrupt? = none)
    (hd : Instruction.decode read8 s.cpu.regs.pc config s = .ok i t) :
    step config s = carryOn s.cpu.regs.pc s.cpu.cycles i config t := by
  have hr : retreatingTo s.cpu.regs.pc (executeAt s.cpu.regs.pc) config s =
      retreatingTo s.cpu.regs.pc (traceInstruction i >>= fun _ => execute i) config t := by
    unfold retreatingTo executeAt
    rw [bind_of_ok hd]
  unfold step carryOn
  rw [bind_of_ok run_get, run_bind, advance_of_awake hq hs, executeNext, bind_of_ok run_getRegs, hr, run_bind]

theorem step_of_decode_error (hs : s.cpu.sleeping = false) (hq : s.cpu.dueInterrupt? = none)
    (hd : Instruction.decode read8 s.cpu.regs.pc config s = .error e t) : ∃ u, step config s = .error e u := by
  have ha : advance config s =
      .error e { t with cpu := { t.cpu with regs := { t.cpu.regs with pc := s.cpu.regs.pc } } } := by
    rw [advance_of_awake hq hs, executeNext, bind_of_ok run_getRegs]
    exact retreatingTo_error.2 ⟨t, bind_error.2 (.inl hd), rfl⟩
  exact ⟨_, step_error.2 ha⟩

end Steps

end CpuM

namespace Machine

variable {δ : Type} [Device δ] {m : Machine δ}

/-- Plain code is disassembled as the instruction that a step executes, or the step fails as the disassembly does. -/
theorem step_disassembled (hs : m.cpu.sleeping = false) (hq : m.cpu.dueInterrupt? = none)
    (hc : CpuM.PlainCode m.config m.bus m.cpu.regs.pc) :
    (∃ i t, Instruction.decode m.memory.read? m.cpu.regs.pc = .ok i ∧
      m.disassemble m.cpu.regs.pc = .ok (Listing.text (m.config.trace.getD {}) i.op, i.len) ∧
      Instruction.decode CpuM.read8 m.cpu.regs.pc m.config m.system = .ok i t ∧ t = CpuM.clockedAs m.system t ∧
      CpuM.step m.config m.system = CpuM.carryOn m.cpu.regs.pc m.cpu.cycles i m.config t) ∨
    ∃ e u, m.disassemble m.cpu.regs.pc = .error e ∧ CpuM.step m.config m.system = .error e u := by
  have hv := CpuM.decode_plain (s := m.system) hc
  unfold disassemble
  cases hd : Instruction.decode CpuM.read8 m.cpu.regs.pc m.config m.system with
  | ok i t =>
    have hi : Instruction.decode m.memory.read? m.cpu.regs.pc = .ok i := hv.symm.trans (congrArg verdict hd)
    refine .inl ⟨i, t, hi, ?_, rfl, CpuM.decode_plain_ok hc hd, CpuM.step_of_decode hs hq hd⟩
    rw [hi]
    rfl
  | error e t =>
    have he : Instruction.decode m.memory.read? m.cpu.regs.pc = .error e := hv.symm.trans (congrArg verdict hd)
    obtain ⟨u, hu⟩ := CpuM.step_of_decode_error hs hq hd
    refine .inr ⟨e, u, ?_, hu⟩
    rw [he]
    rfl

end Machine

/-- What a decoding comes to is decided by the bytes it asks for.  They follow each other from the even address on, are ten at
most, and are the bytes that the instruction or the verdict of an illegal one reports, unless the source refuses one; any
other source with the same replies is asked for the same bytes and leads to the same end.  The byte reads of the core and
reads without a state are sources of this kind.  So a byte outside an encoding may change without changing the instruction,
and plain code is executed as it is disassembled. -/
theorem Instruction.decode_self_delimiting :
    (∀ {σ τ : Type} (f : Source σ) (g : Source τ) (pc : UInt32) (s : σ) (t : τ),
      (∃ n ≤ 10, f.fetched pc s = Source.addressesFrom (Address.even pc) n) ∧
      (∀ i, verdict (decode f pc s) = .ok i →
        i.addr = Address.even pc ∧ f.replies s (f.fetched pc s) = i.bytes.map .ok) ∧
      (∀ e, verdict (decode f pc s) = .error e → ∃ bytes : List UInt8,
        e = .illegalInstruction (Address.even pc) bytes ∧ f.replies s (f.fetched pc s) = bytes.map .ok ∨
        f.replies s (f.fetched pc s) = bytes.map .ok ++ [.error e]) ∧
      (g.replies t (f.fetched pc s) = f.replies s (f.fetched pc s) →
        g.fetched pc t = f.fetched pc s ∧ verdict (decode g pc t) = verdict (decode f pc s))) ∧
    (∀ {σ : Type} (f : Source σ) (pc : UInt32) (s : σ), decode f.noted pc (s, []) =
      match decode f pc s with
      | .ok i t => .ok i (t, f.fetched pc s)
      | .error e t => .error e (t, f.fetched pc s)) ∧
    (∀ {β : Type} [Bus β] (config : Config) (pc : UInt32) (s : System β),
      decode CpuM.read8 pc config s = decode (CpuM.timed config) pc s) ∧
    (∀ (read : UInt32 → Except Fault UInt8) (pc : UInt32), decode read pc = verdict (decode (Source.fixed read) pc ())) ∧
    (∀ (read read' : UInt32 → Except Fault UInt8) (pc : UInt32) (i : Instruction), decode read pc = .ok i →
      (∀ k < i.bytes.length, read' (i.addr + k.toUInt32) = read (i.addr + k.toUInt32)) → decode read' pc = .ok i) ∧
    (∀ (memory : Memory) (pc addr : UInt32) (value : UInt8) (i : Instruction), decode memory.read? pc = .ok i →
      (∀ k < i.bytes.length, addr ≠ i.addr + k.toUInt32) → decode (memory.store addr value).read? pc = .ok i) ∧
    (∀ {δ : Type} [Device δ] (m : Machine δ), m.cpu.sleeping = false → m.cpu.dueInterrupt? = none →
      CpuM.PlainCode m.config m.bus m.cpu.regs.pc →
      (∃ i t, decode m.memory.read? m.cpu.regs.pc = .ok i ∧
        m.disassemble m.cpu.regs.pc = .ok (Listing.text (m.config.trace.getD {}) i.op, i.len) ∧
        decode CpuM.read8 m.cpu.regs.pc m.config m.system = .ok i t ∧ t = CpuM.clockedAs m.system t ∧
        CpuM.step m.config m.system = CpuM.carryOn m.cpu.regs.pc m.cpu.cycles i m.config t) ∨
      ∃ e u, m.disassemble m.cpu.regs.pc = .error e ∧ CpuM.step m.config m.system = .error e u) := by
  refine ⟨fun f g pc s t => ⟨Source.fetched_eq f pc s, fun i => Source.replies_of_ok, fun e => Source.replies_of_error,
    Source.decode_of_replies⟩, Source.decode_noted, CpuM.decode_timed, fun read pc => (Source.decode_fixed read pc).symm,
    fun read read' pc i => Source.decode_of_agree, fun memory pc addr value i hi ha => ?_,
    fun m => Machine.step_disassembled⟩
  refine Source.decode_of_agree hi fun k hk => ?_
  unfold Memory.read?
  rw [Memory.get_store, if_neg (ha k hk)]
  rfl

/-- A move of two bytes at the beginning of the memory. -/
def Instruction.firstMove : Instruction := ⟨0, .mov .byte (.imm 0x12) (.reg 0), [0xF0, 0x12]⟩

/-- A machine with nothing else in its memory. -/
def Machine.beforeMove : Machine Peripheral :=
  (new {}).setMemory ({ size := Address.spaceSize : Memory }.storeAll 0 [0xF0, 0x12])

private theorem Machine.beforeMove_read (k : Nat) (h : k < 2) :
    beforeMove.memory.read? (0 + k.toUInt32) = .ok ([0xF0, 0x12] : List UInt8)[k] := by
  have hget : beforeMove.memory.get (0 + k.toUInt32) = ([0xF0, 0x12] : List UInt8)[k] :=
    Memory.get_storeAll [0xF0, 0x12] (by decide) k h
  have hin : Memory.contains beforeMove.memory (0 + k.toUInt32) = true := by
    match k, h with
    | 0, _ => rfl
    | 1, _ => rfl
  unfold Memory.read?
  rw [if_pos hin]
  exact congrArg _ hget

/-- The move is the next instruction, whatever comes after it. -/
theorem Instruction.decode_self_delimiting_beforeMove :
    decode (Machine.beforeMove.memory.store 2 0xFF).read? 0 = .ok firstMove ∧
      (Source.fixed (Machine.beforeMove.memory.store 2 0xFF).read?).fetched 0 () = [0, 1] ∧
      ∃ t, CpuM.step {} Machine.beforeMove.system = CpuM.carryOn 0 0 firstMove {} t := by
  obtain ⟨hsource, -, -, hfixed, hread, hstore, hstep⟩ := decode_self_delimiting
  have hcode : decode (Decoding.fetchCode 0 #[0xF0, 0x12]) 0 = .ok firstMove := rfl
  have hmove : decode Machine.beforeMove.memory.read? 0 = .ok firstMove := by
    refine hread _ _ 0 firstMove hcode fun k hk => (Machine.beforeMove_read k hk).trans ?_
    match k, hk with
    | 0, _ => exact rfl
    | 1, _ => exact rfl
  have hasked : (Source.fixed Machine.beforeMove.memory.read?).fetched 0 () = [0, 1] :=
    Source.fetched_of_ok (hfixed _ 0 ▸ hmove)
  refine ⟨hstore _ 0 2 0xFF firstMove hmove (by decide), ?_, ?_⟩
  · -- the byte after the move is not asked for
    rw [← hasked]
    refine ((hsource _ _ 0 () ()).2.2.2 ?_).1
    rw [hasked, Source.replies_fixed, Source.replies_fixed]
    refine List.map_congr_left fun addr ha => ?_
    have hne : (2 : UInt32) ≠ addr := fun he => absurd (he ▸ ha) (by decide)
    unfold Memory.read?
    rw [Memory.get_store, if_neg hne]
    rfl
  · have hplain : CpuM.PlainCode Machine.beforeMove.config Machine.beforeMove.bus Machine.beforeMove.cpu.regs.pc := by
      intro addr ha
      have ha : addr ∈ ([0, 1] : List UInt32) := hasked ▸ ha
      refine ⟨DeviceBus.mapping?_of_unmapped addr rfl, fun he => ?_⟩
      cases he
      exact absurd ha (by decide)
    rcases hstep Machine.beforeMove rfl (by decide) hplain with ⟨i, t, hi, -, -, -, hs⟩ | ⟨e, u, he, -⟩
    · cases hi.symm.trans hmove
      exact ⟨t, hs⟩
    · have hd : Machine.beforeMove.disassemble 0 = .ok (Listing.text {} firstMove.op, firstMove.len) := by
        unfold Machine.disassemble
        rw [hmove]
        rfl
      cases hd.symm.trans he

end H8S
