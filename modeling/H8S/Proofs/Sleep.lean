import H8S.Proofs.CallFrames
import H8S.Proofs.CanonicalEncodings
import H8S.Proofs.CheckedExecution
import H8S.Proofs.InterruptDispatch
import Mathlib.Logic.Relation

/-!
# Sleep

A core falls asleep by the one instruction for it, and a boot or the entry of an interrupt wakes it.  What an event makes
of sleep is said once (`Transition.Ended.sleeping_iff`); by induction a run ends asleep exactly if nothing has woken the core
since it last fell asleep (`Course.asleep_iff`).

While no interrupt is due, the steps of a sleeping core are idle periods: they move the clock and nothing else, and the bus
has no part in them (`steps_asleep`).  Whatever else happens to a sleeping core, its registers stay as the sleep instruction
has left them (`Course.dozes`), with the program counter behind it.  So the interrupt that ends the sleep has the next
instruction for its return address, and on a flat memory its handler, and each handler that follows upon the return of the
last, comes back to that instruction (`Services.resumed`).
-/

namespace H8S.CpuM

section Events

variable {β γ : Type} [Bus β] {config : Config} {s t u : System β} {i : Instruction} {history : List (Transition β)}

/-! ### Falling asleep -/

/-- Of all instructions that are carried out, one puts the core to sleep. -/
private theorem CarriesOut.sleeping_iff (h : CarriesOut config i s t) : t.cpu.sleeping = true ↔ i.op = .sleep := by
  obtain ⟨log, l, hex⟩ := h.executes
  obtain ⟨f, v, hf, hr, rfl⟩ := hex.runs
  have hlands := hex.lands
  -- up to the landing the core is awake
  have hawake : v.cpu.sleeping = false := by
    have hcontrol : v.cpu.sleeping = (f.begun config i).cpu.sleeping := congrArg (fun c => c.2.1) hr.control
    rw [hcontrol, System.begun_cpu, hf.cpu]
    exact h.awake
  show (l.apply v.cpu).sleeping = true ↔ _
  cases hop : i.op
  all_goals rw [hop] at hlands
  case sleep =>
    obtain rfl := hlands
    exact ⟨fun _ => rfl, fun _ => rfl⟩
  case bcc cond target wide =>
    rw [hlands]
    split <;> simp [Landing.apply, Cpu.jumped, hawake]
  case bsr =>
    obtain rfl := hlands
    simp [Landing.apply, Cpu.jumped, Cpu.entered, hawake]
  case jmp | jsr | trapa | rts | rte =>
    obtain ⟨target, rfl⟩ := hlands
    simp [Landing.apply, Cpu.jumped, Cpu.entered, Cpu.left, hawake]
  all_goals
    obtain rfl := hlands
    simp [Landing.apply, hawake]

/-- Besides by its fetch, the sleep instruction changes sleep and the program counter alone. -/
private theorem CarriesOut.falls_asleep (hop : i.op = .sleep) (h : CarriesOut config i s t) :
    t.cpu.sleeping = true ∧ t.cpu.regs = { s.cpu.regs with pc := i.nextPc } ∧
      ∃ f, Fetches config s i.addr i.bytes f ∧ t.bus = f.bus := by
  refine ⟨h.sleeping_iff.2 hop, ?_⟩
  obtain ⟨-, -, f, v, hd, hp, rfl⟩ := carriesOut_iff.1 h
  obtain ⟨-, -, hf⟩ := decode_ok hd
  rw [hop] at hp
  cases hp
  refine ⟨?_, f, hf, System.begun_bus config i f⟩
  show (f.begun config i).cpu.regs = _
  rw [System.begun_cpu, hf.cpu]

private theorem sleeping_of_enterInterrupt {n : UInt8} (h : enterInterrupt n config s = .ok () t) :
    t.cpu.sleeping = false := by
  obtain ⟨syscr, target, s₁, s₂, s₃, h₁, h₂, h₃, rfl⟩ := enterInterrupt_ok h
  exact congrArg (fun c => c.2.1) (entry_core h₁ h₂ h₃)

private theorem sleeping_of_boot (h : boot config s = .ok () t) : t.cpu.sleeping = false := by
  unfold boot at h
  rw [bind_of_ok (run_modifyCpu _), bind_of_ok run_read] at h
  obtain ⟨target, u, hr, h⟩ := bind_ok.1 h
  cases h
  exact congrArg (fun c => c.1.2.1) ((read32_keeps _).ok hr)

/-- The sleep instruction has two bytes, and lies at an even address. -/
private theorem CarriesOut.sleep_nextPc (hop : i.op = .sleep) (h : CarriesOut config i s t) :
    i.nextPc = i.addr + 2 ∧ i.nextPc.toNat = i.addr.toNat + 2 ∧ i.nextPc.toNat % 2 = 0 := by
  obtain ⟨ha, hcanonical⟩ := h.leaf (Decoding.operation_canonical _)
  have hbytes : [0x01, 0x80] = i.bytes := by
    unfold Operation.Canonical at hcanonical
    rwa [hop] at hcanonical
  obtain ⟨f, hd⟩ := h.decoded
  obtain ⟨-, hw, -⟩ := decode_ok hd
  have hlt : i.addr.toNat < Address.spaceSize := ha ▸ Address.even_lt _
  have heven : i.addr.toNat % 2 = 0 := ha ▸ Address.even_mod_two _
  have hnext : i.nextPc.toNat = i.addr.toNat + 2 := by
    rw [hw.nextPc_toNat hlt, ← hbytes]
    rfl
  have hwide : (i.addr + 2).toNat = i.addr.toNat + 2 :=
    Memory.toNat_add_of_lt (k := 2) (by unfold Address.spaceSize at hlt; omega)
  exact ⟨UInt32.toNat_inj.1 (hnext.trans hwide.symm), hnext, by omega⟩

/-! ### Events -/

namespace Transition

variable {x : Transition β}

/-- The event ended. -/
def Ended (config : Config) (x : Transition β) : Prop := happen x.event config x.before = .ok () x.after

/-- The event is a step that carries out the sleep instruction. -/
def FallsAsleep (config : Config) (x : Transition β) : Prop :=
  x.event = .step ∧ ∃ i, i.op = .sleep ∧ CarriesOut config i x.before x.after

/-- The event is a boot or the entry of an interrupt. -/
def Wakes (x : Transition β) : Prop := x.event = .boot ∨ ∃ n, x.enters n = true

/-- An event that wakes the core does not put it to sleep. -/
theorem FallsAsleep.not_wakes (h : x.FallsAsleep config) : ¬x.Wakes := by
  obtain ⟨hstep, i, -, hcarry⟩ := h
  rintro (hboot | ⟨n, hn⟩)
  · rw [hstep] at hboot
    cases hboot
  · simp [enters, hcarry.undisturbed] at hn

private theorem not_fallsAsleep (h : x.event ≠ .step) : ¬x.FallsAsleep config := fun hf => h hf.1

/-- After an event the core is asleep if the event has put it to sleep, or if it was asleep and the event has not woken
it. -/
theorem Ended.sleeping_iff (h : x.Ended config) :
    x.after.cpu.sleeping = true ↔ x.FallsAsleep config ∨ x.before.cpu.sleeping = true ∧ ¬x.Wakes := by
  obtain ⟨s, event, u⟩ := x
  change happen event config s = .ok () u at h
  show u.cpu.sleeping = true ↔ _ ∨ s.cpu.sleeping = true ∧ _
  cases event with
  | raise n =>
    have hsame : u.cpu.sleeping = s.cpu.sleeping :=
      congrArg (fun c => c.2.1) ((raise_keepsCore n).ok h)
    simp [hsame, not_fallsAsleep, Wakes, enters]
  | step =>
    obtain ⟨c, hc⟩ := happen_step h
    rcases step_cases hc with ⟨n, hdue, he⟩ | ⟨hdue, hasleep, hu⟩ | ⟨i, hcarry⟩
    case inl =>
      have hwakes : Wakes ⟨s, .step, u⟩ := .inr ⟨n, by simp [enters, hdue]⟩
      have hf : ¬FallsAsleep config ⟨s, .step, u⟩ := fun hf => hf.not_wakes hwakes
      have hawake := sleeping_of_enterInterrupt he
      simp [hawake, hwakes, hf]
    case inr.inl =>
      have hstays : u.cpu.sleeping = true := by
        rw [hu]
        exact hasleep
      have hwakes : ¬Wakes ⟨s, .step, u⟩ := by simp [Wakes, enters, hdue]
      simp [hstays, hasleep, hwakes]
    case inr.inr =>
      rw [hcarry.sleeping_iff, hcarry.awake]
      constructor
      · exact fun hop => .inl ⟨rfl, i, hop, hcarry⟩
      · rintro (⟨-, j, hop, hj⟩ | ⟨⟨⟩, -⟩)
        exact hcarry.sleeping_iff.1 (hj.sleeping_iff.2 hop)
  | clearPending =>
    cases h
    simp [not_fallsAsleep, Wakes, enters]
  | boot =>
    have hawake := sleeping_of_boot h
    simp [hawake, not_fallsAsleep, Wakes]

/-- Of a sleeping core that an event does not wake, a view is left alone if it looks at neither the clock nor what waits, and
if requests leave it alone. -/
theorem Ended.dozes (view : System β → γ) (hraise : ∀ n, Keeps view (raise n : CpuM β Unit))
    (hclock : ∀ (s : System β) cycles, view (s.spent cycles) = view s)
    (hwaits : ∀ (s : System β) p, view { s with cpu := { s.cpu with pending := p } } = view s) (h : x.Ended config)
    (hasleep : x.before.cpu.sleeping = true) (hw : ¬x.Wakes) : view x.after = view x.before := by
  obtain ⟨s, event, u⟩ := x
  change happen event config s = .ok () u at h
  change s.cpu.sleeping = true at hasleep
  show view u = view s
  cases event with
  | raise n => exact (hraise n).ok h
  | step =>
    obtain ⟨c, hc⟩ := happen_step h
    rcases step_cases hc with ⟨n, hdue, -⟩ | ⟨-, -, hu⟩ | ⟨i, hcarry⟩
    · exact (hw (.inr ⟨n, by simp [enters, hdue]⟩)).elim
    · exact (congrArg view hu).trans (hclock s _)
    · rw [hcarry.awake] at hasleep
      cases hasleep
  | clearPending =>
    cases h
    exact hwaits s {}
  | boot => exact (hw (.inl rfl)).elim

end Transition

/-! ### Runs -/

/-- Events that ended, one after another, with their history. -/
inductive Course (config : Config) (s : System β) : List (Transition β) → System β → Prop where
  | nil : Course config s [] s
  | snoc {history : List (Transition β)} {t u : System β} (event : CoreEvent) : Course config s history t →
      Transition.Ended config ⟨t, event, u⟩ → Course config s (history ++ [⟨t, event, u⟩]) u

/-- The core has fallen asleep, and nothing has woken it since. -/
def SleepsSince (config : Config) (history : List (Transition β)) : Prop :=
  ∃ before x after, history = before ++ x :: after ∧ x.FallsAsleep config ∧ ∀ y ∈ after, ¬y.Wakes

private theorem sleepsSince_snoc {x : Transition β} :
    SleepsSince config (history ++ [x]) ↔ x.FallsAsleep config ∨ SleepsSince config history ∧ ¬x.Wakes := by
  constructor
  · rintro ⟨before, y, after, he, hy, hrest⟩
    rcases List.eq_nil_or_concat after with rfl | ⟨rest, z, rfl⟩
    · obtain ⟨-, hx⟩ := List.append_inj' he rfl
      obtain rfl := List.singleton_inj.1 hx
      exact .inl hy
    · rw [List.concat_eq_append] at he hrest
      rw [← List.cons_append, ← List.append_assoc] at he
      obtain ⟨rfl, hz⟩ := List.append_inj' he rfl
      obtain rfl := List.singleton_inj.1 hz
      exact .inr ⟨⟨before, y, rest, rfl, hy, fun w hw => hrest w (by simp [hw])⟩, hrest x (by simp)⟩
  · rintro (hx | ⟨⟨before, y, after, rfl, hy, hrest⟩, hx⟩)
    · exact ⟨history, x, [], rfl, hx, by simp⟩
    · refine ⟨before, y, after ++ [x], by simp, hy, ?_⟩
      simpa [or_imp, forall_and] using ⟨hrest, hx⟩

namespace Course

theorem ended (h : Course config s history t) : ∀ x ∈ history, x.Ended config := by
  induction h with
  | nil => simp
  | snoc event _ hx ih =>
    intro x hmem
    rcases List.mem_append.1 hmem with hmem | hmem
    · exact ih x hmem
    · rw [List.mem_singleton.1 hmem]
      exact hx

/-- A run ends asleep exactly if nothing has woken the core since it fell asleep, or since the start if it slept then. -/
theorem asleep_iff (h : Course config s history t) :
    t.cpu.sleeping = true ↔
      SleepsSince config history ∨ s.cpu.sleeping = true ∧ ∀ x ∈ history, ¬x.Wakes := by
  induction h with
  | nil => simp [SleepsSince]
  | @snoc history t u event _ hx ih =>
    have hlast := hx.sleeping_iff
    simp only at hlast
    rw [hlast, ih, sleepsSince_snoc, List.forall_mem_append, List.forall_mem_singleton, or_and_right, and_assoc, or_assoc]

/-- A run that does not wake a sleeping core leaves such a view of it alone. -/
theorem dozes (view : System β → γ) (hraise : ∀ n, Keeps view (raise n : CpuM β Unit))
    (hclock : ∀ (s : System β) cycles, view (s.spent cycles) = view s)
    (hwaits : ∀ (s : System β) p, view { s with cpu := { s.cpu with pending := p } } = view s)
    (h : Course config s history t) (hasleep : s.cpu.sleeping = true) (hw : ∀ x ∈ history, ¬x.Wakes) :
    view t = view s := by
  induction h with
  | nil => rfl
  | @snoc history t u event hcourse hx ih =>
    rw [List.forall_mem_append, List.forall_mem_singleton] at hw
    have hdozing : t.cpu.sleeping = true := hcourse.asleep_iff.2 (.inr ⟨hasleep, hw.1⟩)
    exact (hx.dozes view hraise hclock hwaits hdozing hw.2).trans (ih hw.1)

end Course

/-! ### Idle steps -/

/-- Steps one after another, with the cycles that each of them took. -/
def steps : Nat → CpuM β (List UInt32)
  | 0 => return []
  | n + 1 => do
    let cycles ← step
    return cycles :: (← steps n)

private theorem step_asleep (hasleep : s.cpu.sleeping = true) (hdue : s.cpu.dueInterrupt? = none) :
    step config s = .ok 2 (s.spent 2) := by
  have ha : advance config s = .ok () (s.spent 2) := advance_of_asleep hdue hasleep
  refine step_ok.2 ⟨ha, ?_⟩
  show (2 : UInt32) = (s.cpu.cycles + 2 - s.cpu.cycles).toUInt32
  rw [UInt64.add_comm, UInt64.add_sub_cancel]
  rfl

theorem steps_asleep (hasleep : s.cpu.sleeping = true) (hdue : s.cpu.dueInterrupt? = none) (n : Nat) :
    steps n config s = .ok (List.replicate n 2) (s.spent (2 * n.toUInt64)) := by
  induction n generalizing s with
  | zero =>
    have hnone : s.spent (2 * (0 : Nat).toUInt64) = s := by
      unfold System.spent
      simp
    rw [hnone]
    rfl
  | succ n ih =>
    -- after a step the core is as before but for its clock
    have hrest : steps n config (s.spent 2) = .ok (List.replicate n 2) ((s.spent 2).spent (2 * n.toUInt64)) :=
      ih hasleep hdue
    have hclock : (s.spent 2).spent (2 * n.toUInt64) = s.spent (2 * (n + 1).toUInt64) := by
      unfold System.spent
      simp only [UInt64.add_assoc]
      congr 3
      apply UInt64.toNat_inj.1
      simp
      omega
    unfold steps
    rw [bind_of_ok (step_asleep hasleep hdue), bind_of_ok hrest, hclock]
    rfl

end Events

/-! ### Handlers -/

section Handlers

variable {config : Config} {s t u : System Memory} {i : Instruction} {history : List (Transition Memory)}

/-- An interrupt is entered, and later its exception is returned from, with the frame and the stack pointer as the entry has
left them. -/
inductive Services (config : Config) (s u : System Memory) : Prop where
  | intro (n : UInt8) (c : UInt32) (t t' : System Memory) : s.cpu.dueInterrupt? = some n → step config s = .ok c t →
      t'.bus.longAt (frameAddress s) = t.bus.longAt (frameAddress s) → t'.cpu.regs.sp = s.cpu.regs.sp - 4 →
      Return config .exception t' u → Services config s u

/-- The core is awake and where it was. -/
structure Resumed (s u : System Memory) : Prop where
  awake : u.cpu.sleeping = false
  pc : u.cpu.regs.pc = s.cpu.regs.pc
  sp : u.cpu.regs.sp = s.cpu.regs.sp
  ccr : u.cpu.regs.ccr = s.cpu.regs.ccr

private theorem Return.awake {kind : FrameKind} (h : Return config kind s t) : t.cpu.sleeping = false := by
  have stays : ∀ {i : Instruction}, CarriesOut config i s t → i.op ≠ .sleep → t.cpu.sleeping = false :=
    fun hcarry hop => Bool.eq_false_iff.2 fun hasleep => hop (hcarry.sleeping_iff.1 hasleep)
  cases h with
  | rts i hop hcarry => exact stays hcarry (by simp [hop])
  | rte i hop hcarry => exact stays hcarry (by simp [hop])

/-- A handler comes back to where the interrupt was entered. -/
theorem Services.resumed (h : Services config s u) (hp : Proper config s.cpu.regs.pc s) : Resumed s u := by
  obtain ⟨n, c, t, t', hdue, hstep, hlong, hsp, hreturn⟩ := h
  obtain ⟨-, hpc, hsp, -, hccr⟩ := entry_return (.interrupt n c hdue hstep) hp hlong hsp hreturn
  exact ⟨hreturn.awake, hpc, hsp, hccr⟩

private theorem Proper.of_resumed (h : Resumed s u) (hp : Proper config s.cpu.regs.pc s) :
    Proper config u.cpu.regs.pc u := by
  have haddr : frameAddress u = frameAddress s := by
    unfold frameAddress
    rw [h.sp]
  obtain ⟨even, returns, aside⟩ := hp
  rw [← h.pc] at even returns
  exact ⟨even, returns, haddr ▸ aside⟩

/-- So do handlers that follow each other. -/
theorem services_resumed (h : Relation.TransGen (Services config) s u) (hp : Proper config s.cpu.regs.pc s) :
    Resumed s u := by
  induction h with
  | single h => exact h.resumed hp
  | tail _ h ih =>
    obtain ⟨awake, pc, sp, ccr⟩ := h.resumed (hp.of_resumed ih)
    exact ⟨awake, pc.trans ih.pc, sp.trans ih.sp, ccr.trans ih.ccr⟩

/-- A core on a flat memory that was put to sleep and not yet woken is as the sleep instruction has left it, with the program
counter behind the instruction, to which a handler can return. -/
private theorem Course.after_sleep {s₀ : System Memory} (hop : i.op = .sleep) (hcarry : CarriesOut config i s₀ s)
    (haddr : i.addr.toNat < 0xFFFFFE) (haside : coversStatus config (frameAddress s₀) 4 = false)
    (h : Course config s history t) (hw : ∀ x ∈ history, ¬x.Wakes) :
    t.cpu.regs = { s₀.cpu.regs with pc := i.addr + 2 } ∧ t.bus = s₀.bus ∧ Proper config t.cpu.regs.pc t := by
  obtain ⟨hasleep, hregs, f, hf, hbus⟩ := hcarry.falls_asleep hop
  obtain ⟨hpc, hnext, heven⟩ := hcarry.sleep_nextPc hop
  have hcore : coreView t = coreView s :=
    h.dozes coreView raise_keepsCore (fun _ _ => rfl) (fun _ _ => rfl) hasleep hw
  have hmemory : t.bus = s.bus :=
    h.dozes System.bus (.raise read8_keeps_memory fun _ _ => rfl) (fun _ _ => rfl) (fun _ _ => rfl) hasleep hw
  have hr : t.cpu.regs = { s₀.cpu.regs with pc := i.nextPc } := hregs ▸ congrArg Prod.fst hcore
  have hproper : Proper config t.cpu.regs.pc t := by
    rw [hr]
    refine ⟨?even, ?returns, ?aside⟩
    case even =>
      rw [hr]
      exact heven
    case returns =>
      show i.nextPc.toNat < _
      unfold Address.spaceSize
      omega
    case aside =>
      unfold frameAddress
      rw [hr]
      exact haside
  exact ⟨hpc ▸ hr, hmemory.trans (hbus.trans hf.memory), hproper⟩

/-- A step of an awake core that ends enters an interrupt, with where the core is for its return address, or it carries out
the instruction that is there. -/
private theorem step_awake {c : UInt32} (hawake : s.cpu.sleeping = false) (he : s.cpu.regs.pc.toNat % 2 = 0)
    (hlt : s.cpu.regs.pc.toNat < Address.spaceSize) (h : step config s = .ok c t) :
    Entry config .exception s.cpu.regs.pc s t ∨ ∃ j, j.addr = s.cpu.regs.pc ∧ CarriesOut config j s t := by
  rcases step_cases h with ⟨n, hdue, -⟩ | ⟨-, hasleep, -⟩ | ⟨j, hcarry⟩
  · exact .inl (.interrupt n c hdue h)
  · rw [hawake] at hasleep
    cases hasleep
  · obtain ⟨log, l, hex⟩ := hcarry.executes
    exact .inr ⟨j, hex.addr.trans (Address.even_of_even he hlt), hcarry⟩

end Handlers

/-! ### The whole -/

/-- A core sleeps from a sleep instruction to an interrupt.  In a run of requests, steps and boots that end, only the sleep
instruction puts the core to sleep, and only a boot or the entry of an interrupt wakes it, so that the last of these events
decides.  While nothing is due, any number of steps on any bus take two cycles each and move the clock alone; the bus is as
before, also if it would have kept a record of accesses or refused them.  On a flat memory, however long the core has slept
and whatever was requested and withdrawn meanwhile, the interrupt that ends the sleep pushes the address behind the sleep
instruction, and its handler, or a series of handlers of which each but the first interrupts the return of the last, leaves
the core awake at that address with the stack pointer and the condition codes of the sleep instruction: the next step carries
out the instruction that is there, unless it enters one more interrupt with the same return address. -/
theorem sleep_until_interrupt (config : Config) :
    (∀ (β : Type) [Bus β] (s t : System β) (history : List (Transition β)), Course config s history t →
      (∀ x ∈ history,
        (x.before.cpu.sleeping = false → x.after.cpu.sleeping = true → x.FallsAsleep config) ∧
        (x.before.cpu.sleeping = true → x.after.cpu.sleeping = false → x.Wakes)) ∧
      (t.cpu.sleeping = true ↔
        SleepsSince config history ∨ s.cpu.sleeping = true ∧ ∀ x ∈ history, ¬x.Wakes)) ∧
    (∀ (β : Type) [Bus β] (s : System β), s.cpu.sleeping = true → (s.cpu.pending = {} ∨ s.cpu.regs.ccr.i = true) →
      ∀ n, steps n config s = .ok (List.replicate n 2) (s.spent (2 * n.toUInt64))) ∧
    ∀ (i : Instruction) (s₀ s₁ s₂ : System Memory) (history : List (Transition Memory)), i.op = .sleep →
      CarriesOut config i s₀ s₁ → i.addr.toNat < 0xFFFFFE → Course config s₁ history s₂ → (∀ x ∈ history, ¬x.Wakes) →
      coversStatus config (frameAddress s₀) 4 = false →
      (∀ n c t, s₂.cpu.dueInterrupt? = some n → step config s₂ = .ok c t →
        t.cpu.sleeping = false ∧ t.cpu.regs.sp = s₀.cpu.regs.sp - 4 ∧
        t.bus = s₀.bus.storeLong (frameAddress s₀) (FrameKind.exception.long (i.addr + 2) s₀.cpu.regs.ccr)) ∧
      ∀ u, Relation.TransGen (Services config) s₂ u →
        u.cpu.sleeping = false ∧ u.cpu.regs.pc = i.addr + 2 ∧ u.cpu.regs.sp = s₀.cpu.regs.sp ∧
        u.cpu.regs.ccr = s₀.cpu.regs.ccr ∧
        ∀ c v, step config u = .ok c v →
          Entry config .exception (i.addr + 2) u v ∨ ∃ j, j.addr = i.addr + 2 ∧ CarriesOut config j u v := by
  refine ⟨?runs, ?idle, ?handlers⟩
  case runs =>
    intro β _ s t history h
    refine ⟨fun x hx => ?_, h.asleep_iff⟩
    have hone := (h.ended x hx).sleeping_iff
    constructor
    · intro hbefore hafter
      rcases hone.1 hafter with hf | ⟨hasleep, -⟩
      · exact hf
      · rw [hbefore] at hasleep
        cases hasleep
    · intro hbefore hafter
      by_contra hw
      rw [hone.2 (.inr ⟨hbefore, hw⟩)] at hafter
      cases hafter
  case idle =>
    intro β _ s hasleep hquiet n
    exact steps_asleep hasleep (Cpu.dueInterrupt?_eq_none hquiet.symm) n
  case handlers =>
    intro i s₀ s₁ s₂ history hop hcarry haddr hcourse hw haside
    -- the interrupt finds the core behind the sleep instruction
    obtain ⟨hregs, hbus, hproper⟩ := hcourse.after_sleep hop hcarry haddr haside hw
    have hbehind : s₂.cpu.regs.pc = i.addr + 2 := by rw [hregs]
    have hccr₀ : s₂.cpu.regs.ccr = s₀.cpu.regs.ccr := by rw [hregs]
    have hsp₀ : s₂.cpu.regs.sp = s₀.cpu.regs.sp := by
      rw [hregs]
      rfl
    have hframe : frameAddress s₂ = frameAddress s₀ := by
      unfold frameAddress
      rw [hsp₀]
    refine ⟨?entry, ?after⟩
    case entry =>
      intro n c t hdue hstep
      have hentry : Entry config .exception s₂.cpu.regs.pc s₂ t := .interrupt n c hdue hstep
      obtain ⟨hpushed, hsp, -⟩ := hentry.pushes hproper.aside
      have ha := (step_ok.1 hstep).1
      rw [advance_of_due hdue] at ha
      refine ⟨sleeping_of_enterInterrupt ha, ?_, ?_⟩
      · rw [hsp, hsp₀]
      · rw [hpushed, hframe, hbus, hbehind, hccr₀]
    case after =>
      intro u hu
      obtain ⟨hawake, hpcu, hsp, hccr⟩ := services_resumed hu hproper
      refine ⟨hawake, hpcu.trans hbehind, hsp.trans hsp₀, hccr.trans hccr₀, fun c v hstep => ?_⟩
      have heven := hproper.even
      have hreturns := hproper.returns
      rw [← hpcu] at heven hreturns
      rw [← hbehind, ← hpcu]
      exact step_awake hawake heven hreturns hstep

/-! ### A run on a small memory -/

private theorem sleep_still {s : System Memory} {config : Config} {r : Registers} {p : InterruptSet} {d : Int} {m : Memory}
    (hs : still s = (r, p, false, d, m)) :
    ∃ t, perform .sleep config s = .ok () t ∧ still t = (r, p, true, d, m) := by
  unfold still at hs
  simp only [Prod.mk.injEq] at hs
  obtain ⟨rfl, rfl, -, rfl, rfl⟩ := hs
  exact ⟨_, rfl, rfl⟩

private theorem returnFromException_still {s : System Memory} {config : Config} {r : Registers} {p : InterruptSet} {d : Int}
    {m : Memory} (frame : UInt32) (hs : still s = (r, p, false, d, m))
    (hc : coversStatus config (Address.trunc r.sp) 4 = false) (hin : (Address.trunc r.sp).toNat + 4 ≤ m.size)
    (hframe : m.longAt (Address.trunc r.sp) = frame) :
    ∃ t, returnFromException config s = .ok () t ∧
      still t = ({ r.setSp (r.sp + 4) with pc := Address.even frame, ccr := .ofByte (frame >>> 24).toUInt8 }, p, false,
        max (d - 1) (-2147483648), m) := by
  unfold still at hs
  simp only [Prod.mk.injEq] at hs
  subst hframe
  obtain ⟨rfl, rfl, ha, rfl, rfl⟩ := hs
  have hpop := (pop32_memory hc).2 ⟨hin, rfl, rfl⟩
  refine ⟨_, bind_of_ok hpop, ?_⟩
  show (_, s.cpu.pending, s.cpu.sleeping, _, _) = _
  rw [ha]
  rfl

/-- On a flat memory these accesses end if the system control register, the frame and the vector lie in it. -/
private theorem enterInterrupt_still {s : System Memory} {config : Config} {r : Registers} {p : InterruptSet} {b : Bool}
    {d : Int} {m : Memory} (n : UInt8) (frame vector : UInt32) (hs : still s = (r, p, b, d, m))
    (hframe : Address.trunc (r.sp - 4) = frame) (hvector : Address.trunc (config.vectorBase + 4 * n.toUInt32) = vector)
    (hc₁ : coversStatus config config.syscrAddress 1 = false) (hc₂ : coversStatus config frame 4 = false)
    (hc₃ : coversStatus config vector 4 = false) (h₁ : config.syscrAddress.toNat + 1 ≤ m.size)
    (h₂ : frame.toNat + 4 ≤ m.size) (h₃ : vector.toNat + 4 ≤ m.size) (hsize : m.size ≤ 2 ^ 32) :
    ∃ t, enterInterrupt n config s = .ok () t ∧
      still t =
        ({ r.setSp (r.sp - 4) with
            pc := Address.even ((m.storeLong frame (Cpu.frame r)).longAt vector)
            ccr := Cpu.masked (m.get config.syscrAddress &&& 0x08 != 0) r.ccr },
          p.erase n, false, min (d + 1) 2147483647, m.storeLong frame (Cpu.frame r)) := by
  unfold still at hs
  simp only [Prod.mk.injEq] at hs
  obtain ⟨rfl, rfl, -, rfl, rfl⟩ := hs
  subst hframe hvector
  -- of each access we keep what it gives and what it leaves, and forget the clock
  obtain ⟨s₁, hread, hs₁⟩ : ∃ s₁, read8 config.syscrAddress config s = .ok (s.bus.get config.syscrAddress) s₁ ∧
      still s₁ = (s.cpu.regs, s.cpu.pending, s.cpu.sleeping, s.cpu.depth, s.bus) :=
    ⟨_, (read8_memory hc₁).2 ⟨h₁, rfl, rfl⟩, rfl⟩
  simp only [still, Prod.mk.injEq] at hs₁
  obtain ⟨r₁, p₁, -, d₁, b₁⟩ := hs₁
  have h₂' : (Address.trunc (s.cpu.regs.sp - 4)).toNat + 4 ≤ s₁.bus.size := by rwa [b₁]
  obtain ⟨s₂, hwrite, hs₂⟩ : ∃ s₂, write32 (Address.trunc (s.cpu.regs.sp - 4)) (Cpu.frame s.cpu.regs) config
      { s₁ with cpu := s₁.cpu.taking n } = .ok () s₂ ∧
      still s₂ = (s₁.cpu.regs.setSp (s₁.cpu.regs.sp - 4), s₁.cpu.pending.erase n, false, s₁.cpu.depth,
        s₁.bus.storeLong (Address.trunc (s.cpu.regs.sp - 4)) (Cpu.frame s.cpu.regs)) :=
    ⟨_, (write32_memory hc₂ (by omega)).2 ⟨h₂', rfl⟩, rfl⟩
  rw [r₁, p₁, d₁, b₁] at hs₂
  simp only [still, Prod.mk.injEq] at hs₂
  obtain ⟨r₂, p₂, a₂, d₂, b₂⟩ := hs₂
  obtain ⟨s₃, hjump, hs₃⟩ : ∃ s₃, read32 (Address.trunc (config.vectorBase + 4 * n.toUInt32)) config
      { s₂ with cpu := s₂.cpu.shielded (s.bus.get config.syscrAddress) } =
        .ok (s₂.bus.longAt (Address.trunc (config.vectorBase + 4 * n.toUInt32))) s₃ ∧
      still s₃ = still { s₂ with cpu := s₂.cpu.shielded (s.bus.get config.syscrAddress) } := by
    refine ⟨_, (read32_memory hc₃ (by omega)).2 ⟨?_, rfl, rfl⟩, rfl⟩
    show _ ≤ s₂.bus.size
    rwa [b₂, Memory.size_storeLong]
  simp only [still, Prod.mk.injEq] at hs₃
  obtain ⟨r₃, p₃, a₃, d₃, b₃⟩ := hs₃
  refine ⟨_, enterInterrupt_of_accesses hread hwrite hjump, ?_⟩
  simp only [still, Cpu.jumped, Cpu.entered, r₃, p₃, a₃, d₃, b₃, Cpu.shielded, r₂, p₂, a₂, d₂, b₂,
    Registers.setSp_ccr]

/-- The sleep instruction, one that does nothing and one that returns from an exception, before a vector of the last. -/
private def napCode : List UInt8 := [0x01, 0x80, 0x00, 0x00, 0x56, 0x70, 0x00, 0x00, 0x00, 0x00, 0x01, 0x04]

/-- The vector of the interrupt 1 is the one behind the code. -/
private def napConfig : Config := { vectorBase := 0x104, syscrAddress := 0x200 }

/-- The registers as the handler finds them. -/
private def handling (pc : UInt32) : Registers := { regsAt 0xFFC pc with ccr := { i := true, u := true } }

private theorem nap_enters {s : System Memory}
    (hs : still s = (regsAt 0x1000 0x102, .insert {} 1, true, 0, (started napCode).bus)) :
    s.cpu.dueInterrupt? = some 1 ∧ ∃ c t, step napConfig s = .ok c t ∧
      still t = (handling 0x104, {}, false, 1, (started napCode).bus.storeLong 0xFFC 0x102) := by
  have hvector : ((started napCode).bus.storeLong 0xFFC 0x102).longAt 0x108 = 0x104 := by
    have hkept : ((started napCode).bus.storeLong 0xFFC 0x102).longAt 0x108 = (started napCode).bus.longAt 0x108 :=
      Memory.longAt_storeLong_of_apart _ (by decide) (by decide) (.inr (by decide))
    rw [hkept]
    simp [started, napCode, Memory.longAt, Memory.storeAll, Memory.get_store]
    decide
  have hsyscr : (started napCode).bus.get napConfig.syscrAddress = 0 := by
    simp [started, napCode, napConfig, Memory.storeAll, Memory.get_store]
    exact Std.HashMap.getD_empty
  have hframe : Cpu.frame (regsAt 0x1000 0x102) = 0x102 := rfl
  have hdue : s.cpu.dueInterrupt? = some 1 := by
    have hregs : s.cpu.regs = regsAt 0x1000 0x102 := congrArg (·.1) hs
    have hpending : s.cpu.pending = .insert {} 1 := congrArg (·.2.1) hs
    have hlowest : (InterruptSet.insert {} 1).lowest? = some 1 := by decide
    unfold Cpu.dueInterrupt?
    rw [hregs, hpending]
    exact hlowest
  have henters : ∃ t, enterInterrupt 1 napConfig s = .ok () t ∧ still t = _ :=
    enterInterrupt_still 1 0xFFC 0x108 hs rfl rfl rfl rfl rfl (by decide) (by decide) (by decide) (by decide)
  obtain ⟨t, ht, hst⟩ := henters
  rw [hframe, hvector, hsyscr] at hst
  exact ⟨hdue, _, t, step_ok.2 ⟨(advance_of_due hdue).trans ht, rfl⟩, hst⟩

/-- A sleeping core that waits for nothing idles for two steps and is then asked for an interrupt. -/
private theorem nap_run {s : System Memory} {r : Registers} {d : Int} {m : Memory} (hs : still s = (r, {}, true, d, m)) :
    ∃ history t, Course napConfig s history t ∧ (∀ x ∈ history, ¬x.Wakes) ∧
      history.map (·.event) = [.step, .step, .raise 1] ∧ still t = (r, .insert {} 1, true, d, m) := by
  unfold still at hs
  simp only [Prod.mk.injEq] at hs
  obtain ⟨rfl, hnone, hasleep, rfl, rfl⟩ := hs
  let v := (s.spent 2).spent 2
  let t : System Memory := { v with cpu := { v.cpu with pending := v.cpu.pending.insert 1 } }
  have hdue : s.cpu.dueInterrupt? = none := Cpu.dueInterrupt?_eq_none (.inr hnone)
  have idles : ∀ s : System Memory, s.cpu.sleeping = true → s.cpu.dueInterrupt? = none →
      Transition.Ended napConfig ⟨s, .step, s.spent 2⟩ := by
    intro s ha hd
    show ((fun _ => ()) <$> step) napConfig s = _
    rw [run_map, step_asleep ha hd]
  have hraise : Transition.Ended napConfig ⟨v, .raise 1, t⟩ := rfl
  refine ⟨_, t, ((Course.nil.snoc .step (idles s hasleep hdue)).snoc .step (idles (s.spent 2) hasleep hdue)).snoc
    (.raise 1) hraise, ?_, rfl, ?_⟩
  · have hdue' : (s.spent 2).cpu.dueInterrupt? = none := hdue
    simp [Transition.Wakes, Transition.enters, hdue, hdue']
  · show (s.cpu.regs, s.cpu.pending.insert 1, s.cpu.sleeping, s.cpu.depth, s.bus) = _
    rw [hnone, hasleep]

/-- The core falls asleep, idles for two steps, and is then asked for an interrupt, the handler of which returns at once. -/
theorem sleep_until_interrupt_briefly :
    ∃ (i j : Instruction) (s₁ s₂ u v : System Memory) (history : List (Transition Memory)),
      i.op = .sleep ∧ CarriesOut napConfig i (started napCode) s₁ ∧ steps 2 napConfig s₁ = .ok [2, 2] (s₁.spent 4) ∧
      Course napConfig s₁ history s₂ ∧ history.map (·.event) = [.step, .step, .raise 1] ∧ s₂.cpu.sleeping = true ∧
      Services napConfig s₂ u ∧ u.cpu.sleeping = false ∧ u.cpu.regs.pc = i.addr + 2 ∧ CarriesOut napConfig j u v ∧
      j.op = .nop ∧ j.addr = i.addr + 2 := by
  have hcode : Code napConfig (started napCode).bus 0x100 napCode := started_code rfl (by decide)
  have hcode₁ := hcode.storeLong 0xFFC 0x102 (by decide) (by decide) (by decide)
  have hsleep : Code napConfig (started napCode).bus 0x100 [0x01, 0x80] :=
    hcode.part [] [0x00, 0x00, 0x56, 0x70, 0x00, 0x00, 0x00, 0x00, 0x01, 0x04] (by decide) (by decide)
  have hnop : Code napConfig ((started napCode).bus.storeLong 0xFFC 0x102) 0x102 [0x00, 0x00] :=
    hcode₁.part [0x01, 0x80] [0x56, 0x70, 0x00, 0x00, 0x00, 0x00, 0x01, 0x04] (by decide) (by decide)
  have hrte : Code napConfig ((started napCode).bus.storeLong 0xFFC 0x102) 0x104 [0x56, 0x70] :=
    hcode₁.part [0x01, 0x80, 0x00, 0x00] [0x00, 0x00, 0x00, 0x00, 0x01, 0x04] (by decide) (by decide)
  have hs : still (started napCode) = (regsAt 0x1000 0x100, {}, false, 0, (started napCode).bus) := rfl
  obtain ⟨s₁, h₁, hs₁⟩ := carriesOut_of_code (regsAt 0x1000 0x102, {}, true, 0, (started napCode).bus) hs
    (dueInterrupt?_of_still hs) hsleep rfl fun b hb => sleep_still hb
  have hasleep : s₁.cpu.sleeping = true := congrArg (·.2.2.1) hs₁
  have hnone : s₁.cpu.pending = {} := congrArg (·.2.1) hs₁
  obtain ⟨history, s₂, hcourse, hw, hevents, hs₂⟩ := nap_run hs₁
  obtain ⟨hdue, c, t, hstep, hst⟩ := nap_enters hs₂
  obtain ⟨u, hu, hsu⟩ := carriesOut_of_code
    (regsAt 0x1000 0x102, {}, false, 0, (started napCode).bus.storeLong 0xFFC 0x102) hst (dueInterrupt?_of_still hst) hrte
    rfl fun b hb => returnFromException_still 0x102 hb rfl (by decide) (Memory.longAt_storeLong _ _ _)
  obtain ⟨v, hv, -⟩ := carriesOut_of_code
    (regsAt 0x1000 0x104, {}, false, 0, (started napCode).bus.storeLong 0xFFC 0x102) hsu (dueInterrupt?_of_still hsu) hnop
    rfl fun b hb => ⟨b, rfl, hb⟩
  have hservice : Services napConfig s₂ u := by
    refine .intro 1 c t t hdue hstep rfl ?_ (.rte _ rfl hu)
    have hregs : t.cpu.regs = handling 0x104 := congrArg (·.1) hst
    have hregs₂ : s₂.cpu.regs = regsAt 0x1000 0x102 := congrArg (·.1) hs₂
    rw [hregs, hregs₂]
    rfl
  obtain ⟨hruns, hidle, hhandlers⟩ := sleep_until_interrupt napConfig
  obtain ⟨-, hafter⟩ := hhandlers _ (started napCode) s₁ s₂ history rfl h₁ (by decide) hcourse hw rfl
  obtain ⟨hawake, hpc, -⟩ := hafter u (.single hservice)
  have hstill : s₂.cpu.sleeping = true := (hruns Memory s₁ s₂ history hcourse).2.2 (.inr ⟨hasleep, hw⟩)
  exact ⟨_, _, s₁, s₂, u, v, history, rfl, h₁, hidle Memory s₁ hasleep (.inl hnone) 2, hcourse, hevents, hstill, hservice,
    hawake, hpc, hv, rfl, rfl⟩

end H8S.CpuM
