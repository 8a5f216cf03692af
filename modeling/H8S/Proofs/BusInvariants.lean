import H8S.Proofs.Steps

/-!
# Invariants of the bus and of the pending interrupts

A step reaches the bus and the pending interrupts in few ways.  It puts accesses to the bus, none of which covers the status
register; a byte that it writes to the status register acknowledges interrupts; and it takes the interrupt that it enters.
`Invariant config I` says that a property of the pending interrupts and the bus is kept by all accesses and by every
acknowledgement.  Then every step keeps it, one that fails as well as one that ends, if taking the interrupt that is due
does (`step_upholds`).

The property may be any, so this says what a step does not do, too: an access that would break it is not made.
-/

namespace H8S

variable {β α γ : Type}

/-- Whatever comes of an action on the bus, a property of the bus is kept. -/
structure BusM.Preserves (P : β → Prop) (m : BusM β α) : Prop where
  ok : ∀ {bus a bus'}, P bus → m bus = .ok a bus' → P bus'
  error : ∀ {bus e bus'}, P bus → m bus = .error e bus' → P bus'

namespace BusM.Preserves

variable {P : β → Prop} {bus : β}

theorem outcome {m : BusM β α} (hm : BusM.Preserves P m) (h : P bus) : P (outcome (m bus)) := by
  cases hr : m bus with
  | ok a bus' => exact hm.ok h hr
  | error e bus' => exact hm.error h hr

theorem of_outcome {m : BusM β α} (hm : ∀ bus, P bus → P (H8S.outcome (m bus))) : BusM.Preserves P m where
  ok {bus _ _} h hr := by
    have hnext := hm bus h
    rwa [hr] at hnext
  error {bus _ _} h hr := by
    have hnext := hm bus h
    rwa [hr] at hnext

theorem pure (a : α) : BusM.Preserves P (pure a : BusM β α) where
  ok := by rintro _ _ _ h ⟨⟩; exact h
  error := by rintro _ _ _ _ ⟨⟩

theorem bind {m : BusM β α} {f : α → BusM β γ} (hm : BusM.Preserves P m) (hf : ∀ a, BusM.Preserves P (f a)) :
    BusM.Preserves P (m >>= f : BusM β γ) where
  ok h hr := by
    obtain ⟨a, next, h₁, h₂⟩ := BusM.bind_ok.1 hr
    exact (hf a).ok (hm.ok h h₁) h₂
  error h hr := by
    rcases BusM.bind_error.1 hr with h₁ | ⟨a, next, h₁, h₂⟩
    · exact hm.error h h₁
    · exact (hf a).error (hm.ok h h₁) h₂

end BusM.Preserves

namespace CpuM

/-- A run of the action leads from `s` to `u`, be it that it ends or that it fails. -/
def Leads (config : Config) (m : CpuM β α) (s u : System β) : Prop :=
  (∃ a, m config s = .ok a u) ∨ ∃ e, m config s = .error e u

/-- A run of two actions ends in the first, or goes on from where the first ended. -/
theorem leads_bind {config : Config} {m : CpuM β α} {f : α → CpuM β γ} {s u : System β}
    (h : Leads config (m >>= f) s u) :
    (∃ e, m config s = .error e u) ∨ ∃ a t, m config s = .ok a t ∧ Leads config (f a) t u := by
  rcases h with ⟨c, h⟩ | ⟨e, h⟩
  · obtain ⟨a, t, h₁, h₂⟩ := bind_ok.1 h
    exact .inr ⟨a, t, h₁, .inl ⟨c, h₂⟩⟩
  · rcases bind_error.1 h with h | ⟨a, t, h₁, h₂⟩
    · exact .inl ⟨e, h⟩
    · exact .inr ⟨a, t, h₁, .inr ⟨e, h₂⟩⟩

theorem leads_widening {config : Config} {m : CpuM β α} {width : Nat} {s u : System β}
    (h : Leads config (widening width m) s u) : Leads config m s u := by
  rcases h with ⟨a, h⟩ | ⟨e, h⟩
  · exact .inl ⟨a, widening_ok.1 h⟩
  · obtain ⟨e', h, -⟩ := widening_error.1 h
    exact .inr ⟨e', h⟩

/-- A property of the pending interrupts and of the bus is kept by an action, be it that it ends or that it fails. -/
structure Upholds (config : Config) (I : InterruptSet → β → Prop) (m : CpuM β α) : Prop where
  leads : ∀ {s u}, I s.cpu.pending s.bus → Leads config m s u → I u.cpu.pending u.bus

namespace Upholds

variable {config : Config} {I : InterruptSet → β → Prop}

/-! ### Composition -/

/-- The pending interrupts and the bus. -/
def contact (s : System β) : InterruptSet × β := (s.cpu.pending, s.bus)

theorem of_keeps {m : CpuM β α} (h : Keeps contact m) : Upholds config I m where
  leads {s u} hI hu := by
    have hsame : contact u = contact s := by
      rcases hu with ⟨a, hu⟩ | ⟨e, hu⟩
      · exact h.ok hu
      · exact h.error hu
    have hpending : u.cpu.pending = s.cpu.pending := congrArg Prod.fst hsame
    have hbus : u.bus = s.bus := congrArg Prod.snd hsame
    rwa [hpending, hbus]

theorem bind {m : CpuM β α} {f : α → CpuM β γ} (hm : Upholds config I m) (hf : ∀ a, Upholds config I (f a)) :
    Upholds config I (m >>= f) where
  leads {s u} hI hu := by
    rcases leads_bind hu with ⟨e, h⟩ | ⟨a, t, h₁, h₂⟩
    · exact hm.leads hI (.inr ⟨e, h⟩)
    · have ht := hm.leads hI (.inl ⟨a, h₁⟩)
      exact (hf a).leads ht h₂

theorem pure (a : α) : Upholds config I (pure a : CpuM β α) := of_keeps (.pure a)

/-- The configuration that an action reads is the one it runs with. -/
theorem reading {f : Config → CpuM β γ} (hf : Upholds config I (f config)) : Upholds config I (read >>= f) where
  leads hI hu := hf.leads hI hu

theorem map {m : CpuM β α} (f : α → γ) (hm : Upholds config I m) : Upholds config I (f <$> m) := by
  rw [← bind_pure_comp]
  exact hm.bind fun a => .pure (f a)

theorem widening {m : CpuM β α} (width : Nat) (hm : Upholds config I m) : Upholds config I (widening width m) where
  leads hI hu := hm.leads hI (leads_widening hu)

theorem retreatingTo {m : CpuM β α} (pc : UInt32) (hm : Upholds config I m) :
    Upholds config I (retreatingTo pc m) where
  leads hI hu := by
    rcases hu with ⟨a, hu⟩ | ⟨e, hu⟩
    · exact hm.leads hI (.inl ⟨a, retreatingTo_ok.1 hu⟩)
    · obtain ⟨v, h, rfl⟩ := retreatingTo_error.1 hu
      have hv := hm.leads hI (.inr ⟨e, h⟩)
      exact hv

theorem ofBus {m : BusM β α} (hm : ∀ p, BusM.Preserves (I p) m) : Upholds config I (onBus m) where
  leads hI hu := by
    rcases hu with ⟨a, hu⟩ | ⟨e, hu⟩
    · obtain ⟨bus, h, rfl⟩ := onBus_ok.1 hu
      exact (hm _).ok hI h
    · obtain ⟨bus, h, rfl⟩ := onBus_error.1 hu
      exact (hm _).error hI h

theorem ofPending {f : Cpu → Cpu} (hf : ∀ c bus, I c.pending bus → I (f c).pending bus) :
    Upholds config I (modifyCpu f : CpuM β Unit) where
  leads hI hu := by
    rcases hu with ⟨a, hu⟩ | ⟨e, hu⟩
    · cases hu
      exact hf _ _ hI
    · cases hu

/-- The pending interrupts are not changed. -/
theorem ofCpu {f : Cpu → Cpu} (hf : ∀ c, (f c).pending = c.pending) : Upholds config I (modifyCpu f : CpuM β Unit) :=
  ofPending fun c bus hI => by rwa [hf c]

end Upholds

/-- A property of the pending interrupts and of the bus is kept by acknowledgements, and by every access to the bus that
leaves the status register out. -/
structure Invariant [Bus β] (config : Config) (I : InterruptSet → β → Prop) : Prop where
  acknowledge : ∀ {p bus} (value : UInt8), I p bus → I (p.acknowledge value) bus
  read8 : ∀ {addr} p, config.isrAddress ≠ some addr → BusM.Preserves (I p) (Bus.read8 addr)
  write8 : ∀ {addr} p value, config.isrAddress ≠ some addr → BusM.Preserves (I p) (Bus.write8 addr value)
  read16 : ∀ {addr} p, coversStatus config addr 2 = false → BusM.Preserves (I p) (Bus.read16 addr)
  write16 : ∀ {addr} p value, coversStatus config addr 2 = false → BusM.Preserves (I p) (Bus.write16 addr value)

namespace Invariant

variable [Bus β] {config : Config} {I : InterruptSet → β → Prop} {s t u : System β} {log : List CoreAccess}

omit [Bus β] in
private theorem traceInstruction_upholds (i : Instruction) : Upholds config I (traceInstruction i : CpuM β Unit) := by
  refine .reading ?_
  cases config.trace with
  | some options => exact .of_keeps ⟨by rintro _ _ _ _ ⟨⟩; rfl, by rintro _ _ _ _ ⟨⟩⟩
  | none => exact .pure ()

variable (hI : Invariant config I)
include hI

/-! ### Accesses -/

private theorem load8_upholds (addr : UInt32) : Upholds config I (load8 addr : CpuM β UInt8) := by
  refine .reading ?_
  by_cases hc : config.isrAddress = some addr
  · rw [if_pos hc]
    exact .of_keeps (Keeps.get.bind fun s => .pure _)
  · rw [if_neg hc]
    exact .ofBus fun p => hI.read8 p hc

private theorem store8_upholds (addr : UInt32) (value : UInt8) : Upholds config I (store8 addr value : CpuM β Unit) := by
  refine .reading ?_
  by_cases hc : config.isrAddress = some addr
  · rw [if_pos hc]
    exact .ofPending fun c bus h => hI.acknowledge value h
  · rw [if_neg hc]
    exact .ofBus fun p => hI.write8 p value hc

theorem read8_upholds (addr : UInt32) : Upholds config I (CpuM.read8 addr : CpuM β UInt8) :=
  .bind (.ofCpu fun _ => rfl) fun _ => load8_upholds hI addr

theorem write8_upholds (addr : UInt32) (value : UInt8) : Upholds config I (CpuM.write8 addr value : CpuM β Unit) :=
  .bind (.ofCpu fun _ => rfl) fun _ => store8_upholds hI addr value

theorem read16_upholds (addr : UInt32) : Upholds config I (CpuM.read16 addr : CpuM β UInt16) := by
  refine .bind (.ofCpu fun _ => rfl) fun _ => .bind (.ofCpu fun _ => rfl) fun _ => .reading ?_
  cases hc : coversStatus config addr 2 with
  | true => exact (load8_upholds hI addr).bind fun hi => (load8_upholds hI (addr + 1)).bind fun lo => .pure _
  | false => exact .widening 16 (.ofBus fun p => hI.read16 p hc)

theorem write16_upholds (addr : UInt32) (value : UInt16) : Upholds config I (CpuM.write16 addr value : CpuM β Unit) := by
  refine .bind (.ofCpu fun _ => rfl) fun _ => .bind (.ofCpu fun _ => rfl) fun _ => .widening 16 (.reading ?_)
  cases hc : coversStatus config addr 2 with
  | true => exact (store8_upholds hI addr _).bind fun _ => store8_upholds hI (addr + 1) _
  | false => exact .ofBus fun p => hI.write16 p value hc

theorem read32_upholds (addr : UInt32) : Upholds config I (read32 addr : CpuM β UInt32) :=
  .widening 32 <| (read16_upholds hI addr).bind fun _ => (read16_upholds hI (addr + 2)).bind fun _ => .pure _

theorem access_upholds (a : CoreAccess) : Upholds config I (access a : CpuM β Unit) := by
  cases a with
  | readByte addr => exact (read8_upholds hI addr).map _
  | readWord addr => exact (read16_upholds hI addr).map _
  | writeByte addr value => exact write8_upholds hI addr value
  | writeWord addr value => exact write16_upholds hI addr value

/-! ### Traces -/

theorem reaches (h : I s.cpu.pending s.bus) (hr : Reaches config s log t) : I t.cpu.pending t.bus := by
  induction hr with
  | refl => exact h
  | access a _ ha ih => exact (access_upholds hI a).leads ih (.inl ⟨(), ha⟩)
  | registers r _ _ ih => exact ih

theorem stops {e : Fault} (h : I s.cpu.pending s.bus) (hs : Stops config s e u) : I u.cpu.pending u.bus := by
  obtain ⟨log, t, a, e', width, hr, ha, -⟩ := hs
  have ht := reaches hI h hr
  exact (access_upholds hI a).leads ht (.inr ⟨e', ha⟩)

theorem traced_upholds {m : CpuM β α} (hm : Traced m) : Upholds config I m where
  leads h hu := by
    rcases hu with ⟨a, hu⟩ | ⟨e, hu⟩
    · obtain ⟨log, hr⟩ := hm.ok hu
      exact reaches hI h hr
    · exact stops hI h (hm.error hu)

theorem perform_upholds (op : Operation) : Upholds config I (perform op : CpuM β Unit) where
  leads h hu := by
    rcases hu with ⟨a, hu⟩ | ⟨e, hu⟩
    · obtain ⟨log, v, l, hr, -, rfl⟩ := perform_ok hu
      have hv := reaches hI h hr
      -- no landing touches the pending interrupts
      cases l <;> exact hv
    · exact stops hI h (perform_error hu)

/-! ### Steps -/

theorem run_upholds {start : UInt32} (d : Decoding α) (consumed : List UInt8) :
    Upholds config I (d.run CpuM.read8 start consumed : CpuM β (α × List UInt8)) := by
  induction d generalizing consumed with
  | done a => exact .pure _
  | illegal => exact ⟨fun h hu => by rcases hu with ⟨a, ⟨⟩⟩ | ⟨e, ⟨⟩⟩; exact h⟩
  | byte next ih => exact (read8_upholds hI _).bind fun b => ih b _

theorem executeNext_upholds : Upholds config I (executeNext : CpuM β Unit) := by
  have decoded : ∀ pc, Upholds config I (Instruction.decode CpuM.read8 pc : CpuM β Instruction) :=
    fun pc => (run_upholds hI _ _).bind fun _ => .pure _
  have executed : ∀ i, Upholds config I (execute i : CpuM β Unit) :=
    fun i => .bind (.ofCpu fun _ => rfl) fun _ => (perform_upholds hI i.op).bind fun _ => .ofCpu fun _ => rfl
  exact .bind (.of_keeps .getRegs) fun regs => .retreatingTo _ <|
    (decoded _).bind fun i => (traceInstruction_upholds i).bind fun _ => executed i

theorem enterInterrupt_upholds {n : UInt8} (herase : ∀ {p bus}, I p bus → I (p.erase n) bus) :
    Upholds config I (enterInterrupt n : CpuM β Unit) := by
  have pushed : Traced (pushFrame : CpuM β Unit) := Traced.getRegs.bind fun _ => .push32 _
  refine (traced_upholds hI .userEnable).bind fun _ => .bind (.ofPending fun c bus h => herase h) fun _ => ?_
  refine (traced_upholds hI pushed).bind fun _ => .bind (.ofCpu fun _ => rfl) fun _ => ?_
  refine (traced_upholds hI (.maskInterrupts _)).bind fun _ => .reading ?_
  have jumped : ∀ addr, Upholds config I (jumpThrough addr : CpuM β Unit) :=
    fun addr => (read32_upholds hI _).bind fun _ => .ofCpu fun _ => rfl
  exact (jumped _).bind fun _ => .ofCpu fun _ => rfl

/-- A request reads the enable register at most, and adds to what is pending. -/
theorem raise_upholds {n : UInt8} (hinsert : ∀ {p bus}, I p bus → I (p.insert n) bus) :
    Upholds config I (raise n : CpuM β Unit) := by
  have enabled : Upholds config I (isEnabled n : CpuM β Bool) := by
    refine .reading ?_
    cases config.ierAddress with
    | none => exact .pure _
    | some addr =>
      dsimp only
      split
      · exact (read8_upholds hI addr).bind fun _ => .pure _
      · exact .pure _
  unfold raise
  split
  · refine enabled.bind fun admitted => ?_
    cases admitted with
    | true =>
      rw [if_pos rfl]
      exact .ofPending fun c bus h => hinsert h
    | false => exact .pure _
  · exact .pure _

/-- An invariant is kept by every step, if it is kept when the interrupt that is due is taken. -/
theorem step_upholds (herase : ∀ n, s.cpu.dueInterrupt? = some n → ∀ {p bus}, I p bus → I (p.erase n) bus)
    (h : I s.cpu.pending s.bus) (hu : Leads config step s u) : I u.cpu.pending u.bus := by
  have hadvance : Leads config advance s u := by
    rcases hu with ⟨c, hu⟩ | ⟨e, hu⟩
    · exact .inl ⟨(), (step_ok.1 hu).1⟩
    · exact .inr ⟨e, step_error.1 hu⟩
  unfold Leads at hadvance
  cases hdue : s.cpu.dueInterrupt? with
  | some n =>
    rw [advance_of_due hdue] at hadvance
    exact (enterInterrupt_upholds hI (herase n hdue)).leads h hadvance
  | none =>
    by_cases hs : s.cpu.sleeping = true
    · rw [advance_of_asleep hdue hs] at hadvance
      rcases hadvance with ⟨_, ⟨⟩⟩ | ⟨_, ⟨⟩⟩
      exact h
    · rw [advance_of_awake hdue (by simpa using hs)] at hadvance
      exact (executeNext_upholds hI).leads h hadvance

end Invariant

end CpuM

end H8S
