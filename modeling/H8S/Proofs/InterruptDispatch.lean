import H8S.Proofs.InterruptSets
import H8S.Proofs.Steps

/-!
# Dispatch of interrupts

An interrupt is entered exactly by a step that finds it due: not masked, waiting, and first of those that wait
(`Enters`). Every other event changes whether an interrupt waits only in the ways that are meant for it: a request
that is let through sets it, and clearing, a boot, or a zero written to its bit of the status register takes it back
(`lawful_of_happened`).

Over a run this gives a ledger for each interrupt: what waited at the start and what was set since is what was
entered, what was taken back, and what still waits (`Runs.ledger`).  So no request is lost and none is served twice.
Left aside are entries whose frame would be written over the status register.
-/

namespace H8S

/-- What can happen to a core from outside. -/
inductive CoreEvent where
  | raise (n : UInt8)
  | step
  | clearPending
  | boot
  deriving DecidableEq

namespace Cpu

variable {c : Cpu} {n : UInt8}

/-- An interrupt that is due is not masked, and is the first that waits. -/
theorem dueInterrupt?_eq_some :
    c.dueInterrupt? = some n ↔
      c.regs.ccr.i = false ∧ n < 64 ∧ c.pending.contains n = true ∧ ∀ m, m < n → c.pending.contains m = false := by
  unfold dueInterrupt?
  cases hi : c.regs.ccr.i with
  | true => simp
  | false => simp [InterruptSet.lowest?_eq_some]

theorem exists_dueInterrupt (hi : c.regs.ccr.i = false) (hp : c.pending ≠ {}) : ∃ n, c.dueInterrupt? = some n := by
  obtain ⟨n, hn⟩ := InterruptSet.lowest?_isSome hp
  refine ⟨n, ?_⟩
  unfold dueInterrupt?
  rw [hi]
  exact hn

theorem dueInterrupt?_eq_none (h : c.regs.ccr.i = true ∨ c.pending = {}) : c.dueInterrupt? = none := by
  unfold dueInterrupt?
  rcases h with hi | hp
  · rw [hi]
    rfl
  · rw [hp]
    split <;> rfl

end Cpu

namespace CpuM

variable {β : Type} [Bus β]

/-- The action of an event; the cycles that a step took are dropped. -/
def happen : CoreEvent → CpuM β Unit
  | .raise n => raise n
  | .step => (fun _ => ()) <$> step
  | .clearPending => clearPending
  | .boot => boot

variable {config : Config} {s t u : System β} {n m : UInt8}

/-! ### Steps -/

/-- The frame that an entry would push lies beside the status register. -/
def FrameAside (config : Config) (s : System β) : Prop :=
  coversStatus config (Address.trunc (s.cpu.regs.sp - 4)) 4 = false

/-- The step is the entry of the interrupt `n`, and nothing else happens in it. -/
structure Enters (config : Config) (n : UInt8) (s u : System β) : Prop where
  unmasked : s.cpu.regs.ccr.i = false
  first : n < 64 ∧ s.cpu.pending.contains n = true ∧ ∀ m, m < n → s.cpu.pending.contains m = false
  pending : ∀ m, m < 64 → u.cpu.pending.contains m = (s.cpu.pending.contains m && m != n)
  awake : u.cpu.sleeping = false
  depth : u.cpu.depth = min (s.cpu.depth + 1) 2147483647
  trace : u.trace = s.trace
  /-- The accesses are a read of the system control register, the frame and the vector, and the registers follow from
them. -/
  accesses : ∃ syscr target s₁ s₂ s₃, read8 config.syscrAddress config s = .ok syscr s₁ ∧
    write32 (Address.trunc (s.cpu.regs.sp - 4)) (Cpu.frame s.cpu.regs) config
      { s₁ with cpu := s₁.cpu.taking n } = .ok () s₂ ∧
    read32 (Address.trunc (config.vectorBase + 4 * n.toUInt32)) config
      { s₂ with cpu := s₂.cpu.shielded syscr } = .ok target s₃ ∧
    u.bus = s₃.bus ∧
    u.cpu.regs =
      { s.cpu.regs.setSp (s.cpu.regs.sp - 4) with
        pc := Address.even target
        ccr := { s.cpu.regs.ccr with i := true, u := s.cpu.regs.ccr.u || syscr &&& 0x08 == 0 } }

/-- The step is spent asleep. -/
def Idles (s u : System β) : Prop := s.cpu.sleeping = true ∧ u = s.spent idleCycles

private theorem enters_of_enterInterrupt (hdue : s.cpu.dueInterrupt? = some n) (hf : FrameAside config s)
    (h : enterInterrupt n config s = .ok () u) : Enters config n s u := by
  obtain ⟨hi, hfirst⟩ := Cpu.dueInterrupt?_eq_some.1 hdue
  obtain ⟨syscr, target, s₁, s₂, s₃, h₁, h₂, h₃, rfl⟩ := enterInterrupt_ok h
  have hcore := entry_core h₁ h₂ h₃
  simp only [coreView, Prod.mk.injEq] at hcore
  obtain ⟨hregs, hawake, hdepth, htrace⟩ := hcore
  have hframe : (Address.trunc (s.cpu.regs.sp - 4)).toNat + 4 ≤ 2 ^ 32 := by
    have h := Address.trunc_lt (s.cpu.regs.sp - 4)
    unfold Address.spaceSize at h
    omega
  have hp : s₃.cpu.pending = s.cpu.pending.erase n := by
    have p₁ : s₁.cpu.pending = s.cpu.pending := congrArg Prod.snd ((read8_keeps _).ok h₁)
    have p₂ : s₂.cpu.pending = s₁.cpu.pending.erase n := write32_pending h₂ hf hframe
    have p₃ : s₃.cpu.pending = s₂.cpu.pending := congrArg Prod.snd ((read32_keeps _).ok h₃)
    rw [p₃, p₂, p₁]
  refine ⟨hi, hfirst, ?pending, hawake, ?depth, htrace, syscr, target, s₁, s₂, s₃, h₁, h₂, h₃, rfl, ?regs⟩
  case pending =>
    intro m hm
    show s₃.cpu.pending.contains m = _
    rw [hp]
    exact InterruptSet.contains_erase hm hfirst.1
  case depth =>
    show min (s₃.cpu.depth + 1) 2147483647 = _
    rw [hdepth]
  case regs =>
    show { s₃.cpu.regs with pc := Address.even target } = _
    simp only [hregs, Cpu.masked, bne, Bool.not_not]

/-! ### Requests -/

/-- A request for `n` is let through: the enable register, if there is one and the interrupt is gated, has its bit
set. -/
def Admits (config : Config) (n : UInt8) (s : System β) : Prop :=
  n < 64 ∧ ∀ addr, config.ierAddress = some addr → InterruptSet.isGated n = true →
    ∃ value t, read8 addr config s = .ok value t ∧ InterruptSet.enables value n = true

private theorem isEnabled_ok {b : Bool} (hn : n < 64) (h : isEnabled n config s = .ok b t) :
    (b = true ↔ Admits config n s) ∧ t.cpu.pending = s.cpu.pending := by
  unfold isEnabled at h
  rw [bind_of_ok run_read] at h
  unfold Admits
  cases hc : config.ierAddress with
  | none =>
    rw [hc] at h
    cases h
    simp [hn]
  | some addr =>
    rw [hc] at h
    by_cases hg : InterruptSet.isGated n = true
    · simp only [if_pos hg] at h
      obtain ⟨value, v, hr, h⟩ := bind_ok.1 h
      cases h
      refine ⟨⟨fun hb => ⟨hn, ?_⟩, ?_⟩, congrArg Prod.snd ((read8_keeps addr).ok hr)⟩
      · rintro _ ⟨⟩ -
        exact ⟨value, _, hr, hb⟩
      · rintro ⟨-, hv⟩
        obtain ⟨value', v', hr', hb⟩ := hv addr rfl hg
        rw [hr] at hr'
        cases hr'
        exact hb
    · simp only [if_neg hg] at h
      cases h
      simp [hn, hg]

/-- A request that ends is let through and sets its interrupt, or it is dropped. -/
private theorem raise_ok (h : raise n config s = .ok () t) :
    (Admits config n s ∧ t.cpu.pending = s.cpu.pending.insert n) ∨
    (¬Admits config n s ∧ t.cpu.pending = s.cpu.pending) := by
  unfold raise at h
  by_cases hn : n < 64
  · rw [if_pos hn] at h
    obtain ⟨b, v, hb, h⟩ := bind_ok.1 h
    obtain ⟨ha, hp⟩ := isEnabled_ok hn hb
    cases b with
    | true =>
      cases h
      refine .inl ⟨ha.1 rfl, ?_⟩
      show v.cpu.pending.insert n = _
      rw [hp]
    | false =>
      cases h
      exact .inr ⟨fun k => by simpa using ha.2 k, hp⟩
  · rw [if_neg hn] at h
    cases h
    exact .inr ⟨fun k => hn k.1, rfl⟩

private theorem boot_pending (h : boot config s = .ok () t) : t.cpu.pending = {} := by
  unfold boot at h
  rw [bind_of_ok (run_modifyCpu _), bind_of_ok run_read] at h
  obtain ⟨target, u, hr, h⟩ := bind_ok.1 h
  cases h
  exact congrArg Prod.snd ((read32_keeps _).ok hr)

/-! ### Events -/

/-- An event that ended, with the systems before and after it. -/
structure Transition (β : Type) where
  before : System β
  event : CoreEvent
  after : System β

namespace Transition

/-- Whether an interrupt waits after the event but not before. -/
def sets (n : UInt8) (x : Transition β) : Bool := !x.before.cpu.pending.contains n && x.after.cpu.pending.contains n

/-- Whether the event is the entry of an interrupt. -/
def enters (n : UInt8) (x : Transition β) : Bool := x.event == .step && x.before.cpu.dueInterrupt? == some n

/-- Whether an interrupt no longer waits after the event, without having been entered. -/
def withdraws (n : UInt8) (x : Transition β) : Bool :=
  !x.enters n && x.before.cpu.pending.contains n && !x.after.cpu.pending.contains n

/-- The event happened with success, and no frame was pushed over the status register to enter an interrupt. -/
def Happened (config : Config) (x : Transition β) : Prop :=
  happen x.event config x.before = .ok () x.after ∧
    (x.event = .step → x.before.cpu.dueInterrupt? ≠ none → FrameAside config x.before)

end Transition

/-- An instruction has written a zero to the bit of a gated interrupt in the status register. -/
def Acknowledges (config : Config) (n : UInt8) (s u : System β) : Prop :=
  InterruptSet.isGated n = true ∧ ∃ i log l value, Executes config s i log l u ∧
    value ∈ log.flatMap (statusWrites config) ∧ InterruptSet.enables value n = false

theorem contains_foldl_acknowledge (values : List UInt8) (p : InterruptSet) (hm : m < 64) :
    (values.foldl InterruptSet.acknowledge p).contains m =
      (p.contains m && (!InterruptSet.isGated m || values.all fun v => InterruptSet.enables v m)) := by
  induction values generalizing p with
  | nil => simp
  | cons v vs ih =>
    rw [List.foldl_cons, ih, InterruptSet.contains_acknowledge v hm, List.all_cons]
    cases p.contains m <;> cases InterruptSet.isGated m <;> simp

/-- What became of a waiting interrupt under an instruction. -/
private theorem executes_pending {i : Instruction} {log : List CoreAccess} {l : Landing} (h : Executes config s i log l u)
    (hm : m < 64) :
    (u.cpu.pending.contains m = true → s.cpu.pending.contains m = true) ∧
    (s.cpu.pending.contains m = true → u.cpu.pending.contains m = false → Acknowledges config m s u) := by
  have hp := contains_foldl_acknowledge (log.flatMap (statusWrites config)) s.cpu.pending hm
  rw [← h.pending] at hp
  rw [hp]
  refine ⟨fun hu => (Bool.and_eq_true _ _ ▸ hu).1, ?_⟩
  intro hs hu
  rw [hs, Bool.true_and, Bool.or_eq_false_iff, Bool.not_eq_false'] at hu
  obtain ⟨hg, hall⟩ := hu
  obtain ⟨v, hv, hz⟩ := List.all_eq_false.1 hall
  exact ⟨hg, i, log, l, v, h, hv, by simpa using hz⟩

/-- An event changes whether an interrupt waits only in the ways that are meant for it. -/
structure Lawful (config : Config) (n : UInt8) (x : Transition β) : Prop where
  sets : x.sets n = true → x.event = .raise n ∧ Admits config n x.before
  enters : x.enters n = true → Enters config n x.before x.after
  withdraws : x.withdraws n = true →
    x.event = .clearPending ∨ x.event = .boot ∨ x.event = .step ∧ Acknowledges config n x.before x.after
  accepts : x.event = .raise n → Admits config n x.before → x.after.cpu.pending.contains n = true

private theorem raise_lawful (h : raise n config s = .ok () u) (hm : m < 64) : Lawful config m ⟨s, .raise n, u⟩ := by
  rcases raise_ok h with ⟨ha, hp⟩ | ⟨ha, hp⟩
  · have hc : u.cpu.pending.contains m = (s.cpu.pending.contains m || m == n) := by
      rw [hp, InterruptSet.contains_insert hm ha.1]
    refine ⟨?_, by simp [Transition.enters], ?_, ?_⟩
    · simp only [Transition.sets, hc]
      cases s.cpu.pending.contains m with
      | true => simp
      | false =>
        intro hmn
        have hmn : m = n := by simpa using hmn
        rw [hmn]
        exact ⟨rfl, ha⟩
    · simp only [Transition.withdraws, hc]
      cases s.cpu.pending.contains m <;> simp
    · rintro ⟨⟩ -
      show u.cpu.pending.contains n = true
      simp [hc]
  · refine ⟨?_, by simp [Transition.enters], ?_, ?_⟩
    · simp [Transition.sets, hp]
    · simp only [Transition.withdraws, hp]
      cases s.cpu.pending.contains m <;> simp
    · rintro ⟨⟩ ha'
      exact (ha ha').elim

theorem happen_step (h : happen .step config s = .ok () u) : ∃ c, step config s = .ok c u := by
  change ((fun _ => ()) <$> step) config s = .ok () u at h
  rw [run_map] at h
  cases hc : step config s with
  | ok c v =>
    rw [hc] at h
    cases h
    exact ⟨c, rfl⟩
  | error e v =>
    rw [hc] at h
    cases h

private theorem step_lawful (h : happen .step config s = .ok () u) (hm : m < 64)
    (haside : s.cpu.dueInterrupt? ≠ none → FrameAside config s) : Lawful config m ⟨s, .step, u⟩ := by
  obtain ⟨c, hc⟩ := happen_step h
  rcases step_cases hc with ⟨n, hdue, he⟩ | ⟨hdue, -, hu⟩ | ⟨i, hcarry⟩
  · have hent := enters_of_enterInterrupt hdue (haside (by simp [hdue])) he
    have hp := hent.pending m hm
    refine ⟨?_, ?_, ?_, by simp⟩
    · simp only [Transition.sets, hp]
      cases s.cpu.pending.contains m <;> simp
    · simp only [Transition.enters, hdue]
      intro hn
      obtain rfl : n = m := by simpa using hn
      exact hent
    · simp only [Transition.withdraws, Transition.enters, hp, hdue]
      by_cases hmn : m = n
      · simp [hmn]
      · cases s.cpu.pending.contains m <;> simp [hmn]
  · have hp : u.cpu.pending = s.cpu.pending := by rw [hu]; rfl
    refine ⟨?_, by simp [Transition.enters, hdue], ?_, by simp⟩
    · simp [Transition.sets, hp]
    · simp only [Transition.withdraws, hp]
      cases s.cpu.pending.contains m <;> simp
  · obtain ⟨log, l, hex⟩ := hcarry.executes
    obtain ⟨hgain, hloss⟩ := executes_pending hex hm
    have hdue := hcarry.undisturbed
    refine ⟨?_, by simp [Transition.enters, hdue], ?_, by simp⟩
    · simp only [Transition.sets, Bool.and_eq_true, Bool.not_eq_true']
      rintro ⟨hs, hu⟩
      rw [hgain hu] at hs
      cases hs
    · intro hw
      simp only [Transition.withdraws, Bool.and_eq_true, Bool.not_eq_true'] at hw
      exact .inr (.inr ⟨rfl, hloss hw.1.2 hw.2⟩)

theorem lawful_of_happened {x : Transition β} (hx : x.Happened config) (hm : m < 64) : Lawful config m x := by
  obtain ⟨s, event, u⟩ := x
  obtain ⟨h, haside⟩ := hx
  cases event with
  | raise n => exact raise_lawful h hm
  | step => exact step_lawful h hm (haside rfl)
  | clearPending =>
    have hu : u.cpu.pending = {} := by
      change (clearPending : CpuM β Unit) config s = .ok () u at h
      cases h
      rfl
    refine ⟨?_, by simp [Transition.enters], fun _ => .inl rfl, by simp⟩
    simp [Transition.sets, hu]
  | boot =>
    have hu : u.cpu.pending = {} := boot_pending h
    refine ⟨?_, by simp [Transition.enters], fun _ => .inr (.inl rfl), by simp⟩
    simp [Transition.sets, hu]

/-! ### Runs -/

/-- A run of events, with its history. -/
inductive Runs (config : Config) (s : System β) : List (Transition β) → System β → Prop where
  | nil : Runs config s [] s
  | snoc {history : List (Transition β)} {t u : System β} (event : CoreEvent) : Runs config s history t →
      Transition.Happened config ⟨t, event, u⟩ → Runs config s (history ++ [⟨t, event, u⟩]) u

/-- One event keeps the books of an interrupt. -/
private theorem event_ledger {x : Transition β} (hx : x.Happened config) (hn : n < 64) :
    (x.before.cpu.pending.contains n).toNat + (x.sets n).toNat =
      (x.enters n).toNat + (x.withdraws n).toNat + (x.after.cpu.pending.contains n).toNat := by
  cases he : x.enters n with
  | true =>
    have h := (lawful_of_happened hx hn).enters he
    have ha : x.after.cpu.pending.contains n = false := by simp [h.pending n hn]
    simp [Transition.sets, Transition.withdraws, he, ha, h.first.2.1]
  | false =>
    simp only [Transition.sets, Transition.withdraws, he]
    cases x.before.cpu.pending.contains n <;> cases x.after.cpu.pending.contains n <;> rfl

/-- What waited at the start of a run and what was set in it is what was entered, what was withdrawn and what still
waits. -/
theorem Runs.ledger {history : List (Transition β)} (h : Runs config s history t) (hn : n < 64) :
    (s.cpu.pending.contains n).toNat + history.countP (·.sets n) =
      history.countP (·.enters n) + history.countP (·.withdraws n) + (t.cpu.pending.contains n).toNat := by
  induction h with
  | nil => simp
  | @snoc history t u event _ hx ih =>
    -- the books of the run and of its last event add up
    have he := event_ledger hx hn
    have single : ∀ p : Transition β → Bool,
        [(⟨t, event, u⟩ : Transition β)].countP p = (p ⟨t, event, u⟩).toNat := by
      intro p
      cases hp : p ⟨t, event, u⟩ <;> simp [hp]
    simp only [List.countP_append, single]
    simp only at he
    omega

theorem Runs.happened {history : List (Transition β)} (h : Runs config s history t) :
    ∀ x ∈ history, x.Happened config := by
  induction h with
  | nil => simp
  | snoc event _ hx ih =>
    intro x hmem
    rcases List.mem_append.1 hmem with hmem | hmem
    · exact ih x hmem
    · rw [List.mem_singleton.1 hmem]
      exact hx

/-- Interrupts are dispatched in the order of their numbers, never while masked, and neither lost nor doubled.  A step
of a masked core, or of one for which nothing waits, is an idle period or one instruction; every other step enters the
first interrupt that waits.  Besides entries, an interrupt is set to wait only by a request that is let through, which
always does so, and it is taken back only by clearing, a boot, or a zero written to its bit of the status register.
Over a run, what waited and what was set is what was entered, what was taken back and what still waits. -/
theorem interrupts_dispatched (config : Config) :
    (∀ (s u : System β) c, step config s = .ok c u → (s.cpu.regs.ccr.i = true ∨ s.cpu.pending = {}) →
      Idles s u ∨ ∃ i log l, Executes config s i log l u) ∧
    (∀ (s u : System β) c, step config s = .ok c u → s.cpu.regs.ccr.i = false → s.cpu.pending ≠ {} →
      FrameAside config s → ∃ n, Enters config n s u) ∧
    (∀ x : Transition β, x.Happened config → ∀ n, n < 64 → Lawful config n x) ∧
    (∀ (s t : System β) history, Runs config s history t → (∀ x ∈ history, x.Happened config) ∧ ∀ n, n < 64 →
      (s.cpu.pending.contains n).toNat + history.countP (·.sets n) =
        history.countP (·.enters n) + history.countP (·.withdraws n) + (t.cpu.pending.contains n).toNat) := by
  refine ⟨?_, ?_, fun x hx n hn => lawful_of_happened hx hn,
    fun s t history h => ⟨h.happened, fun n hn => h.ledger hn⟩⟩
  · intro s u c h hquiet
    rcases step_cases h with ⟨n, hdue, -⟩ | ⟨-, hidle⟩ | ⟨i, hcarry⟩
    · rw [Cpu.dueInterrupt?_eq_none hquiet] at hdue
      cases hdue
    · exact .inl hidle
    · exact .inr ⟨i, hcarry.executes⟩
  · intro s u c h hi hp haside
    obtain ⟨n, hn⟩ := Cpu.exists_dueInterrupt hi hp
    rcases step_cases h with ⟨k, hdue, he⟩ | ⟨hdue, -⟩ | ⟨i, hcarry⟩
    · exact ⟨k, enters_of_enterInterrupt hdue haside he⟩
    · rw [hn] at hdue
      cases hdue
    · have hdue := hcarry.undisturbed
      rw [hn] at hdue
      cases hdue

/-- Of the interrupts 2, 5 and 9 one is entered. -/
theorem interrupts_dispatched_on_tied :
    ∃ c u n, step {} ({ cpu := { pending := ⟨0x224⟩ }, bus := ⟨0⟩ } : System Tied) = .ok c u ∧
      Enters {} n { cpu := { pending := ⟨0x224⟩ }, bus := ⟨0⟩ } u := by
  have h : ∃ c u, step {} ({ cpu := { pending := ⟨0x224⟩ }, bus := ⟨0⟩ } : System Tied) = .ok c u := ⟨_, _, rfl⟩
  obtain ⟨c, u, h⟩ := h
  obtain ⟨n, hn⟩ := (interrupts_dispatched {}).2.1 _ u c h rfl (by decide) rfl
  exact ⟨c, u, n, h, hn⟩

end CpuM

end H8S
