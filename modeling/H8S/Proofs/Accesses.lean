import H8S.Proofs.Actions
import H8S.Proofs.RegisterFrames
import Mathlib.Algebra.Group.Nat.Defs

/-!
# The accesses of an action

The core works on its bus, its access timer and its pending interrupts only through accesses to memory: bytes and
words, read or written, each charged and carried out as `CpuM` defines it.  `Reaches config s log t` says that the
accesses of `log`, made in order and all with success, lead from `s` to `t`, while between them only the eight
registers and the control registers may change.  An action is `Traced` if every run of it is of this kind and its
faults are those of one more access.

Traces compose (`Traced.bind`), so that each action needs only its own parts looked at.  What every access leaves alone
(the program counter, the call depth, sleep, the trace lines) is then left alone by every traced action.
-/

namespace H8S

/-- An access of the core to memory, in one piece. -/
inductive CoreAccess where
  | readByte (addr : UInt32)
  | readWord (addr : UInt32)
  | writeByte (addr : UInt32) (value : UInt8)
  | writeWord (addr : UInt32) (value : UInt16)
  deriving DecidableEq

namespace Fault

theorem widen_zero (e : Fault) : e.widen 0 = e := by
  cases e <;> simp [widen]

theorem widen_widen (e : Fault) (a b : Nat) : (e.widen a).widen b = e.widen (max a b) := by
  cases e with
  | illegalInstruction pc bytes => rfl
  | outOfRange addr access => simp only [widen]; congr 2; omega

end Fault

namespace CpuM

/-! ### Views of a system -/

section Views

variable {β : Type} {s t : System β}

/-- What writes leave alone: the registers, sleep, the call depth and the trace lines. -/
def coreView (s : System β) : Registers × Bool × Int × Array String :=
  (s.cpu.regs, s.cpu.sleeping, s.cpu.depth, s.trace)

/-- What reads leave alone: the pending interrupts, too. -/
def readView (s : System β) : (Registers × Bool × Int × Array String) × InterruptSet :=
  (coreView s, s.cpu.pending)

/-- What traces leave alone. -/
def controlView (s : System β) : UInt32 × Bool × Int × Array String :=
  (s.cpu.regs.pc, s.cpu.sleeping, s.cpu.depth, s.trace)

private theorem core_of_read {s t : System β} (h : readView t = readView s) : coreView t = coreView s :=
  congrArg Prod.fst h

private theorem control_of_core {s t : System β} (h : coreView t = coreView s) : controlView t = controlView s := by
  simp only [coreView, Prod.mk.injEq] at h
  simp only [controlView, h]

end Views

variable {β α γ : Type} [Bus β] {config : Config} {s t u : System β} {log log' : List CoreAccess} {e : Fault}

/-- The action of an access, without the value it reads. -/
def access : CoreAccess → CpuM β Unit
  | .readByte addr => (fun _ => ()) <$> read8 addr
  | .readWord addr => (fun _ => ()) <$> read16 addr
  | .writeByte addr value => write8 addr value
  | .writeWord addr value => write16 addr value

/-- The accesses of a log lead from one system to another; only data registers change besides. -/
inductive Reaches (config : Config) (s : System β) : List CoreAccess → System β → Prop where
  | refl : Reaches config s [] s
  | access {log : List CoreAccess} {t u : System β} (a : CoreAccess) :
      Reaches config s log t → access a config t = .ok () u → Reaches config s (log ++ [a]) u
  | registers {log : List CoreAccess} {t : System β} (r : Registers) :
      Reaches config s log t → r.pc = t.cpu.regs.pc →
      Reaches config s log { t with cpu := { t.cpu with regs := r } }

/-- After some accesses a last one fails; its fault may be reported as that of a wider access. -/
def Stops (config : Config) (s : System β) (e : Fault) (u : System β) : Prop :=
  ∃ log t a e' width, Reaches config s log t ∧ access a config t = .error e' u ∧ e = e'.widen width

/-- Every run of the action is a trace of accesses. -/
structure Traced (m : CpuM β α) : Prop where
  ok : ∀ {config s a t}, m config s = .ok a t → ∃ log, Reaches config s log t
  error : ∀ {config s e t}, m config s = .error e t → Stops config s e t

theorem Reaches.trans (h : Reaches config s log t) (k : Reaches config t log' u) :
    Reaches config s (log ++ log') u := by
  induction k with
  | refl => rw [List.append_nil]; exact h
  | access a _ ha ih => rw [← List.append_assoc]; exact .access a ih ha
  | registers r _ hr ih => exact .registers r ih hr

theorem Stops.of_reaches (h : Reaches config s log t) (k : Stops config t e u) : Stops config s e u := by
  obtain ⟨log', v, a, e', width, hv, ha, he⟩ := k
  exact ⟨log ++ log', v, a, e', width, h.trans hv, ha, he⟩

/-! ### Composition -/

namespace Traced

theorem pure (a : α) : Traced (pure a : CpuM β α) where
  ok := by rintro _ _ _ _ ⟨⟩; exact ⟨[], .refl⟩
  error := by rintro _ _ _ _ ⟨⟩

theorem bind {m : CpuM β α} {f : α → CpuM β γ} (hm : Traced m) (hf : ∀ a, Traced (f a)) : Traced (m >>= f) where
  ok := by
    intro config s c u h
    obtain ⟨a, t, h₁, h₂⟩ := bind_ok.1 h
    obtain ⟨log, k₁⟩ := hm.ok h₁
    obtain ⟨log', k₂⟩ := (hf a).ok h₂
    exact ⟨log ++ log', k₁.trans k₂⟩
  error := by
    intro config s e u h
    rcases bind_error.1 h with h | ⟨a, t, h₁, h₂⟩
    · exact hm.error h
    · obtain ⟨log, k₁⟩ := hm.ok h₁
      exact ((hf a).error h₂).of_reaches k₁

theorem map {m : CpuM β α} (f : α → γ) (hm : Traced m) : Traced (f <$> m) := by
  have e : f <$> m = (m >>= fun a => Pure.pure (f a)) := (bind_pure_comp f m).symm
  rw [e]
  exact hm.bind fun a => .pure (f a)

theorem getRegs : Traced (getRegs : CpuM β Registers) where
  ok := by rintro _ _ _ _ ⟨⟩; exact ⟨[], .refl⟩
  error := by rintro _ _ _ _ ⟨⟩

theorem readConfig : Traced (read : CpuM β Config) where
  ok := by rintro _ _ _ _ ⟨⟩; exact ⟨[], .refl⟩
  error := by rintro _ _ _ _ ⟨⟩

theorem modifyRegs {f : Registers → Registers} (hf : ∀ r, (f r).pc = r.pc) :
    Traced (modifyRegs f : CpuM β Unit) where
  ok := by
    rintro config s _ _ ⟨⟩
    exact ⟨[], .registers _ .refl (hf s.cpu.regs)⟩
  error := by rintro _ _ _ _ ⟨⟩

theorem widening {m : CpuM β α} (width : Nat) (hm : Traced m) : Traced (widening width m) where
  ok := by
    intro config s a t h
    exact hm.ok (widening_ok.1 h)
  error := by
    intro config s e t h
    obtain ⟨e', h', rfl⟩ := widening_error.1 h
    obtain ⟨log, v, a, e'', w, hv, ha, rfl⟩ := hm.error h'
    exact ⟨log, v, a, e'', max w width, hv, ha, e''.widen_widen w width⟩

/-! ### Accesses -/

private theorem one (a : CoreAccess) : Traced (CpuM.access a : CpuM β Unit) where
  ok := by
    intro config s _ t h
    exact ⟨_, .access a .refl h⟩
  error := by
    intro config s e t h
    exact ⟨[], s, a, e, 0, .refl, h, e.widen_zero.symm⟩

private theorem of_map {m : CpuM β α} (h : Traced ((fun _ => ()) <$> m)) : Traced m where
  ok := by
    intro config s a t hm
    have k : ((fun _ => ()) <$> m) config s = .ok () t := by rw [run_map, hm]
    exact h.ok k
  error := by
    intro config s e t hm
    have k : ((fun _ => ()) <$> m) config s = .error e t := by rw [run_map, hm]
    exact h.error k

theorem read8 (addr : UInt32) : Traced (read8 addr : CpuM β UInt8) := of_map (one (.readByte addr))

theorem read16 (addr : UInt32) : Traced (read16 addr : CpuM β UInt16) := of_map (one (.readWord addr))

theorem write8 (addr : UInt32) (value : UInt8) : Traced (write8 addr value : CpuM β Unit) :=
  one (.writeByte addr value)

theorem write16 (addr : UInt32) (value : UInt16) : Traced (write16 addr value : CpuM β Unit) :=
  one (.writeWord addr value)

theorem read32 (addr : UInt32) : Traced (read32 addr : CpuM β UInt32) :=
  widening 32 <| (read16 addr).bind fun _ => (read16 (addr + 2)).bind fun _ => .pure _

theorem write32 (addr value : UInt32) : Traced (write32 addr value : CpuM β Unit) :=
  widening 32 <| (write16 addr _).bind fun _ => write16 (addr + 2) _

theorem readSized (width : Width) (addr : UInt32) : Traced (readSized width addr : CpuM β UInt32) := by
  cases width with
  | byte => exact (read8 addr).bind fun _ => .pure _
  | word => exact (read16 addr).bind fun _ => .pure _
  | long => exact read32 addr

theorem writeSized (width : Width) (addr value : UInt32) : Traced (writeSized width addr value : CpuM β Unit) := by
  cases width with
  | byte => exact write8 addr _
  | word => exact write16 addr _
  | long => exact write32 addr value

end Traced

/-! ### What accesses leave alone -/

namespace Keeps

variable {δ : Type} {view : System β → δ}

/-- A load goes to the bus, if to anything. -/
theorem load8 (hbus : ∀ (s : System β) bus, view { s with bus := bus } = view s) (addr : UInt32) :
    Keeps view (load8 addr : CpuM β UInt8) := by
  refine .bind .readConfig fun config => .ite ?_ ?_
  · exact .bind .get fun s => .pure _
  · exact .onBus hbus

theorem load16 (hbus : ∀ (s : System β) bus, view { s with bus := bus } = view s) (addr : UInt32) :
    Keeps view (load16 addr : CpuM β UInt16) := by
  refine .bind .readConfig fun config => .ite ?_ ?_
  · exact (load8 hbus addr).bind fun hi => (load8 hbus (addr + 1)).bind fun lo => .pure _
  · exact .widening 16 (.onBus hbus)

/-- A store goes to the bus or to the pending interrupts. -/
theorem store8 (hbus : ∀ (s : System β) bus, view { s with bus := bus } = view s)
    (hpending : ∀ (s : System β) p, view { s with cpu := { s.cpu with pending := p } } = view s) (addr : UInt32)
    (value : UInt8) : Keeps view (store8 addr value : CpuM β Unit) := by
  refine .bind .readConfig fun config => .ite ?_ ?_
  · exact .modifyCpu fun s => hpending s _
  · exact .onBus hbus

theorem store16 (hbus : ∀ (s : System β) bus, view { s with bus := bus } = view s)
    (hpending : ∀ (s : System β) p, view { s with cpu := { s.cpu with pending := p } } = view s) (addr : UInt32)
    (value : UInt16) : Keeps view (store16 addr value : CpuM β Unit) := by
  refine .widening 16 (.bind .readConfig fun config => .ite ?_ ?_)
  · exact (store8 hbus hpending addr _).bind fun _ => store8 hbus hpending (addr + 1) _
  · exact .onBus hbus

/-- A request reads the enable register at most, and changes what is pending. -/
theorem raise (hread : ∀ addr, Keeps view (read8 addr : CpuM β UInt8))
    (hpending : ∀ (s : System β) p, view { s with cpu := { s.cpu with pending := p } } = view s) (n : UInt8) :
    Keeps view (raise n : CpuM β Unit) := by
  refine .ite (.bind ?_ fun _ => .ite (.modifyCpu fun s => hpending s _) (.pure _)) (.pure _)
  refine Keeps.readConfig.bind fun config => ?_
  cases config.ierAddress with
  | none => exact .pure _
  | some addr => exact .ite ((hread addr).bind fun _ => .pure _) (.pure _)

end Keeps

theorem read8_keeps (addr : UInt32) : Keeps readView (read8 addr : CpuM β UInt8) :=
  .bind (.modifyCpu fun _ => rfl) fun _ => .load8 (fun _ _ => rfl) addr

theorem read16_keeps (addr : UInt32) : Keeps readView (read16 addr : CpuM β UInt16) :=
  .bind (.modifyCpu fun _ => rfl) fun _ => .bind (.modifyCpu fun _ => rfl) fun _ => .load16 (fun _ _ => rfl) addr

theorem read32_keeps (addr : UInt32) : Keeps readView (read32 addr : CpuM β UInt32) :=
  .widening 32 <| (read16_keeps addr).bind fun _ => (read16_keeps (addr + 2)).bind fun _ => .pure _

theorem write8_keeps (addr : UInt32) (value : UInt8) : Keeps coreView (write8 addr value : CpuM β Unit) :=
  .bind (.modifyCpu fun _ => rfl) fun _ => .store8 (fun _ _ => rfl) (fun _ _ => rfl) addr value

theorem write16_keeps (addr : UInt32) (value : UInt16) : Keeps coreView (write16 addr value : CpuM β Unit) :=
  .bind (.modifyCpu fun _ => rfl) fun _ => .bind (.modifyCpu fun _ => rfl) fun _ =>
    .store16 (fun _ _ => rfl) (fun _ _ => rfl) addr value

theorem raise_keepsCore (n : UInt8) : Keeps coreView (raise n : CpuM β Unit) :=
  .raise (fun addr => .bind (.modifyCpu fun _ => rfl) fun _ => .load8 (fun _ _ => rfl) addr) (fun _ _ => rfl) n

theorem write32_keeps (addr value : UInt32) : Keeps coreView (write32 addr value : CpuM β Unit) :=
  .widening 32 <| (write16_keeps addr _).bind fun _ => write16_keeps (addr + 2) _

theorem access_keeps (a : CoreAccess) : Keeps coreView (access a : CpuM β Unit) := by
  cases a with
  | readByte addr =>
    have h := (read8_keeps (β := β) addr).map fun _ => ()
    exact ⟨fun k => core_of_read (h.ok k), fun k => core_of_read (h.error k)⟩
  | readWord addr =>
    have h := (read16_keeps (β := β) addr).map fun _ => ()
    exact ⟨fun k => core_of_read (h.ok k), fun k => core_of_read (h.error k)⟩
  | writeByte addr value => exact write8_keeps addr value
  | writeWord addr value => exact write16_keeps addr value

theorem Reaches.control (h : Reaches config s log t) : controlView t = controlView s := by
  induction h with
  | refl => rfl
  | access a _ ha ih => rw [control_of_core ((access_keeps a).ok ha), ih]
  | registers r _ hr ih =>
    rw [← ih]
    simp only [controlView, hr]

theorem Stops.control (h : Stops config s e u) : controlView u = controlView s := by
  obtain ⟨log, t, a, e', width, hr, ha, -⟩ := h
  rw [control_of_core ((access_keeps a).error ha), hr.control]

/-! ### Writes to the status register -/

theorem coversStatus_iff {addr len : UInt32} :
    coversStatus config addr len = true ↔
      ∃ isr, config.isrAddress = some isr ∧ addr.toNat ≤ isr.toNat ∧ isr.toNat < addr.toNat + len.toNat := by
  unfold coversStatus
  cases hc : config.isrAddress with
  | none => simp
  | some isr =>
    simp only [Bool.and_eq_true, decide_eq_true_eq, Option.some.injEq, exists_eq_left', UInt32.le_iff_toNat_le,
      UInt32.lt_iff_toNat_lt]
    by_cases hle : addr.toNat ≤ isr.toNat
    · rw [UInt32.toNat_sub_of_le isr addr (UInt32.le_iff_toNat_le.2 hle)]
      omega
    · simp [hle]

/-- What the status register takes from a byte that is written to an address. -/
def statusByte (config : Config) (addr : UInt32) (value : UInt8) : List UInt8 :=
  if config.isrAddress = some addr then [value] else []

/-- What the status register takes from an access. -/
def statusWrites (config : Config) : CoreAccess → List UInt8
  | .writeByte addr value => statusByte config addr value
  | .writeWord addr value =>
    if coversStatus config addr 2 then
      statusByte config addr (highByte value) ++ statusByte config (addr + 1) value.toUInt8
    else []
  | _ => []

private theorem store8_pending {addr : UInt32} {value : UInt8} (h : store8 addr value config s = .ok () t) :
    t.cpu.pending = (statusByte config addr value).foldl InterruptSet.acknowledge s.cpu.pending := by
  unfold store8 at h
  rw [bind_of_ok run_read] at h
  unfold statusByte
  split at h
  · next hc => rw [if_pos hc]; cases h; rfl
  · next hc =>
    obtain ⟨bus, -, rfl⟩ := onBus_ok.1 h
    rw [if_neg hc]; rfl

private theorem store16_pending {addr : UInt32} {value : UInt16} (h : store16 addr value config s = .ok () t) :
    t.cpu.pending = (statusWrites config (.writeWord addr value)).foldl InterruptSet.acknowledge s.cpu.pending := by
  have h := widening_ok.1 h
  rw [bind_of_ok run_read] at h
  simp only [statusWrites]
  split at h
  · next hc =>
    obtain ⟨_, u, h₁, h₂⟩ := bind_ok.1 h
    rw [if_pos hc, List.foldl_append, store8_pending h₂, store8_pending h₁]
  · next hc =>
    obtain ⟨bus, -, rfl⟩ := onBus_ok.1 h
    rw [if_neg hc]; rfl

/-- Accesses change the pending interrupts by what they write to the status register, and not otherwise. -/
theorem access_pending {a : CoreAccess} (h : access a config s = .ok () t) :
    t.cpu.pending = (statusWrites config a).foldl InterruptSet.acknowledge s.cpu.pending := by
  cases a with
  | readByte addr => exact congrArg Prod.snd (((read8_keeps addr).map _).ok h)
  | readWord addr => exact congrArg Prod.snd (((read16_keeps addr).map _).ok h)
  | writeByte addr value =>
    have k : store8 addr value config { s with cpu := s.cpu.charged .write addr } = .ok () t := h
    rw [store8_pending k]; rfl
  | writeWord addr value =>
    have k : store16 addr value config
        { s with cpu := (s.cpu.charged .write addr).charged .write (addr + 1) } = .ok () t := h
    rw [store16_pending k]; rfl

/-- A long that is written beside the status register leaves the pending interrupts alone. -/
theorem write32_pending {addr value : UInt32} (h : write32 addr value config s = .ok () t)
    (hc : coversStatus config addr 4 = false) (ha : addr.toNat + 4 ≤ 2 ^ 32) : t.cpu.pending = s.cpu.pending := by
  obtain ⟨_, v, h₁, h₂⟩ := bind_ok.1 (widening_ok.1 h)
  have hno : ∀ isr, config.isrAddress = some isr → ¬(addr.toNat ≤ isr.toNat ∧ isr.toNat < addr.toNat + 4) := by
    intro isr hi hr
    rw [coversStatus_iff.2 ⟨isr, hi, hr⟩] at hc
    cases hc
  -- neither word of the long covers the status register
  have aside : ∀ a v, (a = addr ∨ a = addr + 2) → statusWrites config (.writeWord a v) = [] := by
    intro a v ha'
    refine if_neg fun hcov => ?_
    obtain ⟨isr, hi, hlo, hhi⟩ := coversStatus_iff.1 hcov
    apply hno isr hi
    have hadd : (addr + 2).toNat = addr.toNat + 2 := by
      rw [UInt32.toNat_add]
      exact Nat.mod_eq_of_lt (by simp; omega)
    have hlen : (2 : UInt32).toNat = 2 := rfl
    rcases ha' with rfl | rfl
    · omega
    · omega
  have p₁ := access_pending (a := .writeWord addr (value >>> 16).toUInt16) h₁
  have p₂ := access_pending (a := .writeWord (addr + 2) value.toUInt16) h₂
  rw [aside _ _ (.inl rfl)] at p₁
  rw [aside _ _ (.inr rfl)] at p₂
  exact p₂.trans p₁

theorem Reaches.pending (h : Reaches config s log t) :
    t.cpu.pending = (log.flatMap (statusWrites config)).foldl InterruptSet.acknowledge s.cpu.pending := by
  induction h with
  | refl => rfl
  | access a _ ha ih =>
    rw [access_pending ha, ih, List.flatMap_append, List.foldl_append]
    simp
  | registers r _ _ ih => exact ih

end CpuM

end H8S
