import H8S.DeviceBus
import H8S.Proofs.Accesses

/-!
# Faults of accesses

A bus fails only with accesses out of range if its byte and word accesses do (`Bus.FailsOutOfRange`); memories, buses
with devices, recorded buses and the bus that is tied to one value are such.  On such a bus an access of the core
fails in no other way, and neither does an action that is a trace of accesses (`Stops.isOutOfRange`).  So an illegal
instruction is always the verdict of the decoder.
-/

namespace H8S

def Fault.IsOutOfRange (e : Fault) : Prop := ∃ addr access, e = .outOfRange addr access

theorem Fault.IsOutOfRange.widen {e : Fault} (h : e.IsOutOfRange) (width : Nat) : (e.widen width).IsOutOfRange := by
  obtain ⟨addr, access, rfl⟩ := h
  exact ⟨addr, _, rfl⟩

/-! ### Buses -/

section Buses

variable {β α γ : Type}

/-- An action on a bus that fails in no other way. -/
def BusM.OnlyOutOfRange (m : BusM β α) : Prop := ∀ ⦃bus e bus'⦄, m bus = .error e bus' → e.IsOutOfRange

theorem BusM.OnlyOutOfRange.bind {m : BusM β α} {f : α → BusM β γ} (hm : m.OnlyOutOfRange)
    (hf : ∀ a, (f a).OnlyOutOfRange) : (m >>= f : BusM β γ).OnlyOutOfRange := by
  intro bus e bus' h
  rcases BusM.bind_error.1 h with h | ⟨a, next, -, h⟩
  · exact hm h
  · exact hf a h

theorem BusM.OnlyOutOfRange.pure (a : α) : (pure a : BusM β α).OnlyOutOfRange := by
  rintro bus e bus' ⟨⟩

/-- A bus whose accesses fail in no other way. -/
structure Bus.FailsOutOfRange (β : Type) [Bus β] : Prop where
  read8 : ∀ addr, (Bus.read8 addr : BusM β UInt8).OnlyOutOfRange
  write8 : ∀ addr value, (Bus.write8 addr value : BusM β Unit).OnlyOutOfRange
  read16 : ∀ addr, (Bus.read16 addr : BusM β UInt16).OnlyOutOfRange
  write16 : ∀ addr value, (Bus.write16 addr value : BusM β Unit).OnlyOutOfRange

private theorem memory_read8 (addr : UInt32) : (Memory.busRead addr).OnlyOutOfRange := by
  intro m e m' h
  unfold Memory.busRead Memory.read? at h
  by_cases hc : m.contains addr
  · simp [hc] at h
  · simp only [hc, Bool.false_eq_true, if_false] at h
    cases h
    exact ⟨addr, _, rfl⟩

private theorem memory_write8 (addr : UInt32) (value : UInt8) : (Memory.busWrite addr value).OnlyOutOfRange := by
  intro m e m' h
  unfold Memory.busWrite at h
  by_cases hc : m.contains addr
  · simp [hc] at h
  · simp only [hc, Bool.false_eq_true, if_false] at h
    cases h
    exact ⟨addr, _, rfl⟩

theorem Memory.failsOutOfRange : Bus.FailsOutOfRange Memory where
  read8 := memory_read8
  write8 := memory_write8
  read16 addr := (memory_read8 addr).bind fun _ => (memory_read8 _).bind fun _ => .pure _
  write16 addr _ := (memory_write8 addr _).bind fun _ => memory_write8 _ _

private theorem logged_onlyOutOfRange {m : BusM β α} (h : m.OnlyOutOfRange) (access : BusAccess) :
    (Recorder.logged access m).OnlyOutOfRange := by
  intro r e r' k
  obtain ⟨bus, hr, -⟩ := Recorder.logged_error.1 k
  exact h hr

theorem Recorder.failsOutOfRange [Bus β] (h : Bus.FailsOutOfRange β) : Bus.FailsOutOfRange (Recorder β) where
  read8 addr := logged_onlyOutOfRange (h.read8 addr) _
  write8 addr value := logged_onlyOutOfRange (h.write8 addr value) _
  read16 addr := (logged_onlyOutOfRange (h.read8 addr) _).bind fun _ =>
    (logged_onlyOutOfRange (h.read8 _) _).bind fun _ => .pure _
  write16 addr _ := (logged_onlyOutOfRange (h.write8 addr _) _).bind fun _ =>
    logged_onlyOutOfRange (h.write8 _ _) _

/-- A bus whose data lines are tied to one value: every read gives it, and what is written is lost. -/
structure Tied where
  value : UInt8

instance : Bus Tied where
  read8 _ := fun bus => .ok bus.value bus
  write8 _ _ := fun bus => .ok () bus

theorem Tied.failsOutOfRange : Bus.FailsOutOfRange Tied where
  read8 _ := by rintro bus e bus' ⟨⟩
  write8 _ _ := by rintro bus e bus' ⟨⟩
  read16 _ := by rintro bus e bus' ⟨⟩
  write16 _ _ := by rintro bus e bus' ⟨⟩

end Buses

namespace DeviceBus

variable {δ : Type} [Device δ]

private theorem device_read8 (addr : UInt32) : (read8 addr : BusM (DeviceBus δ) UInt8).OnlyOutOfRange := by
  intro bus e bus' h
  unfold read8 at h
  split at h
  · unfold Memory.read? at h
    by_cases hc : bus.memory.contains addr
    · simp [hc] at h
    · simp only [hc, Bool.false_eq_true, if_false] at h
      cases h
      exact ⟨addr, _, rfl⟩
  · split at h <;> cases h

private theorem device_write8 (addr : UInt32) (value : UInt8) :
    (write8 addr value : BusM (DeviceBus δ) Unit).OnlyOutOfRange := by
  intro bus e bus' h
  unfold write8 at h
  split at h
  · by_cases hc : bus.memory.contains addr
    · simp [hc] at h
    · simp only [hc, Bool.false_eq_true, if_false] at h
      cases h
      exact ⟨addr, _, rfl⟩
  · split at h <;> cases h

theorem failsOutOfRange : Bus.FailsOutOfRange (DeviceBus δ) where
  read8 := device_read8
  write8 := device_write8
  read16 addr := by
    intro bus e bus' h
    change read16 addr bus = _ at h
    unfold read16 at h
    split at h
    · split at h <;> cases h
    · exact (device_read8 addr).bind (fun _ => (device_read8 _).bind fun _ => .pure _) h
  write16 addr value := by
    intro bus e bus' h
    change write16 addr value bus = _ at h
    unfold write16 at h
    split at h
    · split at h <;> cases h
    · exact (device_write8 addr _).bind (fun _ => device_write8 _ _) h

end DeviceBus

/-! ### Actions of the core -/

namespace CpuM

variable {β α γ : Type}

/-- An action of the core that fails in no other way. -/
def OnlyOutOfRange (m : CpuM β α) : Prop := ∀ ⦃config s e t⦄, m config s = .error e t → e.IsOutOfRange

namespace OnlyOutOfRange

theorem pure (a : α) : OnlyOutOfRange (pure a : CpuM β α) := by
  rintro config s e t ⟨⟩

theorem bind {m : CpuM β α} {f : α → CpuM β γ} (hm : OnlyOutOfRange m) (hf : ∀ a, OnlyOutOfRange (f a)) :
    OnlyOutOfRange (m >>= f) := by
  intro config s e t h
  rcases bind_error.1 h with h | ⟨a, u, -, h⟩
  · exact hm h
  · exact hf a h

theorem map {m : CpuM β α} (f : α → γ) (hm : OnlyOutOfRange m) : OnlyOutOfRange (f <$> m) := by
  rw [← bind_pure_comp]
  exact hm.bind fun a => .pure (f a)

theorem readConfig : OnlyOutOfRange (read : CpuM β Config) := by
  rintro config s e t ⟨⟩

theorem modifyCpu (f : Cpu → Cpu) : OnlyOutOfRange (modifyCpu f : CpuM β Unit) := by
  rintro config s e t ⟨⟩

theorem onBus {m : BusM β α} (hm : m.OnlyOutOfRange) : OnlyOutOfRange (onBus m : CpuM β α) := by
  intro config s e t h
  obtain ⟨bus, h, -⟩ := onBus_error.1 h
  exact hm h

theorem widening {m : CpuM β α} (width : Nat) (hm : OnlyOutOfRange m) : OnlyOutOfRange (widening width m) := by
  intro config s e t h
  obtain ⟨e', he, rfl⟩ := widening_error.1 h
  exact (hm he).widen width

theorem ite {c : Prop} [Decidable c] {m n : CpuM β α} (hm : OnlyOutOfRange m) (hn : OnlyOutOfRange n) :
    OnlyOutOfRange (if c then m else n) := by
  by_cases hc : c
  · rw [if_pos hc]
    exact hm
  · rw [if_neg hc]
    exact hn

end OnlyOutOfRange

variable [Bus β] {config : Config} {s t : System β} {e : Fault}

private theorem load8_onlyOutOfRange (hβ : Bus.FailsOutOfRange β) (addr : UInt32) :
    OnlyOutOfRange (load8 addr : CpuM β UInt8) := by
  refine .bind .readConfig fun config => .ite ?_ (.onBus (hβ.read8 addr))
  rintro _ _ _ _ ⟨⟩

private theorem store8_onlyOutOfRange (hβ : Bus.FailsOutOfRange β) (addr : UInt32) (value : UInt8) :
    OnlyOutOfRange (store8 addr value : CpuM β Unit) :=
  .bind .readConfig fun _ => .ite (.modifyCpu _) (.onBus (hβ.write8 addr value))

theorem read8_onlyOutOfRange (hβ : Bus.FailsOutOfRange β) (addr : UInt32) :
    OnlyOutOfRange (read8 addr : CpuM β UInt8) :=
  .bind (.modifyCpu _) fun _ => load8_onlyOutOfRange hβ addr

private theorem access_onlyOutOfRange (hβ : Bus.FailsOutOfRange β) (a : CoreAccess) :
    OnlyOutOfRange (access a : CpuM β Unit) := by
  cases a with
  | readByte addr => exact (read8_onlyOutOfRange hβ addr).map _
  | readWord addr =>
    refine .map _ (.bind (.modifyCpu _) fun _ => .bind (.modifyCpu _) fun _ => .bind .readConfig fun _ => .ite ?_ ?_)
    · exact .bind (load8_onlyOutOfRange hβ addr) fun _ =>
        .bind (load8_onlyOutOfRange hβ (addr + 1)) fun _ => .pure _
    · exact .widening 16 (.onBus (hβ.read16 addr))
  | writeByte addr value => exact .bind (.modifyCpu _) fun _ => store8_onlyOutOfRange hβ addr value
  | writeWord addr value =>
    refine .bind (.modifyCpu _) fun _ => .bind (.modifyCpu _) fun _ =>
      .widening 16 (.bind .readConfig fun _ => .ite ?_ ?_)
    · exact .bind (store8_onlyOutOfRange hβ addr _) fun _ => store8_onlyOutOfRange hβ (addr + 1) _
    · exact .onBus (hβ.write16 addr value)

/-- A trace of accesses stops only out of range. -/
theorem Stops.isOutOfRange (hβ : Bus.FailsOutOfRange β) (h : Stops config s e t) : e.IsOutOfRange := by
  obtain ⟨log, u, a, e', width, -, ha, rfl⟩ := h
  exact (access_onlyOutOfRange hβ a ha).widen width

end CpuM

end H8S
