import Mathlib.Logic.Relation
import H8S.Proofs.ProgramCounter

/-!
# Runs of machines

A machine does nothing to its core but let the events of `CpuM.Moves` happen.  `MachineM.Follows x` says so of an
action, and it holds of boots, steps, requests, ticks and runs; so what the events preserve, machines preserve.

Besides, a machine keeps the last fault of its core (`recording_ok`, `recording_error`), and a run is a loop of which each
round is taken apart by one equation (`runSteps_of_spent`, `runSteps_of_halted`, `runSteps_of_going`).
-/

namespace H8S

namespace MachineM

variable {δ α γ : Type}

/-! ### Recorded actions of the core -/

section Recording

variable {m t : Machine δ} {action : CpuM (DeviceBus δ) α}

/-- An action that ends leaves the recorded fault, if there is one. -/
theorem recording_ok {a : α} (h : recording action m = .ok a t) :
    action m.config m.system = .ok a t.system ∧ t.fault = m.fault := by
  obtain ⟨config, system, fault⟩ := m
  unfold MachineM.recording at h
  cases hm : action config system with
  | ok b s =>
    simp only [hm] at h
    cases h
    exact ⟨rfl, rfl⟩
  | error e s =>
    simp only [hm] at h
    cases h

theorem recording_error {e : Fault} (h : recording action m = .error e t) :
    action m.config m.system = .error e t.system ∧ t.fault = some e := by
  obtain ⟨config, system, fault⟩ := m
  unfold MachineM.recording at h
  cases hm : action config system with
  | ok b s =>
    simp only [hm] at h
    cases h
  | error e' s =>
    simp only [hm] at h
    cases h
    exact ⟨rfl, rfl⟩

variable [Device δ]

theorem step_of_fault {e : Fault} (h : m.fault = some e) : step m = .error e m := by
  obtain ⟨config, system, fault⟩ := m
  obtain rfl : fault = some e := h
  rfl

theorem step_of_no_fault (h : m.fault = none) : step m = recording CpuM.step m := by
  obtain ⟨config, system, fault⟩ := m
  obtain rfl : fault = none := h
  rfl

/-- A step that ends is one of the core. -/
theorem step_runs {c : UInt32} (h : step m = .ok c t) : CpuM.step m.config m.system = .ok c t.system := by
  cases hf : m.fault with
  | some e =>
    rw [step_of_fault hf] at h
    cases h
  | none =>
    rw [step_of_no_fault hf] at h
    exact (recording_ok h).1

/-- A tick that ends has ticked the devices, and then raises what they asked for. -/
theorem tickDevices_ok (h : tickDevices m = .ok () t) :
    ∃ raised bus v, DeviceBus.tick m.cpu.cycles m.bus = .ok raised bus ∧ v.system = { m.system with bus := bus } ∧
      (raised.toList.forM raise : MachineM δ Unit) v = .ok () t := by
  obtain ⟨_, _, ⟨⟩, h⟩ := BusM.bind_ok.1 h
  obtain ⟨raised, v, h₁, h₂⟩ := BusM.bind_ok.1 h
  obtain ⟨bus, hbus, hv⟩ := CpuM.onBus_ok.1 (recording_ok h₁).1
  exact ⟨raised, bus, v, hbus, hv, h₂⟩

end Recording

/-! ### Runs of events -/

variable [Device δ]

/-- Whatever comes of the action, it is a run of events. -/
def Follows (x : MachineM δ α) : Prop :=
  ∀ m, (outcome (x m)).config = m.config ∧
    Relation.ReflTransGen (CpuM.Moves m.config) m.system (outcome (x m)).system

namespace Follows

theorem pure (a : α) : Follows (pure a : MachineM δ α) := fun _ => ⟨rfl, .refl⟩

theorem get : Follows (get : MachineM δ (Machine δ)) := fun _ => ⟨rfl, .refl⟩

theorem throw (e : Fault) : Follows (throw e : MachineM δ α) := fun _ => ⟨rfl, .refl⟩

theorem bind {x : MachineM δ α} {f : α → MachineM δ γ} (hx : Follows x) (hf : ∀ a, Follows (f a)) :
    Follows (x >>= f : MachineM δ γ) := by
  intro m
  -- the second action begins on a machine of the same configuration
  have trans : ∀ {a : α} {m' t : Machine δ}, x m = .ok a m' → outcome (f a m') = t →
      t.config = m.config ∧ Relation.ReflTransGen (CpuM.Moves m.config) m.system t.system := by
    rintro a m' t h₁ rfl
    have hxm := hx m
    rw [h₁] at hxm
    obtain ⟨hc, hr⟩ : m'.config = m.config ∧ Relation.ReflTransGen (CpuM.Moves m.config) m.system m'.system := hxm
    obtain ⟨hc', hr'⟩ := hf a m'
    rw [hc] at hc' hr'
    exact ⟨hc', hr.trans hr'⟩
  cases h : (x >>= f : MachineM δ γ) m with
  | ok c t =>
    obtain ⟨a, m', h₁, h₂⟩ := BusM.bind_ok.1 h
    exact trans h₁ (congrArg outcome h₂)
  | error e t =>
    rcases BusM.bind_error.1 h with h₁ | ⟨a, m', h₁, h₂⟩
    · have hxm := hx m
      rw [h₁] at hxm
      exact hxm
    · exact trans h₁ (congrArg outcome h₂)

private theorem recording {action : CpuM (DeviceBus δ) α}
    (h : ∀ config s, CpuM.Moves config s (outcome (action config s))) : Follows (recording action) := by
  rintro ⟨config, system, fault⟩
  have hmove := h config system
  unfold MachineM.recording
  cases hm : action config system with
  | ok a t =>
    rw [hm] at hmove
    simp only [hm]
    exact ⟨rfl, .single hmove⟩
  | error e t =>
    rw [hm] at hmove
    simp only [hm]
    exact ⟨rfl, .single hmove⟩

theorem step : Follows (step : MachineM δ UInt32) := by
  refine get.bind fun m => ?_
  cases m.fault with
  | some e => exact .throw e
  | none =>
    refine .recording fun config s => ?_
    rw [← CpuM.outcome_map (fun _ => ())]
    exact .happens .step

theorem raise (n : UInt8) : Follows (raise n : MachineM δ Unit) := recording fun _ _ => .happens (.raise n)

theorem boot : Follows (boot : MachineM δ Unit) := by
  have hboot : Follows (MachineM.recording CpuM.boot : MachineM δ Unit) := recording fun _ _ => .happens .boot
  intro m
  exact hboot { m with fault := none }

theorem tickDevices : Follows (tickDevices : MachineM δ Unit) := by
  refine get.bind fun m => (recording fun _ _ => .ticks _).bind fun raised => ?_
  have raises : ∀ ns : List UInt8, Follows (ns.forM MachineM.raise : MachineM δ Unit) := by
    intro ns
    induction ns with
    | nil => exact .pure ()
    | cons n ns ih => exact (raise n).bind fun _ => ih
  exact raises raised.toList

private theorem runSteps (start target : UInt64) {after : MachineM δ Unit} (hafter : Follows after) (fuel : Nat) :
    Follows (runSteps start target after fuel) := by
  induction fuel with
  | zero => exact get.bind fun m => .pure _
  | succ fuel ih =>
    refine get.bind fun m => ?_
    split
    · split
      · exact .pure _
      · exact step.bind fun _ => hafter.bind fun _ => ih
    · exact .pure _

theorem run (budget : UInt64) : Follows (run budget : MachineM δ RunOutcome) :=
  get.bind fun _ => runSteps _ _ (.pure ()) _

theorem runWithDevices (budget : UInt64) : Follows (runWithDevices budget : MachineM δ RunOutcome) :=
  get.bind fun _ => runSteps _ _ tickDevices _

end Follows

/-! ### The loop of a run -/

section Loop

variable {m m' : Machine δ} {start target : UInt64} {after : MachineM δ Unit} {fuel : Nat}

/-- What a run does again and again: a step and what follows it. -/
def iteration (after : MachineM δ Unit) : MachineM δ Unit := do
  let _ ← MachineM.step
  after

theorem runSteps_of_spent (h : ¬m.cpu.cycles < target) :
    MachineM.runSteps start target after fuel m = .ok (.budgetExhausted (m.cpu.cycles - start)) m := by
  cases fuel with
  | zero => rfl
  | succ fuel =>
    refine BusM.bind_ok.2 ⟨m, m, rfl, ?_⟩
    rw [if_neg h]
    rfl

theorem runSteps_of_halted (h : m.cpu.cycles < target) (hhalt : m.bus.halted = true) :
    MachineM.runSteps start target after (fuel + 1) m = .ok (.halted (m.cpu.cycles - start)) m := by
  refine BusM.bind_ok.2 ⟨m, m, rfl, ?_⟩
  rw [if_pos h, if_pos hhalt]
  rfl

/-- A run that goes on takes one iteration and then is a run with less fuel. -/
theorem runSteps_of_going (h : m.cpu.cycles < target) (hhalt : m.bus.halted = false) :
    MachineM.runSteps start target after (fuel + 1) m =
      (iteration after >>= fun _ => MachineM.runSteps start target after fuel : MachineM δ RunOutcome) m := by
  have hnot : ¬m.bus.halted = true := by simp [hhalt]
  have hm : MachineM.runSteps start target after (fuel + 1) m =
      (MachineM.step >>= fun _ => after >>= fun _ => MachineM.runSteps start target after fuel :
        MachineM δ RunOutcome) m := by
    show (if m.cpu.cycles < target then if m.bus.halted = true then _ else _ else _ : MachineM δ RunOutcome) m = _
    rw [if_pos h, if_neg hnot]
  rw [hm]
  unfold iteration
  rw [bind_assoc]

end Loop

private theorem boot_system {m m₀ : Machine δ} (h : MachineM.boot m = .ok () m₀) :
    m₀.system = outcome (CpuM.boot m.config m.system) := by
  change MachineM.recording CpuM.boot { m with fault := none } = _ at h
  have hb := (recording_ok h).1
  rw [hb]
  rfl

/-- Whatever a machine does after its boot, its program counter is even and at most the end of the address space. -/
theorem Follows.pc_le {m m₀ : Machine δ} {x : MachineM δ α} (hx : Follows x) (hm : m.Prepared)
    (hboot : MachineM.boot m = .ok () m₀) :
    (outcome (x m₀)).cpu.regs.pc.toNat % 2 = 0 ∧ (outcome (x m₀)).cpu.regs.pc.toNat ≤ Address.spaceSize := by
  have seated : ∀ {s t : System (DeviceBus δ)}, Relation.ReflTransGen (CpuM.Moves m₀.config) s t → CpuM.Seated s →
      CpuM.Seated t := by
    intro s t h hs
    induction h with
    | refl => exact hs
    | tail _ hmove ih => exact hmove.seated ih
  have h₀ : CpuM.Seated m₀.system := by
    rw [boot_system hboot]
    exact CpuM.boot_seated hm.inside
  exact (seated (hx m₀).2 h₀).2

end MachineM

end H8S
