import H8S.Instrument
import H8S.Proofs.HaltFlag
import H8S.Proofs.StepCosts

/-!
# Budgets of runs

A run of a budget is the shortest sequence of iterations that spends it: it ends after the first `k` iterations whose cycles
add up to the budget, in the state that they lead to when they are made one by one, unless one of them fails or the halt
flag is found set before (`Shortest`).  As every iteration takes a cycle at least, `k` is at most the budget, so that the
fuel of the loop never runs out before the budget does; this carries the induction in `runSteps_stops`.  In the middle of a
run only a device can set the halt flag, so a run with quiet devices is not halted (`Shortest.not_halted`).

Cycle counts are compared as numbers, which they can be as long as the counter does not wrap.  It does not if the budget and
one iteration more fit below its last count.
-/

namespace H8S

namespace MachineM

variable {δ : Type} {m t u : Machine δ} {e : Fault} {n k : Nat}

/-- The action is made so many times in turn. -/
def repeated (x : MachineM δ Unit) : Nat → MachineM δ Unit
  | 0 => pure ()
  | k + 1 => do
    x
    repeated x k

private theorem repeated_succ {x : MachineM δ Unit} (h : x m = .ok () t) (k : Nat) :
    repeated x (k + 1) m = repeated x k t :=
  BusM.bind_of_ok h

/-! ### Cycles of an iteration -/

section Cycles

variable [Device δ]

/-- A step of a machine that ends takes a cycle at least, whatever was accessed before. -/
theorem step_elapsed {c : UInt32} (h : step m = .ok c t) :
    ∃ n, CpuM.Elapsed n m.system t.system ∧ 1 ≤ n ∧ n ≤ CpuM.longestStep :=
  CpuM.step_elapsed (step_runs h)

private theorem raises_elapsed {ns : List UInt8} (h : (ns.forM raise : MachineM δ Unit) m = .ok () t) :
    ∃ n ≤ 3 * ns.length, CpuM.Elapsed n m.system t.system := by
  induction ns generalizing m with
  | nil =>
    cases h
    exact ⟨0, Nat.le_refl _, .of_eq rfl⟩
  | cons number ns ih =>
    obtain ⟨_, v, h₁, h₂⟩ := BusM.bind_ok.1 h
    obtain ⟨n, hn, e₁⟩ := (CpuM.raise_accounted number).elapsed (recording_ok h₁).1
    obtain ⟨k, hk, e₂⟩ := ih h₂
    refine ⟨n + k, ?_, e₁.trans e₂⟩
    rw [List.length_cons]
    omega

/-- Ticks take no cycles but those of their requests, of which there is one for each interrupt at most. -/
theorem tickDevices_elapsed (h : tickDevices m = .ok () t) : ∃ n ≤ 3 * 64, CpuM.Elapsed n m.system t.system := by
  obtain ⟨raised, bus, v, -, hv, hraise⟩ := tickDevices_ok h
  have e₁ : CpuM.Elapsed 0 m.system v.system := .of_eq (by rw [hv])
  obtain ⟨n, hn, e₂⟩ := raises_elapsed hraise
  have hcount : raised.toList.length ≤ 64 := by
    rw [InterruptSet.toList_eq_filter]
    exact List.length_filter_le ..
  exact ⟨0 + n, by omega, e₁.trans e₂⟩

end Cycles

/-- No iteration takes more cycles. -/
def longestIteration : Nat := 2 ^ 35

/-- The action takes a cycle at least, and no more than the longest iteration. -/
def Takes (x : MachineM δ Unit) : Prop :=
  ∀ {m t}, x m = .ok () t → ∃ n, CpuM.Elapsed n m.system t.system ∧ 1 ≤ n ∧ n ≤ longestIteration

private theorem takes_iteration [Device δ] {after : MachineM δ Unit}
    (hafter : ∀ {m t}, after m = .ok () t → ∃ n ≤ 3 * 64, CpuM.Elapsed n m.system t.system) :
    Takes (iteration after) := by
  intro m t h
  obtain ⟨c, v, h₁, h₂⟩ := BusM.bind_ok.1 h
  obtain ⟨n, e₁, hpos, hn⟩ := step_elapsed h₁
  obtain ⟨k, hk, e₂⟩ := hafter h₂
  refine ⟨n + k, e₁.trans e₂, by omega, ?_⟩
  unfold longestIteration
  unfold CpuM.longestStep CpuM.longestOperation at hn
  omega

/-- Below a target that leaves room for an iteration, an iteration moves the counter forward. -/
private theorem Takes.lt {x : MachineM δ Unit} (hx : Takes x) {target : Nat} (h : x m = .ok () t)
    (hlt : m.cpu.cycles.toNat < target) (hroom : target + longestIteration ≤ 2 ^ 64) :
    m.cpu.cycles.toNat < t.cpu.cycles.toNat := by
  obtain ⟨n, he, hpos, hn⟩ := hx h
  have hcycles : t.cpu.cycles.toNat = m.cpu.cycles.toNat + n := he.toNat (by
    show m.cpu.cycles.toNat + n < 2 ^ 64
    omega)
  omega

/-! ### The loop -/

section Loop

variable {x : MachineM δ Unit} {target : Nat}

/-- Made `k` times, the action leads to `t`, and the cycle counter has grown by a cycle at least each time. -/
structure Leads (x : MachineM δ Unit) (m : Machine δ) (k : Nat) (t : Machine δ) : Prop where
  runs : repeated x k m = .ok () t
  grows : m.cpu.cycles.toNat + k ≤ t.cpu.cycles.toNat

/-- The action can be made `k` times, and before each time the target is not reached and no halt is asked for. -/
structure Lasts (x : MachineM δ Unit) (target : Nat) (m : Machine δ) (k : Nat) (t : Machine δ) : Prop extends
    Leads x m k t where
  going : ∀ j < k, ∃ v, Leads x m j v ∧ v.cpu.cycles.toNat < target ∧ v.bus.halted = false

/-- Why a loop stops on a machine, and what it comes back with. -/
inductive Stops (x : MachineM δ Unit) (start : UInt64) (target : Nat) (t : Machine δ) :
    EStateM.Result Fault (Machine δ) RunOutcome → Prop where
  | spent : target ≤ t.cpu.cycles.toNat → Stops x start target t (.ok (.budgetExhausted (t.cpu.cycles - start)) t)
  | halted : t.cpu.cycles.toNat < target → t.bus.halted = true →
      Stops x start target t (.ok (.halted (t.cpu.cycles - start)) t)
  | failed {e : Fault} {u : Machine δ} : t.cpu.cycles.toNat < target → t.bus.halted = false → x t = .error e u →
      Stops x start target t (.error e u)

private theorem Leads.none : Leads x m 0 m := ⟨rfl, Nat.le_refl _⟩

private theorem Leads.cons {v : Machine δ} (h : x m = .ok () v) (hgrows : m.cpu.cycles.toNat < v.cpu.cycles.toNat)
    (hl : Leads x v k t) : Leads x m (k + 1) t where
  runs := (repeated_succ h k).trans hl.runs
  grows := by
    have hgrows' := hl.grows
    omega

private theorem Lasts.none : Lasts x target m 0 m := ⟨.none, fun _ hj => absurd hj (Nat.not_lt_zero _)⟩

private theorem Lasts.cons {v : Machine δ} (h : x m = .ok () v) (hgrows : m.cpu.cycles.toNat < v.cpu.cycles.toNat)
    (hlt : m.cpu.cycles.toNat < target) (hhalt : m.bus.halted = false) (hl : Lasts x target v k t) :
    Lasts x target m (k + 1) t where
  toLeads := .cons h hgrows hl.toLeads
  going := by
    intro j hj
    cases j with
    | zero => exact ⟨m, .none, hlt, hhalt⟩
    | succ j =>
      obtain ⟨v', hv', hrest⟩ := hl.going j (Nat.lt_of_succ_lt_succ hj)
      exact ⟨v', .cons h hgrows hv', hrest⟩

/-- There are no more iterations than cycles to be spent. -/
private theorem Lasts.short (h : Lasts x target m k t) : k ≤ target - m.cpu.cycles.toNat := by
  cases k with
  | zero => exact Nat.zero_le _
  | succ j =>
    obtain ⟨v, hv, hlt, -⟩ := h.going j (Nat.lt_succ_self j)
    have hgrows := hv.grows
    omega

/-- Before the last iteration the target was not reached. -/
private theorem Lasts.last {v : Machine δ} {j : Nat} (h : Lasts x target m k t) (hk : k = j + 1)
    (hv : repeated x j m = .ok () v) : v.cpu.cycles.toNat < target := by
  obtain ⟨v', hv', hlt, -⟩ := h.going j (by omega)
  have hruns := hv'.runs
  rw [hv] at hruns
  cases hruns
  exact hlt

variable [Device δ]

/-- A loop stops only where it has to, if its fuel is as large as the cycles it has to spend. -/
private theorem runSteps_stops {after : MachineM δ Unit} (start target : UInt64) (fuel : Nat)
    (hx : Takes (iteration after)) (hroom : target.toNat + longestIteration ≤ 2 ^ 64)
    (hfuel : target.toNat ≤ m.cpu.cycles.toNat + fuel) :
    ∃ k t, Lasts (iteration after) target.toNat m k t ∧
      Stops (iteration after) start target.toNat t (runSteps start target after fuel m) := by
  induction fuel generalizing m with
  | zero =>
    have hspent : ¬m.cpu.cycles < target := fun h => by
      have h := UInt64.lt_iff_toNat_lt.1 h
      omega
    refine ⟨0, m, .none, ?_⟩
    rw [runSteps_of_spent hspent]
    exact .spent (by omega)
  | succ fuel ih =>
    by_cases hlt : m.cpu.cycles < target
    · have hlt' := UInt64.lt_iff_toNat_lt.1 hlt
      cases hhalt : m.bus.halted with
      | true =>
        refine ⟨0, m, .none, ?_⟩
        rw [runSteps_of_halted hlt hhalt]
        exact .halted hlt' hhalt
      | false =>
        rw [runSteps_of_going hlt hhalt]
        cases hit : iteration after m with
        | error e u =>
          refine ⟨0, m, .none, ?_⟩
          rw [BusM.bind_error.2 (.inl hit)]
          exact .failed hlt' hhalt hit
        | ok a v =>
          -- the fuel goes down by one, and the cycles to be spent by one at least
          have hgrows := hx.lt hit hlt' hroom
          obtain ⟨k, t, hl, hs⟩ := ih (m := v) (by omega)
          refine ⟨k + 1, t, .cons hit hgrows hlt' hhalt hl, ?_⟩
          rw [BusM.bind_of_ok hit]
          exact hs
    · refine ⟨0, m, .none, ?_⟩
      rw [runSteps_of_spent hlt]
      exact .spent (by rw [UInt64.lt_iff_toNat_lt] at hlt; omega)

end Loop

/-- What the action preserves, it preserves each time. -/
private theorem repeated_keeps {I : Machine δ → Prop} {x : MachineM δ Unit} (hx : ∀ {m t}, x m = .ok () t → I m → I t)
    (h : repeated x k m = .ok () t) (hm : I m) : I t := by
  induction k generalizing m with
  | zero =>
    cases h
    exact hm
  | succ k ih =>
    obtain ⟨_, v, h₁, h₂⟩ := BusM.bind_ok.1 h
    exact ih h₂ (hx h₁ hm)

/-! ### Runs -/

/-- A result that comes of the first `k` iterations of a run, which lead to `t`.  They are just enough for the budget, or as
many as there are before one fails or the halt flag is found set; none of them is begun with the budget spent. -/
structure Shortest (x : MachineM δ Unit) (budget : UInt64) (m : Machine δ) (k : Nat) (t : Machine δ)
    (result : EStateM.Result Fault (Machine δ) RunOutcome) : Prop where
  lasts : Lasts x (m.cpu.cycles.toNat + budget.toNat) m k t
  stops : Stops x m.cpu.cycles (m.cpu.cycles.toNat + budget.toNat) t result
  short : k ≤ budget.toNat
  /-- The cycles that are reported are those by which the counter has grown. -/
  growth : t.cpu.cycles.toNat = m.cpu.cycles.toNat + (t.cpu.cycles - m.cpu.cycles).toNat
  /-- The budget is exceeded by less than the last iteration takes. -/
  excess : ∀ j v, k = j + 1 → repeated x j m = .ok () v →
    t.cpu.cycles.toNat < m.cpu.cycles.toNat + budget.toNat + (t.cpu.cycles.toNat - v.cpu.cycles.toNat)

/-- A run is not halted if its iterations leave the halt flag clear. -/
private theorem Shortest.not_halted {Q : δ → Prop} {x : MachineM δ Unit} {budget c : UInt64}
    {result : EStateM.Result Fault (Machine δ) RunOutcome}
    (hx : ∀ {m t}, x m = .ok () t → m.bus.Running Q → t.bus.Running Q) (hm : m.bus.Running Q)
    (h : Shortest x budget m k t result) : result ≠ .ok (.halted c) u := by
  rintro rfl
  have hkept : t.bus.Running Q := repeated_keeps hx h.lasts.runs hm
  cases h.stops with
  | halted _ hset =>
    rw [hkept.clear] at hset
    cases hset

variable [Device δ]

private theorem runWith_shortest {after : MachineM δ Unit} (hx : Takes (iteration after)) {budget : UInt64}
    (hroom : m.cpu.cycles.toNat + budget.toNat + longestIteration ≤ 2 ^ 64) :
    ∃ k t, Shortest (iteration after) budget m k t (runWith after budget m) := by
  have hsum : (m.cpu.cycles + budget).toNat = m.cpu.cycles.toNat + budget.toNat := by
    rw [UInt64.toNat_add]
    refine Nat.mod_eq_of_lt ?_
    unfold longestIteration at hroom
    omega
  have htarget : targetCycles m.cpu.cycles budget = m.cpu.cycles + budget := by
    refine if_neg fun h => ?_
    rw [UInt64.lt_iff_toNat_lt, hsum] at h
    omega
  obtain ⟨k, t, hl, hs⟩ := runSteps_stops m.cpu.cycles (m.cpu.cycles + budget) budget.toNat hx (by omega) hsum.le
  rw [hsum] at hl hs
  refine ⟨k, t, hl, ?_, ?_, ?_, ?_⟩
  · show Stops _ _ _ t (runSteps m.cpu.cycles (targetCycles m.cpu.cycles budget) after budget.toNat m)
    rw [htarget]
    exact hs
  · have hshort := hl.short
    omega
  · have hle : m.cpu.cycles ≤ t.cpu.cycles := by
      rw [UInt64.le_iff_toNat_le]
      exact Nat.le_trans (Nat.le_add_right _ _) hl.grows
    rw [UInt64.toNat_sub_of_le _ _ hle]
    exact (Nat.add_sub_cancel' (UInt64.le_iff_toNat_le.1 hle)).symm
  · intro j v hk hv
    have hlast := hl.last hk hv
    omega

/-- On a machine whose counter does not come near its end, a run makes the shortest sequence of steps that spends its budget,
and no more than one for each cycle of it; it comes back with the first fault, if a step fails before.  The same holds of a
run with devices and of steps that are followed by ticks.  If the halt flag is clear at first, only a device can halt a run:
when it is accessed, or in a run with devices also when it is ticked. -/
theorem run_shortest (m : Machine δ) (budget : UInt64)
    (hroom : m.cpu.cycles.toNat + budget.toNat + longestIteration ≤ 2 ^ 64) :
    (∃ k t, Shortest (iteration (pure ())) budget m k t (run budget m)) ∧
    (∃ k t, Shortest (iteration tickDevices) budget m k t (runWithDevices budget m)) ∧
    (∀ Q : δ → Prop, Device.Quiet Q → m.bus.Running Q →
      (∀ c t, run budget m ≠ .ok (.halted c) t) ∧
      ((∀ d now, Q d → (Device.tick d now).Quiet Q) → ∀ c t, runWithDevices budget m ≠ .ok (.halted c) t)) ∧
    ∀ (v t : Machine δ) (c : UInt32), step v = .ok c t →
      ∃ n, 1 ≤ n ∧ n ≤ longestIteration ∧ t.cpu.cycles = v.cpu.cycles + n.toUInt64 := by
  have stepping : Takes (iteration (pure ()) : MachineM δ Unit) := takes_iteration fun h => by
    cases h
    exact ⟨0, Nat.zero_le _, .of_eq rfl⟩
  have ticking : Takes (iteration tickDevices : MachineM δ Unit) := takes_iteration tickDevices_elapsed
  have hrun := runWith_shortest stepping hroom
  have hticks := runWith_shortest ticking hroom
  refine ⟨hrun, hticks, fun Q hquiet hclear => ⟨fun c t => ?_, fun hquiet' c t => ?_⟩, fun v t c h => ?_⟩
  · obtain ⟨k, u, hs⟩ := hrun
    refine hs.not_halted (fun hit hm => ?_) hclear
    obtain ⟨_, w, h₁, ⟨⟩⟩ := BusM.bind_ok.1 hit
    exact step_running hquiet h₁ hm
  · obtain ⟨k, u, hs⟩ := hticks
    refine hs.not_halted (fun hit hm => ?_) hclear
    obtain ⟨_, w, h₁, h₂⟩ := BusM.bind_ok.1 hit
    exact tickDevices_running hquiet hquiet' h₂ (step_running hquiet h₁ hm)
  · obtain ⟨n, he, hpos, hn⟩ := step_elapsed h
    exact ⟨n, hpos, Nat.le_trans hn (by decide), he⟩

/-- A machine with one device, whose core sleeps. -/
def dozing (d : δ) : Machine δ where
  config := {}
  system :=
    { cpu := { sleeping := true }
      bus :=
        { memory := { size := 256 }
          mappings := [⟨0x400000, 0x400004, 0⟩]
          devices := #[d] } }

/-- A device that asks for a halt as soon as it is ticked. -/
def haltingAlarm : Instrumented := .alarm { time := 0, halt := true }

/-- Ten cycles are spent in five idle steps.  The alarm halts no run without ticks, and a device on the chip none at all. -/
theorem run_shortest_dozing :
    (dozing haltingAlarm).cpu.cycles.toNat + (10 : UInt64).toNat + longestIteration ≤ 2 ^ 64 ∧
      (∃ k t, Shortest (iteration (pure ())) 10 (dozing haltingAlarm) k t (run 10 (dozing haltingAlarm))) ∧
      (∃ k t, Shortest (iteration tickDevices) 10 (dozing haltingAlarm) k t (runWithDevices 10 (dozing haltingAlarm))) ∧
      (∃ t, run 10 (dozing haltingAlarm) = .ok (.budgetExhausted 10) t ∧
        repeated (iteration (pure ())) 5 (dozing haltingAlarm) = .ok () t) ∧
      (∀ c t, run 10 (dozing haltingAlarm) ≠ .ok (.halted c) t) ∧
      ∀ c t, runWithDevices 10 (dozing Peripheral.hole) ≠ .ok (.halted c) t := by
  have hroom : (dozing haltingAlarm).cpu.cycles.toNat + (10 : UInt64).toNat + longestIteration ≤ 2 ^ 64 := by decide
  obtain ⟨hrun, hticks, halts, -⟩ := run_shortest (dozing haltingAlarm) 10 hroom
  obtain ⟨-, -, halts', -⟩ := run_shortest (dozing Peripheral.hole) 10 (by decide)
  refine ⟨hroom, hrun, hticks, ⟨_, by with_unfolding_all rfl, by with_unfolding_all rfl⟩, ?_, ?_⟩
  · exact (halts _ Instrumented.quiet ⟨rfl, fun _ _ _ => trivial⟩).1
  · exact (halts' _ ChipDevice.quiet ⟨rfl, fun _ _ _ => trivial⟩).2 fun d now _ => ChipDevice.tick_quiet d now

/-- A device that asks for a halt whenever it is accessed. -/
structure HaltSwitch where

instance : Device HaltSwitch where
  read8 d _ := (0, { d with halted := true })
  write8 d _ _ := { d with halted := true }

/-- A machine whose core runs what it reads from a switch. -/
def switching : Machine HaltSwitch := (dozing ⟨⟩).setCpu { regs := { pc := 0x400000 } }

/-- With no fault recorded and the halt flag clear, a run with devices may still be over before its budget is spent, and so
may a run without ticks. -/
theorem run_halted_by_device :
    ((dozing haltingAlarm).fault = none ∧ (dozing haltingAlarm).bus.halted = false ∧
      (dozing haltingAlarm).cpu.cycles = 0 ∧
      ∃ t, runWithDevices 10 (dozing haltingAlarm) = .ok (.halted 2) t ∧ t.cpu.cycles = 2) ∧
    switching.fault = none ∧ switching.bus.halted = false ∧ switching.cpu.cycles = 0 ∧
      ∃ t, run 10 switching = .ok (.halted 6) t ∧ t.cpu.cycles = 6 :=
  ⟨⟨rfl, rfl, rfl, _, by with_unfolding_all rfl, rfl⟩, rfl, rfl, rfl, _, by with_unfolding_all rfl, rfl⟩

end MachineM

end H8S
