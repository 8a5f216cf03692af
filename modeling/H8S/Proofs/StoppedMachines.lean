import H8S.Proofs.MachineRuns
import H8S.Proofs.Sources

/-!
# Stopped machines

Whatever fails on a machine leaves its fault recorded, and only a boot takes it back.  A machine with a recorded fault does
not change any more: what the host asks of it comes back with that fault as soon as it would take a step (`call_of_fault`).
A run takes no step if its budget is spent from the start, or if a halt is asked for; such a run ends without a look at the
fault, and its machine is unchanged, too.
-/

namespace H8S

/-- What the host asks of a machine between two boots. -/
inductive HostCall where
  | step
  | run (budget : UInt64)
  | runWithDevices (budget : UInt64)
  deriving DecidableEq

/-- What comes of a call that does not fail. -/
inductive HostAnswer where
  | stepped (cycles : UInt32)
  | ended (outcome : RunOutcome)
  deriving DecidableEq

namespace HostCall

/-- A run has something to spend on a machine, so that it goes on to look at the halt flag. -/
def Spends {δ : Type} (m : Machine δ) (budget : UInt64) : Prop := budget ≠ 0 ∧ m.cpu.cycles ≠ 0xFFFFFFFFFFFFFFFF

instance {δ : Type} (m : Machine δ) (budget : UInt64) : Decidable (Spends m budget) :=
  inferInstanceAs (Decidable (_ ∧ _))

/-- What a call comes back with on a machine that has stopped with a fault. -/
def stopped {δ : Type} (m : Machine δ) (e : Fault) : HostCall → Except Fault HostAnswer
  | step => .error e
  | run budget | runWithDevices budget =>
    if Spends m budget then if m.bus.halted then .ok (.ended (.halted 0)) else .error e
    else .ok (.ended (.budgetExhausted 0))

end HostCall

namespace MachineM

variable {δ α : Type} {m m' : Machine δ} {e : Fault}

/-! ### What is recorded -/

private theorem verdict_map {γ : Type} (f : α → γ) (x : MachineM δ α) :
    verdict ((f <$> x) m) = f <$> verdict (x m) := by
  show verdict (EStateM.map f x m) = _
  unfold EStateM.map
  cases x m <;> rfl

private theorem outcome_map {γ : Type} (f : α → γ) (x : MachineM δ α) : outcome ((f <$> x) m) = outcome (x m) := by
  show outcome (EStateM.map f x m) = _
  unfold EStateM.map
  cases x m <;> rfl

variable [Device δ]

theorem step_error_recorded (h : step m = .error e m') : m'.fault = some e := by
  cases hf : m.fault with
  | some e' =>
    rw [step_of_fault hf] at h
    cases h
    exact hf
  | none =>
    rw [step_of_no_fault hf] at h
    exact (recording_error h).2

theorem raise_error_recorded {n : UInt8} (h : raise n m = .error e m') : m'.fault = some e := (recording_error h).2

theorem tickDevices_error_recorded (h : tickDevices m = .error e m') : m'.fault = some e := by
  have raises : ∀ (ns : List UInt8) {t t' : Machine δ}, (ns.forM raise : MachineM δ Unit) t = .error e t' →
      t'.fault = some e := by
    intro ns
    induction ns with
    | nil => rintro _ _ ⟨⟩
    | cons n ns ih =>
      intro t t' h
      rcases BusM.bind_error.1 h with h | ⟨_, _, -, h⟩
      · exact (recording_error h).2
      · exact ih h
  rcases BusM.bind_error.1 h with ⟨⟨⟩⟩ | ⟨_, _, -, h⟩
  rcases BusM.bind_error.1 h with h | ⟨raised, _, -, h⟩
  · exact (recording_error h).2
  · exact raises raised.toList h

theorem boot_ok_recorded (h : boot m = .ok () m') : m'.fault = none := (recording_ok (m := { m with fault := none }) h).2

/-! ### Calls -/

/-- A call of the host, with its answer. -/
def call : HostCall → MachineM δ HostAnswer
  | .step => .stepped <$> step
  | .run budget => .ended <$> run budget
  | .runWithDevices budget => .ended <$> runWithDevices budget

/-- Calls in turn, each after the halt flag was set or cleared: what they come back with, and the machine in the end. -/
def session (m : Machine δ) : List (Bool × HostCall) → List (Except Fault HostAnswer) × Machine δ
  | [] => ([], m)
  | (halted, c) :: rest =>
    let result := call c (m.setHalted halted)
    let (answers, last) := session (outcome result) rest
    (verdict result :: answers, last)

private theorem lt_targetCycles (cycles budget : UInt64) :
    cycles < targetCycles cycles budget ↔ budget ≠ 0 ∧ cycles ≠ 0xFFFFFFFFFFFFFFFF := by
  have hc := cycles.toNat_lt
  have hb := budget.toNat_lt
  have h₀ : (0 : UInt64).toNat = 0 := rfl
  have hmax : (0xFFFFFFFFFFFFFFFF : UInt64).toNat = 2 ^ 64 - 1 := rfl
  unfold targetCycles
  simp only [ne_eq, UInt64.lt_iff_toNat_lt, ← UInt64.toNat_inj, UInt64.toNat_add, h₀]
  split
  · rw [hmax]
    omega
  · rw [UInt64.toNat_add, hmax]
    omega

private theorem iteration_of_fault (h : m.fault = some e) (after : MachineM δ Unit) :
    iteration after m = .error e m :=
  BusM.bind_error.2 (.inl (step_of_fault h))

/-- A run on a machine with a recorded fault comes back with it, unless it takes no step. -/
private theorem runWith_of_fault (h : m.fault = some e) (after : MachineM δ Unit) (budget : UInt64) :
    runWith after budget m =
      if HostCall.Spends m budget then if m.bus.halted then .ok (.halted 0) m else .error e m
      else .ok (.budgetExhausted 0) m := by
  have hzero : m.cpu.cycles - m.cpu.cycles = 0 := UInt64.sub_self _
  have hlt := lt_targetCycles m.cpu.cycles budget
  show runSteps m.cpu.cycles (targetCycles m.cpu.cycles budget) after budget.toNat m = _
  by_cases hs : HostCall.Spends m budget
  · obtain ⟨fuel, hfuel⟩ : ∃ fuel, budget.toNat = fuel + 1 :=
      Nat.exists_eq_succ_of_ne_zero fun h₀ => hs.1 (UInt64.toNat_inj.1 h₀)
    rw [if_pos hs, hfuel]
    cases hhalt : m.bus.halted with
    | true => rw [runSteps_of_halted (hlt.2 hs) hhalt, hzero, if_pos rfl]
    | false =>
      rw [runSteps_of_going (hlt.2 hs) hhalt, if_neg Bool.false_ne_true]
      exact BusM.bind_error.2 (.inl (iteration_of_fault h after))
  · rw [if_neg hs, runSteps_of_spent fun hl => hs (hlt.1 hl), hzero]

/-- On a machine with a recorded fault no call changes anything. -/
theorem call_of_fault (h : m.fault = some e) (c : HostCall) :
    verdict (call c m) = c.stopped m e ∧ outcome (call c m) = m := by
  have ended : ∀ (after : MachineM δ Unit) (budget : UInt64),
      verdict ((.ended <$> runWith after budget : MachineM δ HostAnswer) m) = HostCall.stopped m e (.run budget) ∧
        outcome ((.ended <$> runWith after budget : MachineM δ HostAnswer) m) = m := by
    intro after budget
    rw [verdict_map, outcome_map, runWith_of_fault h after budget]
    simp only [HostCall.stopped]
    by_cases hs : HostCall.Spends m budget
    · rw [if_pos hs, if_pos hs]
      cases m.bus.halted with
      | true => exact ⟨rfl, rfl⟩
      | false => exact ⟨rfl, rfl⟩
    · rw [if_neg hs, if_neg hs]
      exact ⟨rfl, rfl⟩
  cases c with
  | step =>
    unfold call
    rw [verdict_map, outcome_map, step_of_fault h]
    exact ⟨rfl, rfl⟩
  | run budget => exact ended _ budget
  | runWithDevices budget => exact ended _ budget

/-- Calls only leave the halt flag as the host has set it last. -/
private theorem session_of_fault (h : m.fault = some e) (calls : List (Bool × HostCall)) :
    session m calls =
      (calls.map fun c => c.2.stopped (m.setHalted c.1) e, m.setHalted ((calls.map Prod.fst).getLastD m.bus.halted)) := by
  induction calls generalizing m with
  | nil => rfl
  | cons c rest ih =>
    obtain ⟨halted, c⟩ := c
    have hf : (m.setHalted halted).fault = some e := h
    obtain ⟨hv, ho⟩ := call_of_fault hf c
    have hs : session m ((halted, c) :: rest) =
        (verdict (call c (m.setHalted halted)) :: (session (outcome (call c (m.setHalted halted))) rest).1,
          (session (outcome (call c (m.setHalted halted))) rest).2) := rfl
    rw [hs, hv, ho, ih hf]
    rw [List.map_cons, List.map_cons, List.getLastD_cons]
    rfl

/-- A step, a request or a tick that fails leaves its fault recorded.  From then on, whatever steps and runs the host asks for
and however it sets the halt flag in between, nothing on the machine changes but that flag, and each call comes back with
the fault, except a run that takes no step: one without a budget, one with the cycle counter at its last count, or one that
finds the halt flag set.  A boot that ends leaves no fault. -/
theorem fault_until_boot :
    (∀ (m m' : Machine δ) (e : Fault),
      step m = .error e m' ∨ (∃ n, raise n m = .error e m') ∨ tickDevices m = .error e m' →
      m'.fault = some e ∧ ∀ calls : List (Bool × HostCall), session m' calls =
        (calls.map fun c => c.2.stopped (m'.setHalted c.1) e,
          m'.setHalted ((calls.map Prod.fst).getLastD m'.bus.halted))) ∧
    ∀ m m' : Machine δ, boot m = .ok () m' → m'.fault = none := by
  refine ⟨fun m m' e hfail => ?_, fun m m' => boot_ok_recorded⟩
  have hf : m'.fault = some e := by
    rcases hfail with h | ⟨n, h⟩ | h
    · exact step_error_recorded h
    · exact raise_error_recorded h
    · exact tickDevices_error_recorded h
  exact ⟨hf, session_of_fault hf⟩

/-- A machine without memory fails at its first fetch. -/
private theorem step_without_memory :
    ∃ m' : Machine Peripheral, step (Machine.new { memorySize := 0 }) = .error (.outOfRange 0 ⟨.read, 8⟩) m' ∧
      m'.cpu.cycles = 3 :=
  ⟨_, by with_unfolding_all rfl, rfl⟩

/-- The fault of an empty memory is what steps come back with, and runs that take steps. -/
theorem fault_until_boot_without_memory :
    ∃ m' : Machine Peripheral, step (Machine.new { memorySize := 0 }) = .error (.outOfRange 0 ⟨.read, 8⟩) m' ∧
      (session m' [(false, .run 0), (true, .runWithDevices 100), (true, .step), (false, .run 100)]).1 =
        [.ok (.ended (.budgetExhausted 0)), .ok (.ended (.halted 0)), .error (.outOfRange 0 ⟨.read, 8⟩),
          .error (.outOfRange 0 ⟨.read, 8⟩)] := by
  obtain ⟨m', h, hcycles⟩ := step_without_memory
  refine ⟨m', h, ?_⟩
  have spends : ∀ halted, HostCall.Spends (m'.setHalted halted) 100 := fun _ =>
    ⟨by decide, by show m'.cpu.cycles ≠ _; rw [hcycles]; decide⟩
  obtain ⟨-, hsession⟩ := fault_until_boot.1 _ m' _ (.inl h)
  rw [hsession]
  simp only [List.map_cons, List.map_nil, HostCall.stopped, if_pos (spends _)]
  rfl

/-- A run without a budget does not come back with the fault that is recorded, and neither does one that finds the halt flag
set. -/
theorem fault_passed_over :
    ∃ (m m' : Machine Peripheral) (e : Fault), step m = .error e m' ∧ step m' = .error e m' ∧
      run 0 m' = .ok (.budgetExhausted 0) m' ∧
      run 100 (m'.setHalted true) = .ok (.halted 0) (m'.setHalted true) := by
  obtain ⟨m', h, hcycles⟩ := step_without_memory
  have hf := step_error_recorded h
  have spends : HostCall.Spends (m'.setHalted true) 100 :=
    ⟨by decide, by show m'.cpu.cycles ≠ _; rw [hcycles]; decide⟩
  refine ⟨_, m', _, h, step_of_fault hf, ?_, ?_⟩
  · exact (runWith_of_fault hf _ 0).trans (if_neg fun hs => hs.1 rfl)
  · exact (runWith_of_fault (m := m'.setHalted true) hf _ 100).trans ((if_pos spends).trans (if_pos rfl))

end MachineM

end H8S
