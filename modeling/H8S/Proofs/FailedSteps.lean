import H8S.Proofs.Steps

/-!
# Failed steps

A step that fails has not moved control.  An instruction can fail while it is fetched or at one of its accesses, which
all come before its landing, and the program counter is put back; an interrupt entry can fail at one of its accesses,
which come before the jump.  If the fault is an illegal instruction, on a bus that itself fails only out of range,
then it is the verdict of the decoder and nothing but fetches has happened.
-/

namespace H8S.CpuM

variable {β : Type} [Bus β] {config : Config} {s u : System β} {e : Fault}

private theorem entry_failure {n : UInt8} (h : enterInterrupt n config s = .error e u) :
    u.cpu.regs.pc = s.cpu.regs.pc ∧ u.cpu.depth = s.cpu.depth := by
  obtain ⟨t, hs, hpc, hd⟩ := enterInterrupt_error h
  have hc := hs.control
  constructor
  · rw [← hpc]
    exact congrArg Prod.fst hc
  · rw [← hd]
    exact congrArg (fun v => v.2.2.1) hc

/-- A failed fetch has come so far as the bytes before it. -/
private theorem decode_failure {pc : UInt32} {v : System β} (h : Instruction.decode read8 pc config s = .error e v) :
    v.cpu.depth = s.cpu.depth := by
  rcases decode_error h with ⟨bytes, -, -, hf⟩ | ⟨bytes, t, hf, hr⟩
  · rw [hf.cpu]
  · have hv : v.cpu.depth = t.cpu.depth := congrArg (fun v => v.1.2.2.1) ((read8_keeps _).error hr)
    rw [hv, hf.cpu]

private theorem instruction_failure (h : executeNext config s = .error e u) :
    u.cpu.regs.pc = s.cpu.regs.pc ∧ u.cpu.depth = s.cpu.depth := by
  obtain ⟨v, rfl, hv⟩ := executeNext_error h
  refine ⟨rfl, ?_⟩
  rcases hv with hd | ⟨i, t, hd, hp⟩
  · have hv := decode_failure hd
    exact hv
  · have hc : v.cpu.depth = (t.begun config i).cpu.depth := congrArg (fun v => v.2.2.1) (perform_error hp).control
    obtain ⟨-, -, hf⟩ := decode_ok hd
    show v.cpu.depth = s.cpu.depth
    rw [hc, System.begun_cpu, hf.cpu]

theorem step_error_control (h : step config s = .error e u) :
    u.cpu.regs.pc = s.cpu.regs.pc ∧ u.cpu.depth = s.cpu.depth := by
  rw [step_error] at h
  cases hdue : s.cpu.dueInterrupt? with
  | some n => exact entry_failure (advance_of_due hdue ▸ h)
  | none =>
    by_cases hs : s.cpu.sleeping = true
    · rw [advance_of_asleep hdue hs] at h
      cases h
    · exact instruction_failure (advance_of_awake hdue (by simpa using hs) ▸ h)

/-- Of all parts of a step, only the decoder finds an instruction illegal. -/
private theorem illegal_of_decode (hβ : Bus.FailsOutOfRange β) {pc : UInt32} {bytes : List UInt8}
    (h : advance config s = .error (.illegalInstruction pc bytes) u) :
    ∃ v, u = { v with cpu := { v.cpu with regs := { v.cpu.regs with pc := s.cpu.regs.pc } } } ∧
      pc = Address.even s.cpu.regs.pc ∧ bytes.length ≤ 10 ∧ Fetches config s pc bytes v := by
  have verdict : ∀ {t w : System β}, Stops config t (.illegalInstruction pc bytes) w → False := by
    intro t w k
    obtain ⟨addr, access, he⟩ := k.isOutOfRange hβ
    cases he
  cases hdue : s.cpu.dueInterrupt? with
  | some n =>
    rw [advance_of_due hdue] at h
    obtain ⟨t, hs, -, -⟩ := enterInterrupt_error h
    exact (verdict hs).elim
  | none =>
    -- a core that sleeps does not fail
    by_cases hs : s.cpu.sleeping = true
    · rw [advance_of_asleep hdue hs] at h
      cases h
    · rw [advance_of_awake hdue (by simpa using hs)] at h
      obtain ⟨v, hu, hd | ⟨i, t, -, hp⟩⟩ := executeNext_error h
      · refine ⟨v, hu, ?_⟩
        rcases decode_error hd with ⟨bytes', he, hlen, hf⟩ | ⟨bytes', t, -, hr⟩
        · cases he
          exact ⟨rfl, hlen, hf⟩
        · obtain ⟨addr, access, he⟩ := read8_onlyOutOfRange hβ _ hr
          cases he
      · exact (verdict (perform_error hp)).elim

/-- A step that fails leaves the program counter and the call depth as they were.  If it reports an illegal
instruction, on a bus that itself fails only out of range, then it has fetched exactly the reported bytes from the
program counter on, has made no other access, and has changed nothing else of the core than the cycle counter and the
timer of accesses. -/
theorem step_failure (h : step config s = .error e u) :
    u.cpu.regs.pc = s.cpu.regs.pc ∧ u.cpu.depth = s.cpu.depth ∧
    (Bus.FailsOutOfRange β → ∀ pc bytes, e = .illegalInstruction pc bytes →
      pc = Address.even s.cpu.regs.pc ∧ bytes.length ≤ 10 ∧ Fetches config s pc bytes u ∧
      u.cpu = { s.cpu with cycles := u.cpu.cycles, timer := u.cpu.timer } ∧ u.trace = s.trace) := by
  obtain ⟨hpc, hdepth⟩ := step_error_control h
  refine ⟨hpc, hdepth, ?_⟩
  rintro hβ pc bytes rfl
  obtain ⟨v, hu, hstart, hlen, hf⟩ := illegal_of_decode hβ (step_error.1 h)
  -- fetches never moved the program counter, so that putting it back changes nothing
  have hv : v.cpu.regs.pc = s.cpu.regs.pc := by rw [hf.cpu]
  have huv : u = v := by rw [hu, ← hv]
  rw [huv]
  exact ⟨hstart, hlen, hf, hf.cpu, hf.trace⟩

/-- The bytes `01 01` begin no instruction. -/
theorem step_failure_of_tied :
    ∃ u : System Tied, step {} { bus := ⟨1⟩ } = .error (.illegalInstruction 0 [1, 1]) u ∧
      u.cpu.regs.pc = 0 ∧ Fetches {} { bus := ⟨1⟩ } 0 [1, 1] u := by
  have h : step {} ({ bus := ⟨1⟩ } : System Tied) = .error (.illegalInstruction 0 [1, 1])
      { cpu := { cycles := 3, timer := { lastRead := some 1 } }, bus := ⟨1⟩ } := rfl
  obtain ⟨hpc, -, hill⟩ := step_failure h
  obtain ⟨-, -, hf, -⟩ := hill Tied.failsOutOfRange 0 [1, 1] rfl
  exact ⟨_, h, hpc, hf⟩

end H8S.CpuM
