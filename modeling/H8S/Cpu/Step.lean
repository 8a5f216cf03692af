import H8S.Cpu.Execute
import H8S.Decoding.Opcode
import H8S.Listing.Line

/-!
# Steps of the core

A step enters an interrupt, idles while the core sleeps, or executes one instruction.  Instructions are fetched through the
accesses of the core itself.  A step that fails leaves the program counter where it was.
-/

namespace H8S.CpuM

variable {β : Type} [Bus β]

/-- Resets the core and fetches the program counter from the first vector.  The fetch is not counted. -/
def boot : CpuM β Unit := do
  modifyCpu fun c =>
    { c with regs := { ccr := { i := true } }, pending := {}, sleeping := false, depth := 0 }
  let target ← read32 (← read).vectorBase
  modifyCpu fun c => { c.jumped target with cycles := 0, timer := {} }

/-- Traces an instruction that is about to be executed. -/
def traceInstruction (i : Instruction) : CpuM β Unit := do
  match (← read).trace with
  | some options => traceLine (Listing.traceLine options i (← get).cpu.depth)
  | none => pure ()

/-- Fetches, traces and executes the instruction at `pc`. -/
def executeAt (pc : UInt32) : CpuM β Unit := do
  let i ← Instruction.decode read8 pc
  traceInstruction i
  execute i

/-- Executes the instruction at the program counter, which stays there if that fails. -/
def executeNext : CpuM β Unit := do
  let pc := (← getRegs).pc
  retreatingTo pc (executeAt pc)

/-- The cycles that an idle step takes. -/
def idleCycles : UInt64 := 2

/-- What a step does. -/
def advance : CpuM β Unit := do
  match (← get).cpu.dueInterrupt? with
  | some n => enterInterrupt n
  | none => if (← get).cpu.sleeping then spend idleCycles else executeNext

/-- One step, and the cycles it took. -/
def step : CpuM β UInt32 := do
  let start := (← get).cpu.cycles
  advance
  return ((← get).cpu.cycles - start).toUInt32

/-- Drops all interrupts that wait. -/
def clearPending : CpuM β Unit := modifyCpu fun c => { c with pending := {} }

end H8S.CpuM
