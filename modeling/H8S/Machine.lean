import H8S.Cpu.Step
import H8S.DeviceBus

/-!
# Machines

A machine is a core on a bus with devices.  A fault stops it: the fault is recorded, and steps answer with it until the next
boot.  A run ends when its budget of cycles is spent or when a halt was asked for.
-/

namespace H8S

structure Machine (δ : Type) where
  config : Config
  system : System (DeviceBus δ)
  fault : Option Fault := none

/-- Actions on a machine; what was done before a fault stays done. -/
abbrev MachineM (δ : Type) := EStateM Fault (Machine δ)

/-- Why a run ended, and the cycles it took. -/
inductive RunOutcome where
  | budgetExhausted (cycles : UInt64)
  | halted (cycles : UInt64)
  deriving DecidableEq

namespace Machine

variable {δ : Type}

/-- A machine with empty memory and no devices. -/
def new (config : Config) : Machine δ where
  config := config
  system := { bus := { memory := { size := config.memorySize } } }

def cpu (m : Machine δ) : Cpu := m.system.cpu

def bus (m : Machine δ) : DeviceBus δ := m.system.bus

def memory (m : Machine δ) : Memory := m.bus.memory

def setBus (m : Machine δ) (bus : DeviceBus δ) : Machine δ := { m with system := { m.system with bus := bus } }

def setMemory (m : Machine δ) (memory : Memory) : Machine δ := m.setBus { m.bus with memory := memory }

def setCpu (m : Machine δ) (cpu : Cpu) : Machine δ := { m with system := { m.system with cpu := cpu } }

/-- Asks for a halt, or takes one back. -/
def setHalted (m : Machine δ) (halted : Bool) : Machine δ := m.setBus { m.bus with halted := halted }

/-- Copies an image into the memory. -/
def load (m : Machine δ) (offset : UInt32) (image : List UInt8) : Except ImageTooLarge (Machine δ) := do
  return m.setMemory (← m.memory.load offset image)

/-- The lines traced so far, and the machine with none. -/
def takeTrace (m : Machine δ) : Array String × Machine δ :=
  (m.system.trace, { m with system := { m.system with trace := #[] } })

/-- The text of the instruction at an address and the length of its encoding, as they lie in memory. -/
def disassemble (m : Machine δ) (addr : UInt32) : Except Fault (String × UInt32) := do
  let i ← Instruction.decode m.memory.read? addr
  return (Listing.text (m.config.trace.getD {}) i.op, i.len)

/-- The cycle counter in seconds. -/
def seconds (m : Machine δ) : Float := m.cpu.cycles.toFloat / m.config.clockHz.toFloat

end Machine

namespace MachineM

variable {δ α : Type}

/-- An action of the core, whose fault is recorded. -/
def recording (action : CpuM (DeviceBus δ) α) : MachineM δ α := fun ⟨config, system, fault⟩ =>
  match action config system with
  | .ok a system => .ok a ⟨config, system, fault⟩
  | .error e system => .error e ⟨config, system, some e⟩

variable [Device δ]

/-- Resets the core and forgets the fault. -/
def boot : MachineM δ Unit := do
  modify fun m => { m with fault := none }
  recording CpuM.boot

def step : MachineM δ UInt32 := do
  match (← get).fault with
  | some e => throw e
  | none => recording CpuM.step

def raise (n : UInt8) : MachineM δ Unit := recording (CpuM.raise n)

/-- Lets the devices catch up with the cycle counter and raises the interrupts they ask for, lowest first. -/
def tickDevices : MachineM δ Unit := do
  let raised ← recording (CpuM.onBus (DeviceBus.tick (← get).cpu.cycles))
  raised.toList.forM raise

/-- The counter at which a run that began at `start` has spent its budget; it goes no further than the last count. -/
def targetCycles (start budget : UInt64) : UInt64 := if start + budget < start then 0xFFFFFFFFFFFFFFFF else start + budget

/-- Takes at most `fuel` steps, each followed by `after`. -/
def runSteps (start target : UInt64) (after : MachineM δ Unit) : Nat → MachineM δ RunOutcome
  | 0 => return .budgetExhausted ((← get).cpu.cycles - start)
  | fuel + 1 => do
    let m ← get
    if m.cpu.cycles < target then
      if m.bus.halted then return .halted (m.cpu.cycles - start)
      else
        let _ ← step
        after
        runSteps start target after fuel
    else return .budgetExhausted (m.cpu.cycles - start)

/-- Runs until the counter has grown by the budget.  Every step takes a cycle at least, so the budget bounds the steps. -/
def runWith (after : MachineM δ Unit) (budget : UInt64) : MachineM δ RunOutcome := do
  let start := (← get).cpu.cycles
  runSteps start (targetCycles start budget) after budget.toNat

def run (budget : UInt64) : MachineM δ RunOutcome := runWith (pure ()) budget

/-- A run in which the devices are ticked after every step. -/
def runWithDevices (budget : UInt64) : MachineM δ RunOutcome := runWith tickDevices budget

end MachineM

end H8S
