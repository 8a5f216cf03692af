import H8S.AccessTimer
import H8S.Bus
import H8S.Config
import H8S.InterruptSet
import H8S.Registers

/-!
# The core and its actions

The core holds its registers, the interrupts that wait, the cycle counter with the timer of its accesses, and the depth of
calls.  It drives a bus that it does not know; core, bus and trace together are a `System`.  Actions of type `CpuM` may end
in a fault, and what they did before it stays done.
-/

namespace H8S

structure Cpu where
  regs : Registers := {}
  /-- The interrupts that were raised and not entered yet. -/
  pending : InterruptSet := {}
  cycles : UInt64 := 0
  timer : AccessTimer := {}
  sleeping : Bool := false
  /-- Calls and exceptions in progress, which traces show; it stays within 32 bits. -/
  depth : Int := 0
  deriving DecidableEq, Inhabited

structure System (β : Type) where
  cpu : Cpu := {}
  bus : β
  /-- The lines traced so far. -/
  trace : Array String := #[]

abbrev CpuM (β : Type) := ReaderT Config (EStateM Fault (System β))

namespace Cpu

def charged (c : Cpu) (direction : Direction) (addr : UInt32) : Cpu :=
  let (cost, timer) := c.timer.charge direction addr
  { c with cycles := c.cycles + cost, timer := timer }

def entered (c : Cpu) : Cpu := { c with depth := min (c.depth + 1) 2147483647 }

def left (c : Cpu) : Cpu := { c with depth := max (c.depth - 1) (-2147483648) }

/-- Jumps to a target, which is made even and cut to the address space. -/
def jumped (c : Cpu) (target : UInt32) : Cpu := { c with regs := { c.regs with pc := Address.even target } }

end Cpu

namespace CpuM

variable {β α : Type}

def modifyCpu (f : Cpu → Cpu) : CpuM β Unit := modify fun s => { s with cpu := f s.cpu }

def getRegs : CpuM β Registers := return (← get).cpu.regs

def modifyRegs (f : Registers → Registers) : CpuM β Unit := modifyCpu fun c => { c with regs := f c.regs }

def setRegs (r : Registers) : CpuM β Unit := modifyRegs fun _ => r

/-- An action on the bus alone. -/
def onBus (action : BusM β α) : CpuM β α := fun _ ⟨cpu, bus, trace⟩ =>
  match action bus with
  | .ok a bus => .ok a ⟨cpu, bus, trace⟩
  | .error e bus => .error e ⟨cpu, bus, trace⟩

/-- Reports the faults of an action as those of a wider access. -/
def widening (width : Nat) (action : CpuM β α) : CpuM β α := fun config s =>
  match action config s with
  | .ok a s => .ok a s
  | .error e s => .error (e.widen width) s

/-- Goes back to `pc` if the action fails. -/
def retreatingTo (pc : UInt32) (action : CpuM β α) : CpuM β α := fun config s =>
  match action config s with
  | .ok a s => .ok a s
  | .error e s => .error e { s with cpu := { s.cpu with regs := { s.cpu.regs with pc := pc } } }

/-- Cycles spent inside the core. -/
def spend (cycles : UInt64) : CpuM β Unit := modifyCpu fun c => { c with cycles := c.cycles + cycles }

def jump (target : UInt32) : CpuM β Unit := modifyCpu (·.jumped target)

/-- Adds a line to the trace. -/
def traceLine (line : String) : CpuM β Unit := modify fun s => { s with trace := s.trace.push line }

end CpuM

end H8S
