import H8S.Text.Hex

/-!
# Faults of the running core

A step of the core fails for two reasons: the bytes at the program counter are no instruction, or an access lies outside the
memory.  `Fault.message` words both.
-/

namespace H8S

inductive Direction where
  | read
  | write
  deriving DecidableEq, Inhabited

def Direction.word : Direction → String
  | .read => "read"
  | .write => "write"

/-- What was attempted when an access failed; the width counts bits. -/
structure Access where
  direction : Direction
  width : Nat
  deriving DecidableEq, Inhabited

def Access.describe (a : Access) : String := a.direction.word ++ toString a.width

inductive Fault where
  /-- The bytes consumed at `pc` begin no instruction. -/
  | illegalInstruction (pc : UInt32) (bytes : List UInt8)
  | outOfRange (addr : UInt32) (access : Access)
  deriving DecidableEq, Inhabited

namespace Fault

/-- A byte access that failed as a part of a wider one is reported with the wider width. -/
def widen (width : Nat) : Fault → Fault
  | outOfRange addr access => outOfRange addr { access with width := max width access.width }
  | fault => fault

def message : Fault → String
  | illegalInstruction pc bytes => "illegal instruction at 0x" ++ Hex.address pc ++ " [" ++ Hex.spaced bytes ++ "]"
  | outOfRange addr access => "out-of-range " ++ access.describe ++ " at 0x" ++ Hex.long addr

end Fault

/-- What an action comes to, whatever state it leaves. -/
def verdict {σ α : Type} : EStateM.Result Fault σ α → Except Fault α
  | .ok a _ => .ok a
  | .error e _ => .error e

/-- The state that an action leaves, whether it ends or fails. -/
def outcome {ε σ α : Type} : EStateM.Result ε σ α → σ
  | .ok _ s => s
  | .error _ s => s

end H8S
