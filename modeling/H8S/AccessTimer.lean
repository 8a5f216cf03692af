import H8S.Fault

/-!
# Cost of accesses

The external bus is 16 bits wide: the two bytes of an aligned word travel together, so the odd byte is free when the access
before it, in the same direction, was to its even byte.  The same holds on the chip, at a cycle a word.  The byte registers
at the top of the address space and the area between are paid by the byte and break any pair.
-/

namespace H8S

inductive AccessClass where
  /-- Low memory, in words of three cycles. -/
  | external
  /-- Memory and wide registers on the chip, in words of one cycle. -/
  | onChip
  /-- Registers of one byte and one cycle. -/
  | byteRegister
  /-- Chips outside, in bytes of three cycles. -/
  | other
  deriving DecidableEq, Inhabited

namespace AccessClass

def ofAddress (addr : UInt32) : AccessClass :=
  if addr < 0x400000 then external
  else if addr < 0xFFFD10 then other
  else if addr < 0xFFFFA0 then onChip
  else byteRegister

def cycles : AccessClass → UInt64
  | external => 3
  | onChip => 1
  | byteRegister => 1
  | other => 3

/-- Whether the two bytes of a word travel together. -/
def pairs : AccessClass → Bool
  | external | onChip => true
  | byteRegister | other => false

end AccessClass

/-- The last access of each direction that a partner may follow. -/
structure AccessTimer where
  lastRead : Option UInt32 := none
  lastWrite : Option UInt32 := none
  deriving DecidableEq, Inhabited

namespace AccessTimer

def last (t : AccessTimer) : Direction → Option UInt32
  | .read => t.lastRead
  | .write => t.lastWrite

def setLast (t : AccessTimer) (direction : Direction) (addr : Option UInt32) : AccessTimer :=
  match direction with
  | .read => { t with lastRead := addr }
  | .write => { t with lastWrite := addr }

/-- Whether an access follows its partner. -/
def follows (last : Option UInt32) (addr : UInt32) : Bool :=
  match last with
  | some previous => previous &&& 1 == 0 && addr == (previous ||| 1)
  | none => false

/-- The cost of a byte access, and the timer after it. -/
def charge (t : AccessTimer) (direction : Direction) (addr : UInt32) : UInt64 × AccessTimer :=
  let kind := AccessClass.ofAddress addr
  if kind.pairs then
    (if follows (t.last direction) addr then 0 else kind.cycles, t.setLast direction (some addr))
  else (kind.cycles, t.setLast direction none)

end AccessTimer

end H8S
