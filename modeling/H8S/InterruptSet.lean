/-!
# Sets of interrupts

The interrupts are numbered from 0 to 63 and come in this order.  A set of them is a word with one bit for each.
-/

namespace H8S

structure InterruptSet where
  mask : UInt64 := 0
  deriving DecidableEq, Inhabited

namespace InterruptSet

/-- The set of one interrupt. -/
def bit (n : UInt8) : UInt64 := 1 <<< n.toUInt64

def contains (s : InterruptSet) (n : UInt8) : Bool := s.mask &&& bit n != 0

def insert (s : InterruptSet) (n : UInt8) : InterruptSet := ⟨s.mask ||| bit n⟩

/-- The set with an interrupt that was requested; there is none from 64 on. -/
def request (s : InterruptSet) (n : UInt8) : InterruptSet := if n < 64 then s.insert n else s

def erase (s : InterruptSet) (n : UInt8) : InterruptSet := ⟨s.mask &&& ~~~ bit n⟩

def union (s t : InterruptSet) : InterruptSet := ⟨s.mask ||| t.mask⟩

/-- All interrupts, in their order. -/
def numbers : List UInt8 := (List.range 64).map Nat.toUInt8

def toList (s : InterruptSet) : List UInt8 := if s.mask = 0 then [] else numbers.filter s.contains

theorem toList_eq_filter (s : InterruptSet) : s.toList = numbers.filter s.contains := by
  unfold toList
  split
  · next h => simp [contains, h]
  · rfl

/-- The interrupt that comes first. -/
def lowest? (s : InterruptSet) : Option UInt8 :=
  if s.mask = 0 then none else numbers.find? s.contains

/-! ### The gated interrupts

The interrupts 12 to 17 are gated by an enable register, and a status register shows them.  -/

def firstGated : UInt8 := 12

def isGated (n : UInt8) : Bool := firstGated ≤ n && n < firstGated + 6

/-- The bits of the gated interrupts. -/
def gatedMask : UInt64 := 0x3F000

/-- What the status register shows. -/
def status (s : InterruptSet) : UInt8 := ((s.mask &&& gatedMask) >>> firstGated.toUInt64).toUInt8

/-- The set after a write to the status register: a gated interrupt goes if its bit is zero. -/
def acknowledge (s : InterruptSet) (value : UInt8) : InterruptSet :=
  ⟨s.mask &&& (~~~ gatedMask ||| ((value.toUInt64 <<< firstGated.toUInt64) &&& gatedMask))⟩

/-- Whether a value of the enable register lets a gated interrupt through. -/
def enables (value n : UInt8) : Bool := (value >>> (n - firstGated)) &&& 1 != 0

end InterruptSet

end H8S
