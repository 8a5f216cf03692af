import H8S.DeviceBus

/-!
# What devices on the chip have in common

A device on the chip holds no handle of its machine, and reading it changes nothing.  When it is ticked, it knows at once
what it wants: bytes to be copied and interrupts, in order (`TickRequest`).  Of these its program is made, which ends at the
first copy that fails.
-/

namespace H8S

/-- What a device asks for when it is ticked. -/
inductive TickRequest where
  /-- A byte to be read from one address and written to another. -/
  | copy (src dst : UInt32)
  | interrupt (n : UInt8)
  deriving DecidableEq

namespace TickProgram

variable {δ : Type}

/-- The program that makes some requests in order and then goes on with another; `d` is the device if one of them fails. -/
def requesting (d : δ) : List TickRequest → TickProgram δ → TickProgram δ
  | [], last => last
  | .copy src dst :: requests, last =>
    .read8 src fun
      | .error e => .ends d (.error e)
      | .ok b =>
        .write8 dst b fun
          | .error e => .ends d (.error e)
          | .ok () => requesting d requests last
  | .interrupt n :: requests, last => .raise n (requesting d requests last)

theorem requesting_append (d : δ) (xs ys : List TickRequest) (last : TickProgram δ) :
    requesting d (xs ++ ys) last = requesting d xs (requesting d ys last) := by
  induction xs with
  | nil => rfl
  | cons x xs ih => cases x <;> simp only [List.cons_append, requesting, ih]

/-- The program that only makes some requests. -/
def ofRequests (ticked : δ × List TickRequest) : TickProgram δ :=
  requesting ticked.1 ticked.2 (.ends ticked.1 (.ok ()))

end TickProgram

class ChipDevice (δ : Type) where
  read8 : δ → UInt32 → UInt8
  write8 : δ → UInt32 → UInt8 → δ
  /-- The device at a cycle count, and what it asks for. -/
  tick : δ → UInt64 → δ × List TickRequest

instance {δ : Type} [ChipDevice δ] : Device δ where
  read8 d addr := (ChipDevice.read8 d.device addr, d)
  write8 d addr value := { d with device := ChipDevice.write8 d.device addr value }
  tick d now := .ofRequests (ChipDevice.tick d now)

end H8S
