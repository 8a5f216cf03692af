import H8S.Decoding.Opcode
import H8S.Listing.Line
import H8S.Memory

/-!
# Listings of a memory

A listing goes through a memory instruction by instruction without changing anything.  Two bytes that begin no instruction
are listed as a word, and the listing ends early where the memory does.
-/

namespace H8S.Listing

/-- A byte that a listing shows, zero out of reach. -/
def shownByte (m : Memory) (addr : UInt32) : UInt8 :=
  match m.read? addr with
  | .ok b => b
  | .error _ => 0

/-- At most `count` lines from an address on. -/
def linesFrom (o : Options) (m : Memory) : Nat → UInt32 → List String
  | 0, _ => []
  | count + 1, addr =>
    match Instruction.decode m.read? addr with
    | .ok i => line o i :: linesFrom o m count i.nextPc
    | .error (.illegalInstruction _ _) =>
      wordLine addr (shownByte m addr) (shownByte m (addr + 1)) :: linesFrom o m count (addr + 2)
    | .error (.outOfRange _ _) => []

def listing (o : Options) (m : Memory) (addr : UInt32) (count : Nat) : List String :=
  linesFrom o m count (Address.even addr)

/-- The long at an address, if all of it lies in the memory. -/
def long? (m : Memory) (addr : Nat) : Option UInt32 :=
  if addr + 4 ≤ 0x100000000 then
    let byte (k : Nat) : Except Fault UInt32 := (m.read? (addr + k).toUInt32).map UInt8.toUInt32
    match byte 0, byte 1, byte 2, byte 3 with
    | .ok a, .ok b, .ok c, .ok d => some (a <<< 24 ||| b <<< 16 ||| c <<< 8 ||| d)
    | _, _, _, _ => none
  else none

/-- At most `count` longs from an address on, with their addresses. -/
def longsFrom (m : Memory) : Nat → Nat → List (UInt32 × UInt32)
  | 0, _ => []
  | count + 1, addr =>
    match long? m addr with
    | some value => (addr.toUInt32, value) :: longsFrom m count (addr + 4)
    | none => []

/-- The longs around a stack pointer: four below it and `words` from it on. -/
def stackLongs (m : Memory) (sp : UInt32) (words : Nat) : List (UInt32 × UInt32) :=
  longsFrom m (words + 4) ((Address.trunc sp).toNat - 16)

end H8S.Listing
