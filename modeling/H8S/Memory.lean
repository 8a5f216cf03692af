import Std.Data.HashMap
import H8S.Fault

/-!
# Memory

A memory of a given size, zero where nothing was written.  Accesses at or beyond the size fail; `Memory.store` writes
without looking at the size, and what it stores out of reach is never read.
-/

namespace H8S

structure Memory where
  size : Nat
  written : Std.HashMap UInt32 UInt8 := {}

/-- Why an image cannot be loaded. -/
structure ImageTooLarge where
  offset : UInt32
  len : Nat
  size : Nat
  deriving DecidableEq

def ImageTooLarge.message (e : ImageTooLarge) : String :=
  "image of " ++ toString e.len ++ " bytes at 0x" ++ Hex.address e.offset ++ " does not fit in 0x"
    ++ Hex.minimal e.size ++ " bytes of memory"

namespace Memory

def contains (m : Memory) (addr : UInt32) : Bool := addr.toNat < m.size

/-- The byte at an address, in reach or not. -/
def get (m : Memory) (addr : UInt32) : UInt8 := m.written.getD addr 0

def store (m : Memory) (addr : UInt32) (value : UInt8) : Memory :=
  { m with written := m.written.insert addr value }

theorem get_store (m : Memory) (addr other : UInt32) (value : UInt8) :
    (m.store addr value).get other = if addr = other then value else m.get other := by
  simp [store, get, Std.HashMap.getD_insert]

def storeAll (m : Memory) (addr : UInt32) : List UInt8 → Memory
  | [] => m
  | b :: bs => (m.store addr b).storeAll (addr + 1) bs

def read? (m : Memory) (addr : UInt32) : Except Fault UInt8 :=
  if m.contains addr then .ok (m.get addr) else .error (.outOfRange addr ⟨.read, 8⟩)

def write? (m : Memory) (addr : UInt32) (value : UInt8) : Except Fault Memory :=
  if m.contains addr then .ok (m.store addr value) else .error (.outOfRange addr ⟨.write, 8⟩)

/-- Copies an image into memory, or nothing of it if it does not fit. -/
def load (m : Memory) (offset : UInt32) (image : List UInt8) : Except ImageTooLarge Memory :=
  if offset.toNat + image.length ≤ m.size then .ok (m.storeAll offset image)
  else .error ⟨offset, image.length, m.size⟩

/-- The bytes of a range that lies inside the memory. -/
def slice (m : Memory) (addr : UInt32) (len : Nat) : Option (List UInt8) :=
  if addr.toNat + len ≤ m.size then
    some ((List.range len).map fun k => m.get (addr + k.toUInt32))
  else none

def clear (m : Memory) : Memory := { m with written := {} }

end Memory

end H8S
