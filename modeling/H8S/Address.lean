/-!
# The 24-bit address space

Addresses are 32-bit words of which the bus uses the low 24 bits.  `Address.trunc` cuts a word to the address space and
`Address.even` also clears the lowest bit, as instructions lie at even addresses (`trunc_lt`, `even_lt`, `even_mod_two`).
-/

namespace H8S.Address

/-- Number of addressable bytes. -/
def spaceSize : Nat := 0x1000000

def trunc (a : UInt32) : UInt32 := a &&& 0xFFFFFF

def even (a : UInt32) : UInt32 := a &&& 0xFFFFFE

theorem trunc_lt (a : UInt32) : (trunc a).toNat < spaceSize := by
  have h : a.toNat &&& 0xFFFFFF ≤ 0xFFFFFF := Nat.and_le_right
  simp only [trunc, UInt32.toNat_and, spaceSize]
  exact Nat.lt_succ_of_le h

theorem even_lt (a : UInt32) : (even a).toNat < spaceSize := by
  have h : a.toNat &&& 0xFFFFFE ≤ 0xFFFFFE := Nat.and_le_right
  simp only [even, UInt32.toNat_and, spaceSize]
  exact Nat.lt_of_le_of_lt h (by decide)

theorem even_mod_two (a : UInt32) : (even a).toNat % 2 = 0 := by
  have h : (a.toNat &&& 0xFFFFFE) % 2 ^ 1 = a.toNat % 2 ^ 1 &&& 0xFFFFFE % 2 ^ 1 := Nat.and_mod_two_pow
  simp only [even, UInt32.toNat_and]
  simpa using h

/-- First address of the register page, the target of 8-bit absolute addresses. -/
def registerPage : UInt32 := 0xFFFF00

/-- The address that an 8-bit absolute operand names. -/
def ofPageOffset (offset : UInt8) : UInt32 := registerPage ||| offset.toUInt32

end H8S.Address
