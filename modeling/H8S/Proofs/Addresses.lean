import H8S.Address
import Mathlib.Algebra.Group.Nat.Defs

/-!
# Addresses as numbers

`trunc` is the remainder of an address by the size of the address space, and `even` the even number at or below that.
The long that an exception pushes holds an address in its low three bytes and a byte above them; both parts are found
again as long as the address fits (`even_packed`, `packed_byte`).
-/

namespace H8S.Address

theorem trunc_toNat (a : UInt32) : (trunc a).toNat = a.toNat % spaceSize := by
  unfold trunc
  rw [UInt32.toNat_and]
  exact Nat.and_two_pow_sub_one_eq_mod a.toNat 24

private theorem and_even (n : Nat) : n &&& 0xFFFFFE = n % 2 ^ 24 / 2 * 2 := by
  apply Nat.eq_of_testBit_eq
  intro i
  have hmask : (0xFFFFFE : Nat) = (2 ^ 23 - 1) * 2 := by decide
  rw [Nat.testBit_and, hmask]
  cases i with
  | zero => simp
  | succ i =>
    have h₁ : (2 ^ 23 - 1) * 2 / 2 = 2 ^ 23 - 1 := by decide
    have h₂ : n % 2 ^ 24 / 2 * 2 / 2 = n % 2 ^ 24 / 2 := by omega
    have h₃ : i < 23 ↔ i + 1 < 24 := by omega
    rw [Nat.testBit_succ, Nat.testBit_succ, Nat.testBit_succ, h₁, h₂, Nat.testBit_two_pow_sub_one, ← Nat.testBit_succ,
      ← Nat.testBit_succ, Nat.testBit_mod_two_pow, Bool.and_comm]
    simp only [h₃]

theorem even_toNat (a : UInt32) : (even a).toNat = a.toNat % spaceSize / 2 * 2 := by
  unfold even
  rw [UInt32.toNat_and]
  exact and_even a.toNat

/-- An address where an instruction can lie. -/
def Proper (a : UInt32) : Prop := a.toNat % 2 = 0 ∧ a.toNat < spaceSize

theorem even_proper (a : UInt32) : Proper (even a) := ⟨even_mod_two a, even_lt a⟩

/-- An even address in the address space stays as it is. -/
theorem even_of_even {a : UInt32} (h : a.toNat % 2 = 0) (hlt : a.toNat < spaceSize) : even a = a := by
  apply UInt32.toNat_inj.1
  rw [even_toNat, Nat.mod_eq_of_lt hlt]
  omega

private theorem packed_toNat {a : UInt32} (b : UInt8) (h : a.toNat < spaceSize) :
    (a ||| b.toUInt32 <<< 24).toNat = b.toNat * spaceSize + a.toNat := by
  have hb := b.toNat_lt
  have hs : b.toNat <<< 24 = b.toNat * spaceSize := Nat.shiftLeft_eq _ 24
  have e : (a ||| b.toUInt32 <<< 24).toNat = a.toNat ||| b.toNat <<< 24 % 2 ^ 32 := by
    rw [UInt32.toNat_or, UInt32.toNat_shiftLeft, UInt8.toNat_toUInt32]
    rfl
  rw [e, Nat.mod_eq_of_lt (by unfold spaceSize at hs; omega), Nat.or_comm, ← Nat.shiftLeft_add_eq_or_of_lt h, hs]

/-- The address below a byte. -/
theorem even_packed {a : UInt32} (b : UInt8) (h : a.toNat < spaceSize) (heven : a.toNat % 2 = 0) :
    even (a ||| b.toUInt32 <<< 24) = a := by
  apply UInt32.toNat_inj.1
  rw [even_toNat, packed_toNat b h]
  unfold spaceSize at *
  omega

/-- The byte above an address. -/
theorem packed_byte {a : UInt32} (b : UInt8) (h : a.toNat < spaceSize) :
    ((a ||| b.toUInt32 <<< 24) >>> 24).toUInt8 = b := by
  have hb := b.toNat_lt
  have hp := packed_toNat b h
  have e : ((a ||| b.toUInt32 <<< 24) >>> 24).toUInt8.toNat = (a ||| b.toUInt32 <<< 24).toNat / 2 ^ 24 % 2 ^ 8 := by
    rw [UInt32.toNat_toUInt8, UInt32.toNat_shiftRight, ← Nat.shiftRight_eq_div_pow]
    rfl
  apply UInt8.toNat_inj.1
  rw [e, hp]
  unfold spaceSize at *
  omega

/-- The end of the address space does not fit below the byte, and falls into its lowest bit. -/
theorem packed_byte_of_end {a : UInt32} (b : UInt8) (h : a.toNat = spaceSize) :
    ((a ||| b.toUInt32 <<< 24) >>> 24).toUInt8 = b ||| 1 := by
  have ha : a = 0x1000000 := UInt32.toNat_inj.1 h
  have hb : ((b.toUInt32 <<< 24) >>> 24).toUInt8 = b := by
    have h₀ := packed_byte (a := 0) b (by decide)
    rw [UInt32.zero_or] at h₀
    exact h₀
  -- what is above the low three bytes of the end is one bit
  have h₁ : ((0x1000000 : UInt32) >>> 24).toUInt8 = 1 := rfl
  rw [UInt32.shiftRight_or, UInt32.toUInt8_or, hb, ha, h₁, UInt8.or_comm]

end H8S.Address
