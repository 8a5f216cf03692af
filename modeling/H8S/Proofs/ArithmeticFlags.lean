import H8S.Proofs.Limbs
import Mathlib.Algebra.Group.Int.Defs
import Mathlib.Algebra.Group.Nat.Defs

/-!
# What the flags say of the numbers

A sum is the exact sum of two numbers and a carry, less what has no place in the width.  The carry flag says whether there
was something left over, the half carry says it of the numbers without their top digits (`halfBit_of_sum`,
`halfBit_of_difference`), and the overflow says that the exact sum of the signed numbers is no signed number of the width
(`Representable`).  Differences borrow in the same way.  Steps up and down overflow alike and record no carry.
`flags_by_numbers` puts this together for every width, every carry in and all prior flags.
-/

namespace H8S.Alu

variable {w : Width}

/-- How many numbers all digits but the top one can hold. -/
def lowDigits (w : Width) : Nat := 2 ^ (w.bits.toNat - 4)

/-- The signed numbers of a width. -/
def Representable (w : Width) (x : Int) : Prop := -(half w : Int) ≤ x ∧ x < half w

instance (w : Width) (x : Int) : Decidable (Representable w x) := inferInstanceAs (Decidable (_ ∧ _))

/-- A value is the sum of two numbers and a carry, and the flags say of the exact sums what they ought to. -/
structure IsSum (w : Width) (a b : UInt32) (carry keepZero : Bool) (f : ConditionCodes) (r : Result) : Prop where
  value : r.value.toNat = (limb w a + limb w b + carry.toNat) % 2 ^ w.bits.toNat
  flags : r.flags = { f with
    h := decide (lowDigits w ≤ limb w a % lowDigits w + limb w b % lowDigits w + carry.toNat)
    n := r.value.toNat.testBit (w.bits.toNat - 1)
    z := if keepZero && r.value == 0 then f.z else r.value == 0
    v := !decide (Representable w (signed w a + signed w b + carry.toNat))
    c := decide (2 ^ w.bits.toNat ≤ limb w a + limb w b + carry.toNat) }

/-- A value is the difference of two numbers and a borrow, and the flags say of the exact differences what they ought to. -/
structure IsDifference (w : Width) (a b : UInt32) (borrow keepZero : Bool) (f : ConditionCodes) (r : Result) : Prop where
  value : (r.value.toNat : Int) = ((limb w a : Int) - limb w b - borrow.toNat) % 2 ^ w.bits.toNat
  flags : r.flags = { f with
    h := decide (limb w a % lowDigits w < limb w b % lowDigits w + borrow.toNat)
    n := r.value.toNat.testBit (w.bits.toNat - 1)
    z := if keepZero && r.value == 0 then f.z else r.value == 0
    v := !decide (Representable w (signed w a - signed w b - borrow.toNat))
    c := decide (limb w a < limb w b + borrow.toNat) }

/-- A value is an exact number less what does not fit, and only `N`, `Z` and the overflow are reported. -/
structure IsStep (w : Width) (unsigned signed : Int) (f : ConditionCodes) (r : Result) : Prop where
  value : (r.value.toNat : Int) = unsigned % 2 ^ w.bits.toNat
  flags : r.flags = { f with
    n := r.value.toNat.testBit (w.bits.toNat - 1)
    z := r.value == 0
    v := !decide (Representable w signed) }

theorem two_mul_half (w : Width) : 2 * half w = 2 ^ w.bits.toNat := by cases w <;> rfl

theorem lowDigits_cases (w : Width) :
    half w = 128 ∧ lowDigits w = 16 ∨ half w = 32768 ∧ lowDigits w = 4096 ∨
      half w = 2147483648 ∧ lowDigits w = 268435456 := by
  cases w with
  | byte => exact .inl ⟨rfl, rfl⟩
  | word => exact .inr (.inl ⟨rfl, rfl⟩)
  | long => exact .inr (.inr ⟨rfl, rfl⟩)

/-! ### The half carry -/

theorem getLsbD_eq_decide (p : Nat) (x : UInt32) :
    x.toBitVec.getLsbD p = decide (2 ^ p ≤ x.toNat % (2 * 2 ^ p)) := by
  have hlow := Nat.mod_lt x.toNat (Nat.two_pow_pos p)
  have hsplit : x.toNat % (2 * 2 ^ p) = x.toNat % 2 ^ p + 2 ^ p * (x.toNat / 2 ^ p % 2) := by
    rw [Nat.mul_comm, Nat.mod_mul]
  rw [← BitVec.testBit_toNat, UInt32.toNat_toBitVec, Nat.testBit_eq_decide_div_mod_eq, hsplit, decide_eq_decide]
  rcases Nat.mod_two_eq_zero_or_one (x.toNat / 2 ^ p) with h | h
  · rw [h]
    omega
  · rw [h]
    omega

/-- The place of the half bit. -/
def halfPlace (w : Width) : Nat := w.bits.toNat - 5

theorem two_mul_halfPlace (w : Width) : 2 * 2 ^ halfPlace w = lowDigits w := by cases w <;> rfl

theorem halfBit_eq_getLsbD (w : Width) (x : UInt32) :
    (x &&& w.halfBit != 0) = x.toBitVec.getLsbD (halfPlace w) :=
  meets_eq_getLsbD (by cases w <;> rfl) (by cases w <;> decide)

/-- What low digits hold, twice the half bit being one too many. -/
private theorem mod_lowDigits_lt (x : UInt32) : x.toNat % lowDigits w < 2 * 2 ^ halfPlace w := by
  rw [two_mul_halfPlace]
  exact Nat.mod_lt _ (by cases w <;> decide)

/-- The carries out of a sum have the half bit exactly if the low digits of the sum do not fit. -/
theorem halfBit_of_sum {x y s : UInt32} {c : Nat} (hc : c ≤ 1)
    (hv : s.toNat % lowDigits w = x.toNat % lowDigits w + y.toNat % lowDigits w + c ∨
      s.toNat % lowDigits w + lowDigits w = x.toNat % lowDigits w + y.toNat % lowDigits w + c) :
    (((x &&& y) ||| (x &&& ~~~ s) ||| (y &&& ~~~ s)) &&& w.halfBit != 0) =
      decide (lowDigits w ≤ x.toNat % lowDigits w + y.toNat % lowDigits w + c) := by
  have hplace : halfPlace w < 32 := by cases w <;> decide
  have hcarries := carries_eq (mod_lowDigits_lt x) (mod_lowDigits_lt y) (mod_lowDigits_lt s) hc
    (by rwa [two_mul_halfPlace])
  rw [two_mul_halfPlace] at hcarries
  rw [halfBit_eq_getLsbD, ← hcarries]
  simp only [UInt32.toBitVec_or, UInt32.toBitVec_and, UInt32.toBitVec_not, BitVec.getLsbD_or, BitVec.getLsbD_and,
    BitVec.getLsbD_not, hplace, decide_true, Bool.true_and, getLsbD_eq_decide, two_mul_halfPlace]

/-- The borrows of a difference have the half bit exactly if more is taken from the low digits than they hold. -/
theorem halfBit_of_difference {x y s : UInt32} {c : Nat} (hc : c ≤ 1)
    (hv : s.toNat % lowDigits w + y.toNat % lowDigits w + c = x.toNat % lowDigits w ∨
      s.toNat % lowDigits w + y.toNat % lowDigits w + c = x.toNat % lowDigits w + lowDigits w) :
    (((~~~ x &&& y) ||| (~~~ x &&& s) ||| (y &&& s)) &&& w.halfBit != 0) =
      decide (x.toNat % lowDigits w < y.toNat % lowDigits w + c) := by
  have hplace : halfPlace w < 32 := by cases w <;> decide
  have hborrows := borrows_eq (mod_lowDigits_lt x) (mod_lowDigits_lt y) (mod_lowDigits_lt s) hc
    (by rwa [two_mul_halfPlace])
  rw [halfBit_eq_getLsbD, ← hborrows]
  simp only [UInt32.toBitVec_or, UInt32.toBitVec_and, UInt32.toBitVec_not, BitVec.getLsbD_or, BitVec.getLsbD_and,
    BitVec.getLsbD_not, hplace, decide_true, Bool.true_and, getLsbD_eq_decide, two_mul_halfPlace]

theorem add_half (w : Width) (a b : UInt32) (carry keepZero : Bool) (f : ConditionCodes) :
    (add w a b carry keepZero f).flags.h =
      decide (lowDigits w ≤ limb w a % lowDigits w + limb w b % lowDigits w + carry.toNat) := by
  have hsum := limb_sum w a b carry
  refine halfBit_of_sum (Bool.toNat_le carry) ?_
  change limb w _ % _ = limb w a % _ + limb w b % _ + _ ∨ limb w _ % _ + _ = limb w a % _ + limb w b % _ + _
  have hc := Bool.toNat_le carry
  rcases lowDigits_cases w with ⟨h, hl⟩ | ⟨h, hl⟩ | ⟨h, hl⟩
  · rw [h] at hsum
    rw [hl]
    omega
  · rw [h] at hsum
    rw [hl]
    omega
  · rw [h] at hsum
    rw [hl]
    omega

theorem sub_half (w : Width) (a b : UInt32) (carry keepZero : Bool) (f : ConditionCodes) :
    (sub w a b carry keepZero f).flags.h =
      decide (limb w a % lowDigits w < limb w b % lowDigits w + carry.toNat) := by
  have hdiff := limb_difference w a b carry
  refine halfBit_of_difference (Bool.toNat_le carry) ?_
  change limb w _ % _ + limb w b % _ + _ = limb w a % _ ∨ limb w _ % _ + limb w b % _ + _ = limb w a % _ + _
  have hc := Bool.toNat_le carry
  rcases lowDigits_cases w with ⟨h, hl⟩ | ⟨h, hl⟩ | ⟨h, hl⟩
  · rw [h] at hdiff
    rw [hl]
    omega
  · rw [h] at hdiff
    rw [hl]
    omega
  · rw [h] at hdiff
    rw [hl]
    omega

/-! ### All flags -/

/-- A carry in from outside, and a zero that is not kept, are flags that were so before. -/
theorem add_eq (w : Width) (a b : UInt32) (carry keepZero : Bool) (f : ConditionCodes) :
    add w a b carry keepZero f = add w a b carry true { f with c := carry, z := f.z || !keepZero } := by
  simp [add, arithmeticFlags]

theorem sub_eq (w : Width) (a b : UInt32) (borrow keepZero : Bool) (f : ConditionCodes) :
    sub w a b borrow keepZero f = sub w a b borrow true { f with c := borrow, z := f.z || !keepZero } := by
  simp [sub, arithmeticFlags]

theorem of_carry {s t m : Nat} {c : Bool} (hs : s < m) (h : s + m * c.toNat = t) :
    s = t % m ∧ c = decide (m ≤ t) := by
  subst h
  constructor
  · rw [Nat.add_mul_mod_self_left, Nat.mod_eq_of_lt hs]
  · cases c
    · simpa using hs
    · simp

theorem of_borrow {s m : Nat} {t : Int} {c : Bool} (hs : s < m) (h : (s : Int) = t + m * c.toNat) :
    (s : Int) = t % m ∧ c = decide (t < 0) := by
  obtain rfl : t = s - m * c.toNat := by omega
  constructor
  · rw [Int.sub_mul_emod_self_left, Int.emod_eq_of_lt (by omega) (by omega)]
  · cases c
    · simp
    · simp
      omega

theorem topBit_eq (w : Width) (x : UInt32) : decide (half w ≤ limb w x) = x.toNat.testBit (w.bits.toNat - 1) := by
  rw [← negative_eq_decide, negative_eq_getLsbD, ← BitVec.testBit_toNat]
  rfl

/-- A zero is reported unless it is to leave the flag as it was. -/
private theorem keptZero_eq {w : Width} {keepZero z : Bool} {v : UInt32} (hfits : v.toNat = limb w v) :
    (((z || !keepZero) && limb w v == 0) = if keepZero && v == 0 then z else v == 0) := by
  have hv : (limb w v == 0) = (v == 0) := by
    rw [← hfits, Bool.eq_iff_iff]
    simp [← UInt32.toNat_inj]
  rw [hv]
  cases keepZero <;> cases v == 0 <;> simp

theorem add_isSum (w : Width) (a b : UInt32) (carry keepZero : Bool) (f : ConditionCodes) :
    IsSum w a b carry keepZero f (add w a b carry keepZero f) := by
  have hb : Balances .sum w a b { f with c := carry, z := f.z || !keepZero } (add w a b carry keepZero f) := by
    rw [add_eq]
    exact add_balances w a b _
  have hh := add_half w a b carry keepZero f
  generalize add w a b carry keepZero f = r at hb hh ⊢
  have hvalue := hb.value
  have hoverflow := hb.overflow
  simp only [Carrying.sign, Int.one_mul, ← Int.add_assoc] at hvalue hoverflow
  obtain ⟨hs, hc⟩ := of_carry (c := r.flags.c) (t := limb w a + limb w b + carry.toNat) (limb_lt w r.value)
    (by push_cast [← Int.ofNat_inj]; omega)
  rw [two_mul_half] at hs hc
  refine ⟨hb.fits.trans hs, hb.others.trans ?_⟩
  rw [hh, hc, hb.negative, hb.zero, hoverflow, topBit_eq, keptZero_eq hb.fits]
  rfl

theorem sub_isDifference (w : Width) (a b : UInt32) (borrow keepZero : Bool) (f : ConditionCodes) :
    IsDifference w a b borrow keepZero f (sub w a b borrow keepZero f) := by
  have hb : Balances .difference w a b { f with c := borrow, z := f.z || !keepZero } (sub w a b borrow keepZero f) := by
    rw [sub_eq]
    exact sub_balances w a b _
  have hh := sub_half w a b borrow keepZero f
  generalize sub w a b borrow keepZero f = r at hb hh ⊢
  have hvalue := hb.value
  have hoverflow := hb.overflow
  have hsigned : signed w a + -1 * (signed w b + borrow.toNat) = signed w a - signed w b - borrow.toNat := by omega
  simp only [Carrying.sign, hsigned] at hvalue hoverflow
  obtain ⟨hs, hc⟩ := of_borrow (c := r.flags.c) (t := (limb w a : Int) - limb w b - borrow.toNat) (limb_lt w r.value)
    (by push_cast; omega)
  have hless : (limb w a : Int) - limb w b - borrow.toNat < 0 ↔ limb w a < limb w b + borrow.toNat := by omega
  rw [two_mul_half] at hs
  push_cast at hs
  rw [decide_eq_decide.2 hless] at hc
  refine ⟨(congrArg Nat.cast hb.fits).trans hs, hb.others.trans ?_⟩
  rw [hh, hc, hb.negative, hb.zero, hoverflow, topBit_eq, keptZero_eq hb.fits]
  rfl

/-! ### Steps -/

/-- A step up is a sum whose carries are not recorded. -/
theorem increment_eq {w : Width} {amount : UInt32} (h : negative w amount = false) (hfits : amount ≤ w.mask) (a : UInt32)
    (f : ConditionCodes) :
    let r := add w a amount false false f
    increment w a amount f = ⟨r.value, { f with n := r.flags.n, z := r.flags.z, v := r.flags.v }⟩ := by
  have hmask : ∀ x : UInt32, x &&& w.mask &&& w.mask = x &&& w.mask := fun x => UInt32.toNat_inj.1 (limb_mask w x)
  have hno : false.toUInt32 = 0 := rfl
  simp [increment, add, arithmeticFlags, signFlags, and_mask hfits, h, hmask, hno]

theorem decrement_eq {w : Width} {amount : UInt32} (h : negative w amount = false) (hfits : amount ≤ w.mask) (a : UInt32)
    (f : ConditionCodes) :
    let r := sub w a amount false false f
    decrement w a amount f = ⟨r.value, { f with n := r.flags.n, z := r.flags.z, v := r.flags.v }⟩ := by
  have hmask : ∀ x : UInt32, x &&& w.mask &&& w.mask = x &&& w.mask := fun x => UInt32.toNat_inj.1 (limb_mask w x)
  have hno : false.toUInt32 = 0 := rfl
  simp [decrement, sub, arithmeticFlags, signFlags, and_mask hfits, h, hmask, hno]

/-- What a step goes up or down by is a small number at every width. -/
private theorem amount_small {amount : UInt32} (h : amount = 1 ∨ amount = 2) (w : Width) :
    negative w amount = false ∧ amount ≤ w.mask ∧ limb w amount = amount.toNat ∧ signed w amount = amount.toNat := by
  rcases h with rfl | rfl
  · cases w <;> decide
  · cases w <;> decide

theorem increment_isStep {amount : UInt32} (h : amount = 1 ∨ amount = 2) (w : Width) (a : UInt32) (f : ConditionCodes) :
    IsStep w (limb w a + amount.toNat) (signed w a + amount.toNat) f (increment w a amount f) := by
  obtain ⟨hsign, hfits, hlimb, hsigned⟩ := amount_small h w
  have hsum := add_isSum w a amount false false f
  have hvalue := hsum.value
  have hflags := hsum.flags
  rw [increment_eq hsign hfits]
  rw [hlimb] at hvalue
  constructor
  · simp [hvalue]
  · simp [hflags, hsigned]

theorem decrement_isStep {amount : UInt32} (h : amount = 1 ∨ amount = 2) (w : Width) (a : UInt32) (f : ConditionCodes) :
    IsStep w (limb w a - amount.toNat) (signed w a - amount.toNat) f (decrement w a amount f) := by
  obtain ⟨hsign, hfits, hlimb, hsigned⟩ := amount_small h w
  have hdiff := sub_isDifference w a amount false false f
  have hvalue := hdiff.value
  have hflags := hdiff.flags
  rw [decrement_eq hsign hfits]
  rw [hlimb] at hvalue
  constructor
  · simpa using hvalue
  · simp [hflags, hsigned]

/-- Sums, differences and steps of every width, for all operands, carries and prior flags: the values are the exact results
modulo the width, and each flag says of the exact results what it ought to. -/
theorem flags_by_numbers (w : Width) (a b : UInt32) (carry keepZero : Bool) (f : ConditionCodes) :
    IsSum w a b carry keepZero f (add w a b carry keepZero f) ∧
      IsDifference w a b carry keepZero f (sub w a b carry keepZero f) ∧
      ∀ amount : UInt32, amount = 1 ∨ amount = 2 →
        IsStep w (limb w a + amount.toNat) (signed w a + amount.toNat) f (increment w a amount f) ∧
          IsStep w (limb w a - amount.toNat) (signed w a - amount.toNat) f (decrement w a amount f) :=
  ⟨add_isSum w a b carry keepZero f, sub_isDifference w a b carry keepZero f,
    fun _ h => ⟨increment_isStep h w a f, decrement_isStep h w a f⟩⟩

/-- Two above the largest signed long there is no signed long, and one below the smallest neither. -/
theorem flags_by_numbers_at_ends :
    ((2 : UInt32) = 1 ∨ (2 : UInt32) = 2) ∧
      IsStep .long (0x7FFFFFFF + 2) (0x7FFFFFFF + 2) { c := true } (increment .long 0x7FFFFFFF 2 { c := true }) ∧
      increment .long 0x7FFFFFFF 2 { c := true } = ⟨0x80000001, { n := true, v := true, c := true }⟩ ∧
      IsStep .long (0x80000000 - 1) (-0x80000000 - 1) { z := true } (decrement .long 0x80000000 1 { z := true }) ∧
      decrement .long 0x80000000 1 { z := true } = ⟨0x7FFFFFFF, { v := true }⟩ :=
  ⟨by decide, ((flags_by_numbers .long 0x7FFFFFFF 0 false false { c := true }).2.2 2 (.inr rfl)).1, by decide,
    ((flags_by_numbers .long 0x80000000 0 false false { z := true }).2.2 1 (.inl rfl)).2, by decide⟩

end H8S.Alu
