import H8S.Alu.Arithmetic

/-!
# Sums and differences of limbs

A limb is the part of a word that counts at a width.  The sign bit of a limb says whether it is at least `half` of its range
(`negative_eq_decide`), so the bit formulas for carry, borrow and overflow are comparisons of numbers.  One step of a long
sum or difference is then an equation between numbers with a carry on either side, and what the flags say of it (`Balances`);
the lowest limbs make no exception (`binary_first`).
-/

namespace H8S.Alu

variable {w : Width} {a b x y : UInt32} {f : ConditionCodes}

/-- The lowest value with the sign bit of a width. -/
def half (w : Width) : Nat := w.signBit.toNat

/-- The number that a limb holds. -/
def limb (w : Width) (x : UInt32) : Nat := (x &&& w.mask).toNat

theorem half_pos (w : Width) : 0 < half w := by cases w <;> decide

theorem limb_eq_mod (w : Width) (x : UInt32) : limb w x = x.toNat % (2 * half w) := by
  unfold limb
  rw [UInt32.toNat_and]
  cases w with
  | byte => exact Nat.and_two_pow_sub_one_eq_mod x.toNat 8
  | word => exact Nat.and_two_pow_sub_one_eq_mod x.toNat 16
  | long => exact Nat.and_two_pow_sub_one_eq_mod x.toNat 32

/-- A word that is no larger than a limb is a limb. -/
theorem and_mask (h : x ≤ w.mask) : x &&& w.mask = x := by
  have hle := UInt32.le_iff_toNat_le.1 h
  have hmask : w.mask.toNat + 1 = 2 * half w := by cases w <;> rfl
  have hlt : x.toNat < 2 * half w := by omega
  exact UInt32.toNat_inj.1 ((limb_eq_mod w x).trans (Nat.mod_eq_of_lt hlt))

theorem limb_lt (w : Width) (x : UInt32) : limb w x < 2 * half w := by
  rw [limb_eq_mod]
  exact Nat.mod_lt _ (by have := half_pos w; omega)

theorem limb_mask (w : Width) (x : UInt32) : limb w (x &&& w.mask) = limb w x := by
  rw [limb_eq_mod w (x &&& w.mask)]
  exact Nat.mod_eq_of_lt (limb_lt w x)

/-- The place of the sign bit. -/
def signPlace (w : Width) : Nat := w.bits.toNat - 1

/-- A word meets a mask of one bit exactly if it has that bit. -/
theorem meets_eq_getLsbD {m x : UInt32} {p : Nat} (hm : m.toBitVec = BitVec.twoPow 32 p) (hp : p < 32) :
    (x &&& m != 0) = x.toBitVec.getLsbD p := by
  have e : (x &&& m != 0) = (x.toBitVec &&& m.toBitVec != 0#32) := by
    rw [← UInt32.toBitVec_and]
    simp [bne, BEq.beq, ← UInt32.toBitVec_inj]
  have hne : BitVec.twoPow 32 p ≠ 0#32 := by
    intro h
    have hbit := congrArg (BitVec.getLsbD · p) h
    simp [hp] at hbit
  rw [e, hm, BitVec.and_twoPow]
  cases x.toBitVec.getLsbD p with
  | false => rfl
  | true => simpa using hne

theorem negative_eq_getLsbD (w : Width) (x : UInt32) : negative w x = x.toBitVec.getLsbD (signPlace w) :=
  meets_eq_getLsbD (by cases w <;> rfl) (by cases w <;> decide)

theorem negative_eq_decide (w : Width) (x : UInt32) : negative w x = decide (half w ≤ limb w x) := by
  rw [negative_eq_getLsbD, ← BitVec.testBit_toNat, Nat.testBit_eq_decide_div_mod_eq, limb_eq_mod, decide_eq_decide]
  change x.toNat / 2 ^ signPlace w % 2 = 1 ↔ _
  cases w with
  | byte =>
    show x.toNat / 128 % 2 = 1 ↔ 128 ≤ x.toNat % 256
    omega
  | word =>
    show x.toNat / 32768 % 2 = 1 ↔ 32768 ≤ x.toNat % 65536
    omega
  | long =>
    show x.toNat / 2147483648 % 2 = 1 ↔ 2147483648 ≤ x.toNat % 4294967296
    have := x.toNat_lt
    omega

@[simp] theorem negative_and (w : Width) (x y : UInt32) : negative w (x &&& y) = (negative w x && negative w y) := by
  simp only [negative_eq_getLsbD, UInt32.toBitVec_and, BitVec.getLsbD_and]

@[simp] theorem negative_or (w : Width) (x y : UInt32) : negative w (x ||| y) = (negative w x || negative w y) := by
  simp only [negative_eq_getLsbD, UInt32.toBitVec_or, BitVec.getLsbD_or]

@[simp] theorem negative_not (w : Width) (x : UInt32) : negative w (~~~ x) = !negative w x := by
  have hs : signPlace w < 32 := by cases w <;> decide
  simp only [negative_eq_getLsbD, UInt32.toBitVec_not, BitVec.getLsbD_not, hs, decide_true, Bool.true_and]

@[simp] theorem negative_mask (w : Width) : negative w w.mask = true := by cases w <;> decide

theorem toNat_carry (c : Bool) : c.toUInt32.toNat = c.toNat := by cases c <;> rfl

theorem half_cases (w : Width) : half w = 128 ∨ half w = 32768 ∨ half w = 2147483648 := by
  cases w with
  | byte => exact .inl rfl
  | word => exact .inr (.inl rfl)
  | long => exact .inr (.inr rfl)

/-- A sum of limbs fits, or is one unit of the next limb too large. -/
theorem limb_sum (w : Width) (a b : UInt32) (c : Bool) :
    limb w ((a &&& w.mask) + (b &&& w.mask) + c.toUInt32) = limb w a + limb w b + c.toNat ∨
      limb w ((a &&& w.mask) + (b &&& w.mask) + c.toUInt32) + 2 * half w = limb w a + limb w b + c.toNat := by
  have ha := limb_lt w a
  have hb := limb_lt w b
  have hc := Bool.toNat_le c
  simp only [limb_eq_mod w (_ + _), UInt32.toNat_add, toNat_carry]
  simp only [← limb.eq_1]
  rcases half_cases w with h | h | h
  · rw [h] at ha hb ⊢
    omega
  · rw [h] at ha hb ⊢
    omega
  · rw [h] at ha hb ⊢
    omega

/-- A difference of limbs is not negative, or takes one unit from the next limb. -/
theorem limb_difference (w : Width) (a b : UInt32) (c : Bool) :
    limb w ((a &&& w.mask) - (b &&& w.mask) - c.toUInt32) + limb w b + c.toNat = limb w a ∨
      limb w ((a &&& w.mask) - (b &&& w.mask) - c.toUInt32) + limb w b + c.toNat = limb w a + 2 * half w := by
  have ha := limb_lt w a
  have hb := limb_lt w b
  have hc := Bool.toNat_le c
  simp only [limb_eq_mod w (_ - _), UInt32.toNat_sub, toNat_carry]
  simp only [← limb.eq_1]
  rcases half_cases w with h | h | h
  · rw [h] at ha hb ⊢
    omega
  · rw [h] at ha hb ⊢
    omega
  · rw [h] at ha hb ⊢
    omega

/-- The number that a limb holds in two's complement. -/
def signed (w : Width) (x : UInt32) : Int := if half w ≤ limb w x then (limb w x : Int) - 2 * half w else limb w x

theorem limb_eq_zero (w : Width) (x : UInt32) : (x &&& w.mask == 0) = (limb w x == 0) := by
  rw [Bool.eq_iff_iff]
  simp [limb, ← UInt32.toNat_inj]

/-- A sum or a difference that is taken limb by limb, from the lowest limb on. -/
inductive Carrying where
  | sum
  | difference
  deriving DecidableEq

namespace Carrying

/-- The operation on the lowest limbs. -/
def first : Carrying → AluOp
  | sum => .add
  | difference => .sub

/-- The operation on the limbs above. -/
def next : Carrying → AluOp
  | sum => .addx
  | difference => .subx

def sign : Carrying → Int
  | sum => 1
  | difference => -1

end Carrying

/-- The lowest limbs are combined like the others, with a clear carry and a set `Z`. -/
theorem binary_first (d : Carrying) (w : Width) (a b : UInt32) (f : ConditionCodes) :
    binary d.first w a b f = binary d.next w a b { f with c := false, z := true } := by
  cases d <;> simp [binary, add, sub, arithmeticFlags, Carrying.first, Carrying.next]

/-- The result of one pair of limbs: its value with the carry out of it, and what the flags say of it. -/
structure Balances (d : Carrying) (w : Width) (a b : UInt32) (f : ConditionCodes) (r : Result) : Prop where
  fits : r.value.toNat = limb w r.value
  value : (limb w r.value : Int) = limb w a + d.sign * (limb w b + f.c.toNat) - d.sign * (2 * half w * r.flags.c.toNat)
  zero : r.flags.z = (f.z && limb w r.value == 0)
  negative : r.flags.n = decide (half w ≤ limb w r.value)
  overflow : r.flags.v = !decide (-half w ≤ signed w a + d.sign * (signed w b + f.c.toNat) ∧
    signed w a + d.sign * (signed w b + f.c.toNat) < half w)
  others : r.flags = { f with h := r.flags.h, n := r.flags.n, z := r.flags.z, v := r.flags.v, c := r.flags.c }

/-- A carry leaves a limb exactly if the limbs and the carry into them are too large together. -/
theorem carries_eq {h x y s c : Nat} (hx : x < 2 * h) (hy : y < 2 * h) (hs : s < 2 * h) (hc : c ≤ 1)
    (hv : s = x + y + c ∨ s + 2 * h = x + y + c) :
    (decide (h ≤ x) && decide (h ≤ y) || decide (h ≤ x) && !decide (h ≤ s) || decide (h ≤ y) && !decide (h ≤ s)) =
      decide (2 * h ≤ x + y + c) := by
  rw [Bool.eq_iff_iff]
  simp
  omega

/-- A limb borrows exactly if it is smaller than what is taken away. -/
theorem borrows_eq {h x y s c : Nat} (hx : x < 2 * h) (hy : y < 2 * h) (hs : s < 2 * h) (hc : c ≤ 1)
    (hv : s + y + c = x ∨ s + y + c = x + 2 * h) :
    (!decide (h ≤ x) && decide (h ≤ y) || !decide (h ≤ x) && decide (h ≤ s) || decide (h ≤ y) && decide (h ≤ s)) =
      decide (x < y + c) := by
  rw [Bool.eq_iff_iff]
  simp
  omega

theorem add_balances (w : Width) (a b : UInt32) (f : ConditionCodes) :
    Balances .sum w a b f (add w a b f.c true f) := by
  have ha := limb_lt w a
  have hb := limb_lt w b
  have hc := Bool.toNat_le f.c
  have hv := limb_sum w a b f.c
  have hl := limb_lt w ((a &&& w.mask) + (b &&& w.mask) + f.c.toUInt32)
  constructor
  case fits => exact (limb_mask w _).symm
  case others => rfl
  all_goals simp only [add, arithmeticFlags, negative_or, negative_and, negative_not, negative_mask, limb_eq_zero, limb_mask,
    signed, Bool.and_true, Carrying.sign, Int.one_mul]
  case value =>
    simp only [negative_eq_decide, carries_eq ha hb hl hc hv]
    by_cases h : 2 * half w ≤ limb w a + limb w b + f.c.toNat
    · simp [h]
      omega
    · simp [h]
      omega
  case zero => simp [Bool.and_comm]
  case negative => simp only [negative_eq_decide]
  case overflow =>
    simp only [negative_eq_decide]
    rw [Bool.eq_iff_iff]
    simp
    omega

theorem sub_balances (w : Width) (a b : UInt32) (f : ConditionCodes) :
    Balances .difference w a b f (sub w a b f.c true f) := by
  have ha := limb_lt w a
  have hb := limb_lt w b
  have hc := Bool.toNat_le f.c
  have hv := limb_difference w a b f.c
  have hl := limb_lt w ((a &&& w.mask) - (b &&& w.mask) - f.c.toUInt32)
  constructor
  case fits => exact (limb_mask w _).symm
  case others => rfl
  all_goals simp only [sub, arithmeticFlags, negative_or, negative_and, negative_not, negative_mask, limb_eq_zero, limb_mask,
    signed, Bool.and_true, Carrying.sign]
  case value =>
    simp only [negative_eq_decide, borrows_eq ha hb hl hc hv]
    by_cases h : limb w a < limb w b + f.c.toNat
    · simp [h]
      omega
    · simp [h]
      omega
  case zero => simp [Bool.and_comm]
  case negative => simp only [negative_eq_decide]
  case overflow =>
    simp only [negative_eq_decide]
    rw [Bool.eq_iff_iff]
    simp
    omega

theorem binary_next_balances (d : Carrying) (w : Width) (a b : UInt32) (f : ConditionCodes) :
    Balances d w a b f (binary d.next w a b f) := by
  cases d with
  | sum => exact add_balances w a b f
  | difference => exact sub_balances w a b f

end H8S.Alu
