import H8S.Proofs.Comparisons

/-!
# Numbers in words

A word that is no larger than its width holds one number below `2 * half w` (`limb_of_lt`), and read in two's complement
another (`complement`, `signed_eq_complement`); modulo `2 * half w` they are the same.  Machine operations on words are
operations on these numbers: shifts multiply and divide by powers of two, parts of a word that share no bit add up, sign
extension and the conversions between words with and without signs keep the number modulo the width.
-/

namespace H8S

namespace Alu

variable {w : Width} {x k : UInt32} {h v : Nat}

/-- The number in a word that fits. -/
theorem limb_of_lt (hx : x.toNat < 2 * half w) : limb w x = x.toNat := (limb_eq_mod w x).trans (Nat.mod_eq_of_lt hx)

theorem and_mask_of_lt (hx : x.toNat < 2 * half w) : x &&& w.mask = x := UInt32.toNat_inj.1 (limb_of_lt hx)

/-! ### Two's complement -/

/-- A number below `2 * h`, read in two's complement. -/
def complement (h v : Nat) : Int := if h ≤ v then (v : Int) - 2 * h else v

theorem complement_emod (hv : v < 2 * h) : complement h v % (2 * h) = v := by
  unfold complement
  split
  · rw [Int.sub_emod_right, Int.emod_eq_of_lt (by omega) (by omega)]
  · rw [Int.emod_eq_of_lt (by omega) (by omega)]

/-- The number below `2 * h` that goes with a number in two's complement. -/
theorem complement_of_emod {t : Int} (hlo : -(h : Int) ≤ t) (hhi : t < h) (hv : (v : Int) = t % (2 * h)) :
    complement h v = t := by
  unfold complement
  by_cases ht : 0 ≤ t
  · rw [Int.emod_eq_of_lt ht (by omega)] at hv
    rw [if_neg (by omega), hv]
  · rw [← Int.add_emod_right, Int.emod_eq_of_lt (by omega) (by omega)] at hv
    rw [if_pos (by omega), hv]
    omega

theorem complement_mul_emod (m : Int) (hv : v < 2 * h) : complement h v * m % (2 * h) = v * m % (2 * h) := by
  have hlt : (v : Int) % (2 * h) = v := Int.emod_eq_of_lt (by omega) (by omega)
  rw [Int.mul_emod, complement_emod hv, Int.mul_emod (v : Int) m, hlt]

theorem signed_eq_complement (hx : x.toNat < 2 * half w) : signed w x = complement (half w) x.toNat := by
  rw [← limb_of_lt hx]
  rfl

theorem toInt_signExtend (w : Width) (x : UInt32) : (w.signExtend x).toInt32.toInt = signed w x := by
  have h := signExtend_toNat w x
  have hx := limb_lt w x
  have hhalf : half w ≤ 2 ^ 31 := by cases w <;> decide
  have e : (w.signExtend x).toInt32.toInt = ((w.signExtend x).toNat : Int).bmod (2 ^ 32) := by
    rw [← Int32.toInt_toBitVec, UInt32.toBitVec_toInt32, BitVec.toInt_eq_toNat_bmod, UInt32.toNat_toBitVec]
  have hround : (signed w x % 2 ^ 32).bmod (2 ^ 32) = (signed w x).bmod (2 ^ 32) := by
    exact_mod_cast Int.emod_bmod (signed w x) (2 ^ 32)
  rw [e, h, hround]
  unfold signed
  split
  · exact Int.bmod_eq_of_le (by omega) (by omega)
  · exact Int.bmod_eq_of_le (by omega) (by omega)

theorem limb_toUInt32 (w : Width) (a : Int32) : (limb w a.toUInt32 : Int) = a.toInt % (2 * half w) := by
  have hd : (2 * half w : Int) ∣ ((2 ^ 32 : Nat) : Int) := by cases w <;> decide
  have ha : a.toInt = (a.toUInt32.toNat : Int).bmod (2 ^ 32) := by
    rw [← Int32.toInt_toBitVec, BitVec.toInt_eq_toNat_bmod]
    rfl
  rw [ha, ← Int.emod_emod_of_dvd _ hd, Int.bmod_emod, Int.emod_emod_of_dvd _ hd, limb_eq_mod]
  rfl

/-! ### Shifted words -/

theorem limb_shiftLeft (w : Width) (x : UInt32) (hk : k.toNat < 32) :
    limb w (x <<< k) = x.toNat * 2 ^ k.toNat % (2 * half w) := by
  have hd : 2 * half w ∣ 2 ^ 32 := by cases w <;> decide
  rw [limb_eq_mod, UInt32.toNat_shiftLeft, Nat.mod_eq_of_lt hk, Nat.mod_mod_of_dvd _ hd, Nat.shiftLeft_eq]

theorem toNat_shiftRight_of_lt (x : UInt32) (hk : k.toNat < 32) : (x >>> k).toNat = x.toNat / 2 ^ k.toNat := by
  rw [UInt32.toNat_shiftRight, Nat.mod_eq_of_lt hk, Nat.shiftRight_eq_div_pow]

/-- Two parts of a word change places. -/
theorem limb_rotated {a b : UInt32} (hab : a.toNat + b.toNat = w.bits.toNat) (ha : a.toNat < 32) (hb : b.toNat < 32)
    (hx : x.toNat < 2 * half w) :
    limb w (x <<< a ||| x >>> b) = x.toNat % 2 ^ b.toNat * 2 ^ a.toNat + x.toNat / 2 ^ b.toNat := by
  have hd : 2 ^ w.bits.toNat ∣ 2 ^ 32 := by cases w <;> decide
  rw [two_mul_half, ← hab, Nat.pow_add, Nat.mul_comm] at hx
  have hlow : x.toNat / 2 ^ b.toNat < 2 ^ a.toNat := Nat.div_lt_of_lt_mul hx
  have hfits : x.toNat / 2 ^ b.toNat < 2 ^ w.bits.toNat :=
    Nat.lt_of_lt_of_le hlow (Nat.pow_le_pow_right (by decide) (by omega))
  have hhigh : x.toNat <<< a.toNat % 2 ^ 32 % 2 ^ w.bits.toNat = (x.toNat % 2 ^ b.toNat) <<< a.toNat := by
    rw [Nat.mod_mod_of_dvd _ hd, Nat.shiftLeft_eq, Nat.shiftLeft_eq, ← hab, Nat.pow_add, Nat.mul_comm (2 ^ a.toNat),
      Nat.mul_mod_mul_right]
  -- the parts share no bit, so that their union is their sum
  rw [limb_eq_mod, two_mul_half, UInt32.toNat_or, Nat.or_mod_two_pow, UInt32.toNat_shiftLeft, Nat.mod_eq_of_lt ha,
    toNat_shiftRight_of_lt x hb, Nat.mod_eq_of_lt hfits, hhigh, ← Nat.shiftLeft_add_eq_or_of_lt hlow, Nat.shiftLeft_eq]

/-- Words that share no bit. -/
theorem or_toNat {a b : UInt32} {j m : Nat} (ha : a.toNat = 2 ^ j * m) (hb : b.toNat < 2 ^ j) :
    (a ||| b).toNat = a.toNat + b.toNat := by
  rw [UInt32.toNat_or, ha, Nat.two_pow_add_eq_or_of_lt hb]

/-! ### Flags -/

/-- The flags of a number with signs. -/
theorem signFlags_signed (w : Width) (x : UInt32) (f : ConditionCodes) :
    signFlags w x f = { f with n := decide (signed w x < 0), z := decide (signed w x = 0) } := by
  have hx := limb_lt w x
  have hn : negative w x = decide (signed w x < 0) := by
    rw [negative_eq_decide, decide_eq_decide]
    unfold signed
    split
    · omega
    · omega
  have hz : (x &&& w.mask == 0) = decide (signed w x = 0) := by
    rw [limb_eq_zero, Bool.eq_iff_iff, beq_iff_eq, decide_eq_true_iff]
    unfold signed
    split
    · omega
    · omega
  rw [signFlags, hn, hz]

theorem signed_mask (w : Width) (x : UInt32) : signed w (x &&& w.mask) = signed w x := by
  unfold signed
  rw [limb_mask]

end Alu

namespace Registers

/-- A view holds a number of its width. -/
theorem read_toNat_lt (r : Registers) (w : Width) (id : UInt8) : (r.read w id).toNat < 2 * Alu.half w := by
  have h := UInt32.le_iff_toNat_le.1 (r.read_le_mask id w)
  have hmask : w.mask.toNat + 1 = 2 * Alu.half w := by cases w <;> rfl
  omega

@[simp] theorem read_and_mask (r : Registers) (w : Width) (id : UInt8) : r.read w id &&& w.mask = r.read w id :=
  Alu.and_mask_of_lt (r.read_toNat_lt w id)

end Registers

end H8S
