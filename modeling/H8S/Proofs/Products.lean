import H8S.Proofs.Executions
import H8S.Proofs.WordNumbers

/-!
# Products and quotients

The destination of a multiplication or division is twice as wide as its source.  A product of two numbers of the width has its
place there (`product_range`, `multiply_unsigned`), and sign extension does not change a factor modulo the width, so both
multiplications are exact.  A division writes two numbers of the width, the remainder above the quotient (`stacked`); whether the
destination takes them as a word of two bytes or as two words, it is one write of the double width (`writeQuotient_eq`).

All four operations therefore take one result into one view (`mulDiv_commit`), what the result is being said in numbers
(`Computes`), and what they leave alone follows from what a view holds (`products_exact`).
-/

namespace H8S

namespace Alu

variable {w : Width} {a b y : UInt32}

/-- The double width has room for pairs of numbers of the width. -/
theorem half_double (hw : w ≠ .long) : half w.double = 2 * (half w * half w) := by
  cases w with
  | byte => rfl
  | word => rfl
  | long => exact absurd rfl hw

/-- Half a word is moved by less than a word. -/
theorem bits_lt (hw : w ≠ .long) : w.bits.toNat < 32 := by
  cases w with
  | byte => decide
  | word => decide
  | long => exact absurd rfl hw

/-- A word with one number of a width above another. -/
def stacked (w : Width) (high low : UInt32) : UInt32 := (high &&& w.mask) <<< w.bits ||| (low &&& w.mask)

theorem stacked_toNat (hw : w ≠ .long) (high low : UInt32) :
    (stacked w high low).toNat = limb w high * (2 * half w) + limb w low := by
  have hhigh := limb_lt w high
  have hlow := limb_lt w low
  have hshifted : ((high &&& w.mask) <<< w.bits).toNat = 2 ^ w.bits.toNat * limb w high := by
    have hroom : limb w high * 2 ^ w.bits.toNat < 2 ^ 32 := by
      refine Nat.lt_of_lt_of_le (Nat.mul_lt_mul_of_pos_right hhigh (Nat.two_pow_pos _)) ?_
      cases w with
      | byte => decide
      | word => decide
      | long => exact absurd rfl hw
    rw [UInt32.toNat_shiftLeft, Nat.mod_eq_of_lt (bits_lt hw), Nat.shiftLeft_eq, Nat.mul_comm (2 ^ _)]
    exact Nat.mod_eq_of_lt hroom
  rw [stacked, or_toNat hshifted (by rw [← two_mul_half]; exact hlow), hshifted, ← two_mul_half, Nat.mul_comm]
  rfl

theorem testBit_stacked (hw : w ≠ .long) (high low : UInt32) (i : Nat) :
    (stacked w high low).toNat.testBit i =
      if i < w.bits.toNat then low.toNat.testBit i
      else decide (i < w.bits.toNat + w.bits.toNat) && high.toNat.testBit (i - w.bits.toNat) := by
  have hlow := limb_lt w low
  rw [two_mul_half] at hlow
  rw [stacked_toNat hw, two_mul_half, Nat.mul_comm, Nat.testBit_two_pow_mul_add _ hlow]
  split
  · next hi =>
    rw [limb, Registers.testBit_and_mask, decide_eq_true hi, Bool.true_and]
  · next hi =>
    have hplace : i - w.bits.toNat < w.bits.toNat ↔ i < w.bits.toNat + w.bits.toNat := by omega
    rw [limb, Registers.testBit_and_mask, decide_eq_decide.2 hplace]

end Alu

namespace Registers

open Alu

variable {w : Width} {r : Registers}

/-- A long is written as its two words. -/
private theorem er_write_words (r : Registers) (dst : UInt8) (high low : UInt32) :
    ((r.write .word (dst &&& 7) low).write .word ((dst &&& 7) ||| 8) high).er =
      (r.write .long dst (stacked .word high low)).er := by
  refine er_ext fun k i => ?_
  have hlow : View.Holds ⟨.word, dst &&& 7⟩ k i ↔ cell dst = k ∧ i < 16 := by
    simp [View.Holds, View.low, second_low, cell_low, Width.bits]
  have hhigh : View.Holds ⟨.word, (dst &&& 7) ||| 8⟩ k i ↔ cell dst = k ∧ 16 ≤ i ∧ i < 32 := by
    simp [View.Holds, View.low, second_high, cell_high, cell_low, Width.bits]
  have hlong : View.Holds ⟨.long, dst⟩ k i ↔ cell dst = k ∧ i < 32 := by simp [View.Holds, View.low, Width.bits]
  have hbit : (stacked .word high low).toNat.testBit i =
      if i < 16 then low.toNat.testBit i else decide (i < 32) && high.toNat.testBit (i - 16) :=
    testBit_stacked (by decide) high low i
  -- a bit of the register is that of the low word, of the high word, or of neither
  rw [bit_write, bit_write, bit_write]
  simp only [hlow, hhigh, hlong, View.low, second_low, second_high, Bool.false_eq_true, if_false, if_true, Nat.sub_zero, hbit]
  by_cases hk : cell dst = k
  · by_cases hi : i < 16
    · simp [hk, hi, show ¬16 ≤ i by omega, show i < 32 by omega]
    · by_cases hi' : i < 32
      · simp [hk, hi, hi', show 16 ≤ i by omega]
      · simp [hk, hi, hi']
  · simp [hk]

/-- A quotient and its remainder are the halves of what is written to the destination. -/
theorem writeQuotient_eq (hw : w ≠ .long) (r : Registers) (dst : UInt8) (quotient remainder : UInt32) :
    r.writeQuotient w dst quotient remainder = r.write w.double dst (stacked w remainder quotient) := by
  cases w with
  | byte =>
    have hword : wordOf remainder.toUInt8 quotient.toUInt8 = (stacked .byte remainder quotient).toUInt16 := by
      have hhalf : half .byte = 128 := rfl
      apply UInt16.toNat_inj.1
      rw [Memory.wordOf_toNat, UInt32.toNat_toUInt16, stacked_toNat (by decide), limb_eq_mod, limb_eq_mod, hhalf]
      simp
      omega
    exact congrArg (r.writeWord dst) hword
  | word =>
    show (r.write .word (dst &&& 7) quotient).write .word ((dst &&& 7) ||| 8) remainder = r.write .long dst _
    rw [write_eq .long, ← er_write_words]
    rfl
  | long => exact absurd rfl hw

end Registers

namespace Alu

/-! ### What the results are -/

/-- The halves of `y` hold the remainder and, as far as it fits, the quotient of a division of `x` by `d` without signs. -/
def Divided (w : Width) (x d : Nat) (y : UInt32) : Prop :=
  ∃ q r, x = q * d + r ∧ r < d ∧ limb w (y >>> w.bits) = r ∧ limb w y = q % 2 ^ w.bits.toNat ∧
    (q < 2 ^ w.bits.toNat → limb w y = q)

/-- The same of a division with signs, whose quotient is cut towards zero. -/
def DividedSigned (w : Width) (x d : Int) (y : UInt32) : Prop :=
  ∃ q r, x = q * d + r ∧ r.natAbs < d.natAbs ∧ (r = 0 ∨ r.sign = x.sign) ∧ signed w (y >>> w.bits) = r ∧
    (limb w y : Int) = q % 2 ^ w.bits.toNat ∧ (Representable w q → signed w y = q)

/-- What an operation makes of a source `a`, a destination `b` and the flags `f`: the destination `y` and the flags `g`. -/
def Computes (op : MulDivOp) (w : Width) (a b : UInt32) (f : ConditionCodes) (y : UInt32) (g : ConditionCodes) : Prop :=
  match op with
  | .mulxu => y.toNat = a.toNat * limb w b ∧ g = f
  | .mulxs =>
    signed w.double y = signed w a * signed w b ∧
      g = { f with n := decide (signed w a * signed w b < 0), z := decide (signed w a * signed w b = 0) }
  | .divxu =>
    (if a = 0 then y = b else Divided w b.toNat a.toNat y) ∧
      g = { f with n := a.toNat.testBit (w.bits.toNat - 1), z := a == 0 }
  | .divxs =>
    (if a = 0 then y = b else DividedSigned w (signed w.double b) (signed w a) y) ∧
      g = { f with n := decide (signed w a < 0) != decide (signed w.double b < 0), z := a == 0 }

/-- A zero divisor takes nothing away from the dividend. -/
theorem Computes.of_zero {f g : ConditionCodes} {op : MulDivOp} (h : Computes op w a b f y g)
    (hop : op = .divxu ∨ op = .divxs) (hz : a = 0) : y = b ∧ g.z = true := by
  obtain rfl | rfl := hop
  · obtain ⟨hy, rfl⟩ := h
    exact ⟨(if_pos hz).mp hy, beq_iff_eq.2 hz⟩
  · obtain ⟨hy, rfl⟩ := h
    exact ⟨(if_pos hz).mp hy, beq_iff_eq.2 hz⟩

/-! ### Products -/

theorem signed_range (w : Width) (x : UInt32) : -(half w : Int) ≤ signed w x ∧ signed w x < half w := by
  have h := limb_lt w x
  unfold signed
  split
  · omega
  · omega

/-- The product of two numbers with signs has its place in the double width. -/
theorem product_range (hw : w ≠ .long) (a b : UInt32) :
    -(half w.double : Int) ≤ signed w a * signed w b ∧ signed w a * signed w b < half w.double := by
  obtain ⟨ha, ha'⟩ := signed_range w a
  obtain ⟨hb, hb'⟩ := signed_range w b
  have hpos : (0 : Int) < half w := by exact_mod_cast half_pos w
  have hdouble : (half w.double : Int) = 2 * (half w * half w) := by exact_mod_cast half_double hw
  rw [hdouble]
  constructor
  · nlinarith
  · nlinarith

private theorem two_half_dvd (w : Width) : 2 * half w ∣ 2 ^ 32 := by cases w <;> decide

/-- Modulo the width a sign does not count. -/
theorem signExtend_emod (w w' : Width) (x : UInt32) :
    ((w.signExtend x).toNat : Int) % (2 * half w') = signed w x % (2 * half w') := by
  rw [signExtend_toNat, Int.emod_emod_of_dvd]
  exact_mod_cast two_half_dvd w'

theorem multiply_signed (hw : w ≠ .long) (a b : UInt32) :
    signed w.double (w.signExtend a * w.signExtend b) = signed w a * signed w b := by
  obtain ⟨hlo, hhi⟩ := product_range hw a b
  refine complement_of_emod hlo hhi ?_
  rw [limb_eq_mod, UInt32.toNat_mul, Nat.mod_mod_of_dvd _ (two_half_dvd _)]
  push_cast
  rw [Int.mul_emod, signExtend_emod, signExtend_emod, ← Int.mul_emod]

theorem multiply_unsigned (hw : w ≠ .long) (ha : a.toNat < 2 * half w) (b : UInt32) :
    (a * (b &&& w.mask)).toNat = a.toNat * limb w b ∧ a.toNat * limb w b < 2 * half w.double := by
  have hb := limb_lt w b
  have hproduct : a.toNat * limb w b < 2 * half w.double := by
    rw [half_double hw]
    nlinarith
  have hroom : a.toNat * limb w b < 2 ^ 32 := Nat.lt_of_lt_of_le hproduct (Nat.le_of_dvd (by decide) (two_half_dvd _))
  exact ⟨(UInt32.toNat_mul ..).trans (Nat.mod_eq_of_lt hroom), hproduct⟩

/-! ### Quotients -/

theorem limb_double_stacked (hw : w ≠ .long) (high low : UInt32) :
    (stacked w high low &&& w.double.mask) = stacked w high low := by
  have hhigh := limb_lt w high
  have hlow := limb_lt w low
  have hlt : (stacked w high low).toNat < 2 * half w.double := by
    rw [stacked_toNat hw, half_double hw]
    nlinarith
  exact and_mask_of_lt hlt

theorem limb_stacked (hw : w ≠ .long) (high low : UInt32) : limb w (stacked w high low) = limb w low := by
  rw [limb_eq_mod, stacked_toNat hw, Nat.mul_add_mod_self_right, Nat.mod_eq_of_lt (limb_lt w low)]

theorem stacked_shiftRight (hw : w ≠ .long) (high low : UInt32) : stacked w high low >>> w.bits = high &&& w.mask := by
  apply UInt32.toNat_inj.1
  have hpos := half_pos w
  rw [toNat_shiftRight_of_lt _ (bits_lt hw), ← two_mul_half, stacked_toNat hw, Nat.mul_comm, Nat.mul_add_div (by omega),
    Nat.div_eq_of_lt (limb_lt w low), Nat.add_zero]
  rfl

theorem divided_stacked (hw : w ≠ .long) (ha : a.toNat < 2 * half w) (hne : a ≠ 0) (b : UInt32) :
    Divided w b.toNat a.toNat (stacked w (b % a) (b / a)) := by
  have hpos : 0 < a.toNat := Nat.pos_of_ne_zero fun h => hne (UInt32.toNat_inj.1 h)
  have hlt := Nat.mod_lt b.toNat hpos
  have hlow : limb w (stacked w (b % a) (b / a)) = b.toNat / a.toNat % 2 ^ w.bits.toNat := by
    rw [limb_stacked hw, limb_eq_mod, UInt32.toNat_div, two_mul_half]
  refine ⟨b.toNat / a.toNat, b.toNat % a.toNat, ?_, hlt, ?_, hlow, fun hq => ?_⟩
  · rw [Nat.mul_comm, Nat.div_add_mod]
  · rw [stacked_shiftRight hw, limb_mask, limb_eq_mod, UInt32.toNat_mod, Nat.mod_eq_of_lt (by omega)]
  · rw [hlow, Nat.mod_eq_of_lt hq]

/-- Where the quotient does not even fit into a long it is cut like any other. -/
theorem dividedSigned_stacked (hw : w ≠ .long) {d : Int32} (x : Int32) (hd : d.toInt ≠ 0)
    (hrange : -(half w : Int) ≤ d.toInt ∧ d.toInt < half w) :
    DividedSigned w x.toInt d.toInt (stacked w (x % d).toUInt32 (x / d).toUInt32) := by
  have hdvd : (2 * half w : Int) ∣ ((2 ^ 32 : Nat) : Int) := by exact_mod_cast two_half_dvd w
  have hwidth : (2 * half w : Int) = 2 ^ w.bits.toNat := by exact_mod_cast two_mul_half w
  -- a quotient that does not fit into a long has wrapped already, but by a multiple of the width
  have hlow : (limb w (stacked w (x % d).toUInt32 (x / d).toUInt32) : Int) = x.toInt.tdiv d.toInt % (2 * half w) := by
    rw [limb_stacked hw, limb_toUInt32, Int32.toInt_div, ← Int.emod_emod_of_dvd _ hdvd, Int.bmod_emod,
      Int.emod_emod_of_dvd _ hdvd]
  have hhigh : (limb w (stacked w (x % d).toUInt32 (x / d).toUInt32 >>> w.bits) : Int) =
      x.toInt.tmod d.toInt % (2 * half w) := by
    rw [stacked_shiftRight hw, limb_mask, limb_toUInt32, Int32.toInt_mod]
  have hrem : (x.toInt.tmod d.toInt).natAbs < d.toInt.natAbs := by
    rw [Int.natAbs_tmod]
    exact Nat.mod_lt _ (Int.natAbs_pos.2 hd)
  have hsign := Int.sign_tmod x.toInt d.toInt
  refine ⟨x.toInt.tdiv d.toInt, x.toInt.tmod d.toInt, (Int.tdiv_mul_add_tmod ..).symm, hrem, ?_, ?_, ?_, fun hq => ?_⟩
  · split at hsign
    · exact .inl (Int.sign_eq_zero_iff_zero.1 hsign)
    · exact .inr hsign
  · exact complement_of_emod (by omega) (by omega) hhigh
  · rw [hlow, hwidth]
  · exact complement_of_emod hq.1 hq.2 hlow

/-- Sign extension gives zero only for zero, and a negative number only for a negative one. -/
theorem signExtend_signs (hx : x.toNat < 2 * half w) :
    ((w.signExtend x).toInt32 = 0 ↔ x = 0) ∧ ((w.signExtend x).toInt32 < 0 ↔ signed w x < 0) := by
  constructor
  · rw [← Int32.toInt_inj, toInt_signExtend, ← UInt32.toNat_inj, Int32.toInt_zero, UInt32.toNat_zero,
      signed_eq_complement hx, complement]
    split
    · omega
    · omega
  · rw [Int32.lt_iff_toInt_lt, toInt_signExtend, Int32.toInt_zero]

end Alu

namespace Registers

open Alu

variable {w : Width}

private theorem divideUnsigned_commit (hw : w ≠ .long) (src dst : UInt8) (r : Registers) :
    ∃ result, r.divideUnsigned w src dst = r.commit w.double dst result ∧
      Computes .divxu w (r.read w src) (r.read w.double dst) r.ccr (result.value &&& w.double.mask) result.flags := by
  have ha := r.read_toNat_lt w src
  have hn : negative w (r.read w src) = (r.read w src).toNat.testBit (w.bits.toNat - 1) := by
    rw [negative_eq_decide, topBit_eq]
  unfold divideUnsigned
  simp only [hn]
  by_cases hz : r.read w src = 0
  · refine ⟨⟨r.read w.double dst, _⟩, (if_pos hz).trans (write_read w.double dst).symm, ?_, rfl⟩
    rw [if_pos hz]
    exact r.read_and_mask w.double dst
  · refine ⟨⟨stacked w _ _, _⟩, (if_neg hz).trans (writeQuotient_eq hw _ dst _ _), ?_, rfl⟩
    rw [if_neg hz, limb_double_stacked hw]
    exact divided_stacked hw ha hz _

private theorem divideSigned_commit (hw : w ≠ .long) (src dst : UInt8) (r : Registers) :
    ∃ result, r.divideSigned w src dst = r.commit w.double dst result ∧
      Computes .divxs w (r.read w src) (r.read w.double dst) r.ccr (result.value &&& w.double.mask) result.flags := by
  have ha := r.read_toNat_lt w src
  have hb := r.read_toNat_lt w.double dst
  obtain ⟨hzero, hneg⟩ := signExtend_signs ha
  obtain ⟨-, hneg'⟩ := signExtend_signs hb
  have hz : ((w.signExtend (r.read w src)).toInt32 == 0) = (r.read w src == 0) := by
    rw [Bool.eq_iff_iff, beq_iff_eq, beq_iff_eq, hzero]
  unfold divideSigned
  simp only [decide_eq_decide.2 hneg, decide_eq_decide.2 hneg', hz]
  by_cases h : r.read w src = 0
  · refine ⟨⟨r.read w.double dst, _⟩, (if_pos (hzero.2 h)).trans (write_read w.double dst).symm, ?_, rfl⟩
    rw [if_pos h]
    exact r.read_and_mask w.double dst
  · refine ⟨⟨stacked w _ _, _⟩, (if_neg (mt hzero.1 h)).trans (writeQuotient_eq hw _ dst _ _), ?_, rfl⟩
    have hd : (w.signExtend (r.read w src)).toInt32.toInt ≠ 0 := fun he => h (hzero.1 (Int32.toInt_inj.1 he))
    have hdivided := dividedSigned_stacked hw (w.double.signExtend (r.read w.double dst)).toInt32 hd
      (by rw [toInt_signExtend]; exact signed_range w _)
    rw [toInt_signExtend, toInt_signExtend] at hdivided
    rw [if_neg h, limb_double_stacked hw]
    exact hdivided

/-- Multiplications and divisions take a result into the destination. -/
theorem mulDiv_commit (op : MulDivOp) (hw : w ≠ .long) (src dst : UInt8) (r : Registers) :
    ∃ result, r.mulDiv op w src dst = r.commit w.double dst result ∧
      Computes op w (r.read w src) (r.read w.double dst) r.ccr (result.value &&& w.double.mask) result.flags := by
  cases op with
  | mulxu =>
    obtain ⟨hvalue, hlt⟩ := multiply_unsigned hw (r.read_toNat_lt w src) (r.read w.double dst)
    refine ⟨⟨r.read w src * (r.read w.double dst &&& w.mask), r.ccr⟩, rfl, ?_, rfl⟩
    rw [← hvalue] at hlt ⊢
    exact limb_of_lt hlt
  | mulxs =>
    have hvalue := multiply_signed hw (r.read w src) (r.read w.double dst)
    refine ⟨⟨(w.signExtend (r.read w src) * w.signExtend (r.read w.double dst)) &&& w.double.mask, _⟩, rfl, ?_, ?_⟩
    · rw [signed_mask, signed_mask, hvalue]
    · exact (signFlags_signed _ _ _).trans (by rw [signed_mask, hvalue])
  | divxu => exact divideUnsigned_commit hw src dst r
  | divxs => exact divideSigned_commit hw src dst r

end Registers

namespace CpuM

open Alu

variable {β : Type} [Bus β] {config : Config} {s t u : System β} {op : MulDivOp} {w : Width} {src dst : UInt8}

theorem Executed.mulDiv (h : Executed config (.mulDiv op w src dst) s t) (hw : w ≠ .long) :
    ∃ result, Registers.Committed s.cpu.regs t.cpu.regs w.double dst result ∧
      Computes op w (s.cpu.regs.read w src) (s.cpu.regs.read w.double dst) s.cpu.regs.ccr (t.cpu.regs.read w.double dst)
        t.cpu.regs.ccr := by
  obtain ⟨pc, hregs⟩ := h.registers (g := (·.mulDiv op w src dst)) fun _ => rfl
  obtain ⟨result, hcommit, hcomputes⟩ := Registers.mulDiv_commit op hw src dst { s.cpu.regs with pc := pc }
  have hc := Registers.committed_commit s.cpu.regs pc w.double dst result
  rw [← hcommit, ← hregs] at hc
  refine ⟨result, hc, ?_⟩
  rw [hc.view, hc.ccr]
  exact hcomputes

/-- Multiplications and divisions of every source and destination, wherever they are executed: they end, they compute what
they should, and change nothing beside the destination and their flags; a zero divisor leaves all registers; and a product with
the divisor takes a quotient that fits back to the dividend. -/
theorem products_exact (config : Config) {w : Width} (hw : w ≠ .long) (src dst : UInt8) (s : System β) :
    (∀ op, Ends config (.mulDiv op w src dst) s) ∧
      (∀ op t, Executed config (.mulDiv op w src dst) s t →
        Computes op w (s.cpu.regs.read w src) (s.cpu.regs.read w.double dst) s.cpu.regs.ccr
            (t.cpu.regs.read w.double dst) t.cpu.regs.ccr ∧
          t.cpu.regs.exr = s.cpu.regs.exr ∧
          ∀ k i, ¬View.Holds ⟨w.double, dst⟩ k i → t.cpu.regs.bit k i = s.cpu.regs.bit k i) ∧
      (∀ op t, op = .divxu ∨ op = .divxs → s.cpu.regs.read w src = 0 → Executed config (.mulDiv op w src dst) s t →
        t.cpu.regs.er = s.cpu.regs.er ∧ t.cpu.regs.ccr.z = true) ∧
      ∀ t u, Executed config (.mulDiv .divxu w src dst) s t → Executed config (.mulDiv .mulxu w src dst) t u →
        s.cpu.regs.read w src ≠ 0 → t.cpu.regs.read w src = s.cpu.regs.read w src →
        (s.cpu.regs.read w.double dst).toNat / (s.cpu.regs.read w src).toNat < 2 ^ w.bits.toNat →
        (u.cpu.regs.read w.double dst).toNat + limb w (t.cpu.regs.read w.double dst >>> w.bits) =
          (s.cpu.regs.read w.double dst).toNat := by
  refine ⟨fun op => ends_of_registers (g := (·.mulDiv op w src dst)) fun _ => rfl, ?_, ?_, ?_⟩
  · intro op t ht
    obtain ⟨result, hc, hcomputes⟩ := ht.mulDiv hw
    exact ⟨hcomputes, hc.exr, fun k i => hc.bit⟩
  · intro op t hop hz ht
    obtain ⟨result, hc, hcomputes⟩ := ht.mulDiv hw
    obtain ⟨hview, hflag⟩ := hcomputes.of_zero hop hz
    exact ⟨hc.er_eq hview, hflag⟩
  · intro t u ht hu hz hsame hfits
    obtain ⟨-, -, hdivided, -⟩ := ht.mulDiv hw
    obtain ⟨-, -, hproduct, -⟩ := hu.mulDiv hw
    rw [if_neg hz] at hdivided
    obtain ⟨q, r, hx, hr, hhigh, -, hlow⟩ := hdivided
    have hq : q = (s.cpu.regs.read w.double dst).toNat / (s.cpu.regs.read w src).toNat := by
      rw [hx, Nat.mul_comm, Nat.mul_add_div (by omega), Nat.div_eq_of_lt hr, Nat.add_zero]
    rw [hproduct, hhigh, hlow (hq ▸ hfits), hsame, hx, Nat.mul_comm]

/-- A core with a divisor in its first register and a dividend in its second. -/
def dividing (dividend divisor : UInt32) : System Memory :=
  { cpu := { regs := (({} : Registers).writeLong 0 divisor).writeLong 1 dividend }, bus := { size := 0 } }

/-- A long is divided by a thousand and taken back, and the least number by minus one has no quotient, but an end. -/
theorem products_exact_of_words :
    (∃ t u, Executed {} (.mulDiv .divxu .word 0 1) (dividing 1000003 1000) t ∧ Executed {} (.mulDiv .mulxu .word 0 1) t u ∧
      (u.cpu.regs.read .long 1).toNat + limb .word (t.cpu.regs.read .long 1 >>> 16) = 1000003) ∧
      ∃ v, Executed {} (.mulDiv .divxs .word 0 1) (dividing 0x80000000 0xFFFF) v ∧
        signed .word (v.cpu.regs.read .long 1 >>> 16) = 0 ∧ limb .word (v.cpu.regs.read .long 1) = 0 := by
  have hword : Width.word ≠ .long := by decide
  constructor
  · obtain ⟨hends, -, -, hrestores⟩ := products_exact {} hword 0 1 (dividing 1000003 1000)
    obtain ⟨t, ht⟩ := (hends .divxu).alone ⟨0, .mulDiv .divxu .word 0 1, []⟩ rfl
    obtain ⟨u, hu⟩ := ((products_exact {} hword 0 1 t).1 .mulxu).alone ⟨0, .mulDiv .mulxu .word 0 1, []⟩ rfl
    have h : Executed {} (.mulDiv .divxu .word 0 1) (dividing 1000003 1000) t := .alone _ rfl ht
    have h' : Executed {} (.mulDiv .mulxu .word 0 1) t u := .alone _ rfl hu
    obtain ⟨result, hc, -⟩ := h.mulDiv hword
    exact ⟨t, u, h, h', hrestores t u h h' (by decide) (hc.read_of_ne (by decide)) (by decide)⟩
  · obtain ⟨hends, hcomputes, -⟩ := products_exact {} hword 0 1 (dividing 0x80000000 0xFFFF)
    obtain ⟨v, hv⟩ := (hends .divxs).alone ⟨0, .mulDiv .divxs .word 0 1, []⟩ rfl
    have h : Executed {} (.mulDiv .divxs .word 0 1) (dividing 0x80000000 0xFFFF) v := .alone _ rfl hv
    obtain ⟨⟨hdivided, -⟩, -⟩ := hcomputes .divxs v h
    rw [if_neg (by decide)] at hdivided
    obtain ⟨q, r, hx, hr, -, hhigh, hlow, -⟩ := hdivided
    have hdividend : signed .long ((dividing 0x80000000 0xFFFF).cpu.regs.read .long 1) = -2147483648 := by decide
    have hdivisor : signed .word ((dividing 0x80000000 0xFFFF).cpu.regs.read .word 0) = -1 := by decide
    have hbits : Width.word.bits.toNat = 16 := rfl
    rw [Width.double, hdividend, hdivisor] at hx
    rw [hdivisor] at hr
    rw [hbits] at hlow
    refine ⟨v, h, hhigh.trans (by omega), ?_⟩
    have hq : q = 2147483648 := by omega
    rw [hq] at hlow
    exact_mod_cast hlow

end CpuM

end H8S
