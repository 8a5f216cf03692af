import H8S.Alu.Decimal
import H8S.Proofs.ArithmeticFlags

/-!
# Decimal digits

A byte of two decimal digits shows a number below one hundred (`decimal`).  What the adjustment makes of a binary sum of such
bytes depends on the sums of the digits alone, of which there are so few that the table can be gone through
(`adjusted_sums`, `adjusted_differences`).  After an addition the adjusted byte and the carry are those of the decimal sum.
After a subtraction the byte is right as well, but the carry is that of the addition of the adjustment, which is set if the
low digits alone borrow, too (`Carrying.strays`).  `decimalStep_balances` is the equation of one byte with the carry that is
handed on, for both.
-/

namespace H8S.Alu

/-- The number that the two halves of a byte show as decimal digits. -/
def decimal (x : UInt32) : Nat := 10 * (limb .byte x / 16) + limb .byte x % 16

/-- Both halves of a byte are decimal digits. -/
def IsDecimal (x : UInt32) : Prop := limb .byte x / 16 ≤ 9 ∧ limb .byte x % 16 ≤ 9

instance (x : UInt32) : Decidable (IsDecimal x) := inferInstanceAs (Decidable (_ ∧ _))

theorem decimal_lt {x : UInt32} (h : IsDecimal x) : decimal x < 100 := by
  obtain ⟨hhi, hlo⟩ := h
  unfold decimal
  omega

/-! ### The tables -/

/-- The table for sums, by the sums of the high and of the low digits. -/
private theorem adjusted_sums : ∀ (h : Fin 19) (l : Fin 20),
    let s := 16 * h.val + l.val
    let r := adjustAddition (.ofNat s) { c := decide (256 ≤ s), h := decide (16 ≤ l.val) }
    IsDecimal r.value ∧ decimal r.value + 100 * r.flags.c.toNat = 10 * h.val + l.val := by
  decide

/-- The table for differences, by those of the high digits, nine more than they are, and of the low digits, ten more. -/
private theorem adjusted_differences : ∀ (h : Fin 19) (l : Fin 20),
    let s := 16 * h.val + l.val
    let r := adjustSubtraction (.ofNat (s + 102)) { c := decide (s < 154), h := decide (l.val < 10) }
    IsDecimal r.value ∧ decimal r.value + 100 = 10 * h.val + l.val + 100 * (decide (s < 154)).toNat ∧
      r.flags.c = (decide (l.val < 10) || decide (s < 154)) := by
  decide

/-! ### Bytes -/

namespace Carrying

/-- What makes a byte decimal after a sum or a difference. -/
def adjust : Carrying → UInt8 → ConditionCodes → Result
  | sum => adjustAddition
  | difference => adjustSubtraction

/-- One byte of a decimal sum or difference, from the carry into it to the carry that it hands on. -/
def decimalStep (d : Carrying) (a b : UInt32) (carry : Bool) : UInt32 × Bool :=
  let r := binary d.next .byte a b { c := carry }
  let q := d.adjust r.value.toUInt8 r.flags
  (q.value, q.flags.c)

/-- The low digits borrow though the numbers do not; sums have no such carry. -/
def strays : Carrying → Nat → Nat → Bool → Bool
  | sum, _, _, _ => false
  | difference, a, b, carry => decide (a % 10 < b % 10 + carry.toNat) && !decide (a < b + carry.toNat)

/-- The carry that one byte hands on to the next. -/
def handsOn : Carrying → Nat → Nat → Bool → Bool
  | sum, a, b, carry => decide (100 ≤ a + b + carry.toNat)
  | difference, a, b, carry => decide (a % 10 < b % 10 + carry.toNat) || decide (a < b + carry.toNat)

variable {d : Carrying} {a b : UInt32} {c : Bool}

/-- The adjustment reads the carry and the half carry only. -/
theorem adjust_eq (d : Carrying) (v : UInt8) {f : ConditionCodes} {c h : Bool} (hc : f.c = c) (hh : f.h = h) :
    (d.adjust v f).value = (d.adjust v { c := c, h := h }).value ∧
      (d.adjust v f).flags.c = (d.adjust v { c := c, h := h }).flags.c := by
  subst hc hh
  cases d <;> exact ⟨rfl, rfl⟩

/-- Of the flags before the operation only the carry counts, and of those after it only the carry and the half carry. -/
theorem decimalStep_eq (d : Carrying) (a b : UInt32) {f g : ConditionCodes}
    (hc : g.c = (binary d.next .byte a b f).flags.c) (hh : g.h = (binary d.next .byte a b f).flags.h) :
    let q := d.adjust (binary d.next .byte a b f).value.toUInt8 g
    (q.value, q.flags.c) = d.decimalStep a b f.c := by
  intro q
  let r := binary d.next .byte a b { c := f.c }
  have hvalue : (binary d.next .byte a b f).value = r.value := by cases d <;> rfl
  have hcarry : g.c = r.flags.c := hc.trans (by cases d <;> rfl)
  have hhalf : g.h = r.flags.h := hh.trans (by cases d <;> rfl)
  obtain ⟨hv, hf⟩ := d.adjust_eq r.value.toUInt8 hcarry hhalf
  obtain ⟨hv', hf'⟩ := d.adjust_eq r.value.toUInt8 (f := r.flags) rfl rfl
  simp only [q, hvalue]
  exact Prod.ext (hv.trans hv'.symm) (hf.trans hf'.symm)

private theorem toUInt8_eq_ofNat {v : UInt32} {s : Nat} (h : v.toNat % 256 = s % 256) : v.toUInt8 = .ofNat s := by
  apply UInt8.toNat_inj.1
  simpa using h

/-- An adjusted sum shows the decimal sum, and its carry is that of the decimal sum. -/
theorem sum_step (ha : IsDecimal a) (hb : IsDecimal b) (c : Bool) :
    let r := sum.decimalStep a b c
    IsDecimal r.1 ∧ decimal r.1 + 100 * r.2.toNat = decimal a + decimal b + c.toNat := by
  obtain ⟨hahi, halo⟩ := ha
  obtain ⟨hbhi, hblo⟩ := hb
  have hc := Bool.toNat_le c
  let r := add .byte a b c true { c := c }
  let h := limb .byte a / 16 + limb .byte b / 16
  let l := limb .byte a % 16 + limb .byte b % 16 + c.toNat
  have hsum : IsSum .byte a b c true { c := c } r := add_isSum .byte a b c true _
  have hvalue : r.value.toNat = (limb .byte a + limb .byte b + c.toNat) % 256 := hsum.value
  have hbyte : r.value.toUInt8 = .ofNat (16 * h + l) := toUInt8_eq_ofNat (by omega)
  have hlarge : 256 ≤ limb .byte a + limb .byte b + c.toNat ↔ 256 ≤ 16 * h + l := by omega
  have hcarry : r.flags.c = decide (256 ≤ 16 * h + l) :=
    (congrArg ConditionCodes.c hsum.flags).trans (decide_eq_decide.2 hlarge)
  have hhalf : r.flags.h = decide (16 ≤ l) := congrArg ConditionCodes.h hsum.flags
  let q := sum.adjust (.ofNat (16 * h + l)) { c := decide (256 ≤ 16 * h + l), h := decide (16 ≤ l) }
  obtain ⟨hdecimal, htotal⟩ : IsDecimal q.value ∧ decimal q.value + 100 * q.flags.c.toNat = 10 * h + l :=
    adjusted_sums ⟨h, by omega⟩ ⟨l, by omega⟩
  have hdigits : 10 * h + l = decimal a + decimal b + c.toNat := by
    unfold decimal
    omega
  have hr : sum.decimalStep a b c = (q.value, q.flags.c) := by
    obtain ⟨hv, hf⟩ := sum.adjust_eq r.value.toUInt8 hcarry hhalf
    exact Prod.ext (hv.trans (by rw [hbyte])) (hf.trans (by rw [hbyte]))
  rw [hr]
  exact ⟨hdecimal, htotal.trans hdigits⟩

/-- An adjusted difference shows the decimal difference; its carry is the decimal borrow or that of the low digits. -/
theorem difference_step (ha : IsDecimal a) (hb : IsDecimal b) (c : Bool) :
    let r := difference.decimalStep a b c
    let borrow := decide (decimal a < decimal b + c.toNat)
    IsDecimal r.1 ∧ decimal r.1 + decimal b + c.toNat = decimal a + 100 * borrow.toNat ∧
      r.2 = (decide (decimal a % 10 < decimal b % 10 + c.toNat) || borrow) := by
  obtain ⟨hahi, halo⟩ := ha
  obtain ⟨hbhi, hblo⟩ := hb
  have hc := Bool.toNat_le c
  let r := sub .byte a b c true { c := c }
  -- the differences of the digits, moved up so that they are not negative
  let h := limb .byte a / 16 + 9 - limb .byte b / 16
  let l := limb .byte a % 16 + 10 - (limb .byte b % 16 + c.toNat)
  have hdiff : IsDifference .byte a b c true { c := c } r := sub_isDifference .byte a b c true _
  have hvalue : (r.value.toNat : Int) = ((limb .byte a : Int) - limb .byte b - c.toNat) % 256 := hdiff.value
  have hbyte : r.value.toUInt8 = .ofNat (16 * h + l + 102) := toUInt8_eq_ofNat (by omega)
  have hless : limb .byte a < limb .byte b + c.toNat ↔ 16 * h + l < 154 := by omega
  have hlow : limb .byte a % 16 < limb .byte b % 16 + c.toNat ↔ l < 10 := by omega
  have hcarry : r.flags.c = decide (16 * h + l < 154) :=
    (congrArg ConditionCodes.c hdiff.flags).trans (decide_eq_decide.2 hless)
  have hhalf : r.flags.h = decide (l < 10) := (congrArg ConditionCodes.h hdiff.flags).trans (decide_eq_decide.2 hlow)
  let q := difference.adjust (.ofNat (16 * h + l + 102)) { c := decide (16 * h + l < 154), h := decide (l < 10) }
  obtain ⟨hdecimal, htotal, hborrows⟩ : IsDecimal q.value ∧
      decimal q.value + 100 = 10 * h + l + 100 * (decide (16 * h + l < 154)).toNat ∧
      q.flags.c = (decide (l < 10) || decide (16 * h + l < 154)) :=
    adjusted_differences ⟨h, by omega⟩ ⟨l, by omega⟩
  have hdigits : 10 * h + l + decimal b + c.toNat = decimal a + 100 := by
    unfold decimal
    omega
  have hborrow : decide (decimal a < decimal b + c.toNat) = decide (16 * h + l < 154) := by
    rw [decide_eq_decide]
    unfold decimal
    omega
  have hlowBorrow : decide (decimal a % 10 < decimal b % 10 + c.toNat) = decide (l < 10) := by
    rw [decide_eq_decide]
    unfold decimal
    omega
  have hr : difference.decimalStep a b c = (q.value, q.flags.c) := by
    obtain ⟨hv, hf⟩ := difference.adjust_eq r.value.toUInt8 hcarry hhalf
    exact Prod.ext (hv.trans (by rw [hbyte])) (hf.trans (by rw [hbyte]))
  rw [hr, hborrow, hlowBorrow]
  refine ⟨hdecimal, ?_, hborrows⟩
  show decimal q.value + decimal b + c.toNat = _
  omega

/-- One byte balances with the carry that it hands on, if a borrow of the low digits alone is taken from the next byte. -/
theorem decimalStep_balances (d : Carrying) (ha : IsDecimal a) (hb : IsDecimal b) (c : Bool) :
    let r := d.decimalStep a b c
    IsDecimal r.1 ∧ r.2 = d.handsOn (decimal a) (decimal b) c ∧
      (decimal r.1 : Int) = decimal a + d.sign * (decimal b + c.toNat + 100 * (d.strays (decimal a) (decimal b) c).toNat) -
        d.sign * (100 * r.2.toNat) := by
  intro r
  cases d with
  | sum =>
    obtain ⟨hdecimal, htotal⟩ : IsDecimal r.1 ∧ decimal r.1 + 100 * r.2.toNat = decimal a + decimal b + c.toNat :=
      sum_step ha hb c
    refine ⟨hdecimal, (of_carry (decimal_lt hdecimal) htotal).2, ?_⟩
    simp [sign, strays]
    omega
  | difference =>
    obtain ⟨hdecimal, htotal, hborrows⟩ : IsDecimal r.1 ∧
        decimal r.1 + decimal b + c.toNat = decimal a + 100 * (decide (decimal a < decimal b + c.toNat)).toNat ∧
        r.2 = difference.handsOn (decimal a) (decimal b) c := difference_step ha hb c
    have hcarries : ∀ low borrow : Bool, (low && !borrow).toNat + borrow.toNat = (low || borrow).toNat := by decide
    have hsplit : (difference.strays (decimal a) (decimal b) c).toNat +
        (decide (decimal a < decimal b + c.toNat)).toNat = r.2.toNat := by
      rw [hborrows]
      exact hcarries _ _
    refine ⟨hdecimal, hborrows, ?_⟩
    simp only [sign]
    omega

end Carrying

end H8S.Alu
