import H8S.Proofs.Executions
import H8S.Proofs.WordNumbers
import Mathlib.Logic.Function.Iterate

/-!
# Shifts by places

A shift moves a number with the carry by one place (`onePlace`): a bit leaves at one end into the carry, and a bit comes in at the
other end, which the eight operations choose differently.  What follows for any count of places (`places`) is shown by induction:
the carry is the last bit that left (`places_carry`), the values are products and quotients by powers of two and parts that change
places, and as many places the other way undo a rotation (`places_opposite`).

The operations on words reach the same by masks, by two shifts at once, or by a loop.  They are places for the counts that
instructions have (`shiftValue_places`), which settles how one place and two are related and what the flags say
(`shifts_by_places`).
-/

namespace H8S

namespace ShiftOp

/-- Whether the value moves towards its top bit. -/
def leftward : ShiftOp → Bool
  | shal | shll | rotl | rotxl => true
  | shar | shlr | rotr | rotxr => false

/-- Whether the carry is one of the places. -/
def throughCarry : ShiftOp → Bool
  | rotxl | rotxr => true
  | _ => false

/-- The rotation the other way. -/
def opposite? : ShiftOp → Option ShiftOp
  | rotl => some rotr
  | rotr => some rotl
  | rotxl => some rotxr
  | rotxr => some rotxl
  | _ => none

end ShiftOp

namespace Alu

variable {op : ShiftOp} {h p v n i : Nat} {c : Bool} {q q' : Nat × Bool}

/-! ### Places -/

/-- The bit that leaves a number below `2 * h` by one place. -/
def leaving (op : ShiftOp) (h v : Nat) : Bool := if op.leftward then decide (h ≤ v) else decide (v % 2 = 1)

/-- The bit that comes in at the other end. -/
def entering (op : ShiftOp) (h : Nat) (q : Nat × Bool) : Bool :=
  match op with
  | .shal | .shll | .shlr => false
  | .shar => decide (h ≤ q.1)
  | .rotl | .rotr => leaving op h q.1
  | .rotxl | .rotxr => q.2

/-- A number below `2 * h` and a carry, moved by one place. -/
def onePlace (op : ShiftOp) (h : Nat) (q : Nat × Bool) : Nat × Bool :=
  (if op.leftward then (2 * q.1 + (entering op h q).toNat) % (2 * h) else q.1 / 2 + h * (entering op h q).toNat,
    leaving op h q.1)

theorem onePlace_left (hop : op.leftward = true) :
    (onePlace op h q).1 = (2 * q.1 + (entering op h q).toNat) % (2 * h) := if_pos hop

theorem onePlace_right (hop : op.leftward = false) : (onePlace op h q).1 = q.1 / 2 + h * (entering op h q).toNat :=
  if_neg (by simp [hop])

/-- A number and a carry, moved by some places. -/
def places (op : ShiftOp) (h n : Nat) (q : Nat × Bool) : Nat × Bool := (onePlace op h)^[n] q

theorem places_succ (op : ShiftOp) (h n : Nat) (q : Nat × Bool) : places op h (n + 1) q = places op h n (onePlace op h q) :=
  Function.iterate_succ_apply _ n q

theorem places_succ_last (op : ShiftOp) (h n : Nat) (q : Nat × Bool) :
    places op h (n + 1) q = onePlace op h (places op h n q) :=
  Function.iterate_succ_apply' _ n q

theorem onePlace_lt (op : ShiftOp) (hq : q.1 < 2 * h) : (onePlace op h q).1 < 2 * h := by
  cases hop : op.leftward with
  | true =>
    rw [onePlace_left hop]
    exact Nat.mod_lt _ (by omega)
  | false =>
    have hb := Nat.mul_le_mul_left h (Bool.toNat_le (entering op h q))
    rw [onePlace_right hop]
    omega

theorem places_lt (op : ShiftOp) (n : Nat) (hq : q.1 < 2 * h) : (places op h n q).1 < 2 * h := by
  induction n generalizing q with
  | zero => exact hq
  | succ n ih =>
    rw [places_succ]
    exact ih (onePlace_lt op hq)

/-! ### Bits on the way -/

/-- The bit that leaves is that at the end of the number. -/
theorem leaving_eq_testBit (op : ShiftOp) (hv : v < 2 * 2 ^ p) :
    leaving op (2 ^ p) v = v.testBit (if op.leftward then p else 0) := by
  unfold leaving
  split
  · have hlt : v / 2 ^ p < 2 := Nat.div_lt_of_lt_mul (by rwa [Nat.mul_comm])
    have hle : 1 ≤ v / 2 ^ p ↔ 2 ^ p ≤ v := by rw [Nat.le_div_iff_mul_le (Nat.two_pow_pos p), Nat.one_mul]
    rw [Nat.testBit_eq_decide_div_mod_eq, decide_eq_decide, Nat.mod_eq_of_lt hlt, ← hle]
    exact ⟨fun h => Nat.le_antisymm (Nat.le_of_lt_succ hlt) h, fun h => h.ge⟩
  · rw [Nat.testBit_zero]

theorem testBit_onePlace_left (hop : op.leftward = true) (hi : i < p) :
    (onePlace op (2 ^ p) q).1.testBit (i + 1) = q.1.testBit i := by
  have hb := Bool.toNat_lt (entering op (2 ^ p) q)
  have hhalf : (2 * q.1 + (entering op (2 ^ p) q).toNat) / 2 = q.1 := by omega
  rw [onePlace_left hop, ← Nat.pow_succ', Nat.testBit_mod_two_pow, decide_eq_true (Nat.succ_lt_succ hi), Bool.true_and,
    Nat.testBit_succ, hhalf]

theorem testBit_onePlace_right (hop : op.leftward = false) (hq : q.1 < 2 * 2 ^ p) (hi : i < p) :
    (onePlace op (2 ^ p) q).1.testBit i = q.1.testBit (i + 1) := by
  have hlow : q.1 / 2 < 2 ^ p := by omega
  rw [onePlace_right hop, Nat.add_comm, Nat.testBit_two_pow_mul_add _ hlow, if_pos hi, ← Nat.testBit_succ]

/-- What is left of a number after some places is a shift of it. -/
theorem testBit_places_left (hop : op.leftward = true) (hi : i + n ≤ p) :
    (places op (2 ^ p) n q).1.testBit (i + n) = q.1.testBit i := by
  induction n with
  | zero => rfl
  | succ n ih =>
    rw [places_succ_last, ← Nat.add_assoc, testBit_onePlace_left hop (by omega), ih (by omega)]

theorem testBit_places_right (hop : op.leftward = false) (hq : q.1 < 2 * 2 ^ p) (hi : i + n ≤ p) :
    (places op (2 ^ p) n q).1.testBit i = q.1.testBit (i + n) := by
  induction n generalizing i with
  | zero => rfl
  | succ n ih =>
    rw [places_succ_last, testBit_onePlace_right hop (places_lt op n hq) (by omega), ih (by omega)]
    congr 1
    omega

/-- The carry is the last bit that left. -/
theorem places_carry (op : ShiftOp) (hq : q.1 < 2 * 2 ^ p) (hn : n ≤ p) :
    (places op (2 ^ p) (n + 1) q).2 = q.1.testBit (if op.leftward then p - n else n) := by
  have hlast : (places op (2 ^ p) (n + 1) q).2 = leaving op (2 ^ p) (places op (2 ^ p) n q).1 := by
    rw [places_succ_last]
    rfl
  rw [hlast, leaving_eq_testBit op (places_lt op n hq)]
  cases hop : op.leftward with
  | true =>
    have h := testBit_places_left (q := q) (i := p - n) hop (show p - n + n ≤ p by omega)
    rwa [Nat.sub_add_cancel hn] at h
  | false =>
    have h := testBit_places_right (i := 0) hop hq (show 0 + n ≤ p by omega)
    rwa [Nat.zero_add] at h

/-! ### The way back -/

/-- The numbers are the same, and so are the carries if they are places of the rotation. -/
structure Agree (op : ShiftOp) (q q' : Nat × Bool) : Prop where
  value : q.1 = q'.1
  carry : op.throughCarry = true → q.2 = q'.2

theorem Agree.onePlace (hq : Agree op q q') : Agree op (onePlace op h q) (onePlace op h q') where
  value := by
    have he : entering op h q = entering op h q' := by
      cases op with
      | rotxl => exact hq.carry rfl
      | rotxr => exact hq.carry rfl
      | _ => simp only [entering, hq.value]
    unfold Alu.onePlace
    rw [he, hq.value]
  carry _ := congrArg (leaving op h) hq.value

theorem Agree.places (n : Nat) (hq : Agree op q q') : Agree op (places op h n q) (places op h n q') := by
  induction n with
  | zero => exact hq
  | succ n ih =>
    rw [places_succ_last, places_succ_last]
    exact ih.onePlace

/-- The bit that came in is the first to leave on the way back. -/
theorem leaving_onePlace {inv : ShiftOp} (hinv : inv.leftward = !op.leftward) (hq : q.1 < 2 * h) :
    leaving inv h (onePlace op h q).1 = entering op h q := by
  have hb := Bool.toNat_lt (entering op h q)
  unfold leaving
  rw [hinv]
  cases hop : op.leftward with
  | true =>
    have hodd : (2 * q.1 + (entering op h q).toNat) % (2 * h) % 2 = (entering op h q).toNat := by
      rw [Nat.mod_mul_right_mod]
      omega
    rw [onePlace_left hop, hodd]
    cases entering op h q <;> rfl
  | false =>
    have hlow : q.1 / 2 < h := by omega
    rw [onePlace_right hop]
    cases entering op h q
    · simpa using hlow
    · simp

/-- A place back, if the bit that left comes in again. -/
theorem onePlace_back {inv : ShiftOp} (hinv : inv.leftward = !op.leftward) (hq : q.1 < 2 * h)
    (he : entering inv h (onePlace op h q) = leaving op h q.1) :
    onePlace inv h (onePlace op h q) = (q.1, entering op h q) := by
  refine Prod.ext ?_ (leaving_onePlace hinv hq)
  cases hop : op.leftward with
  | true =>
    have hb := Bool.toNat_lt (entering op h q)
    rw [onePlace_right (by rw [hinv, hop]; rfl), he, onePlace_left hop, leaving, if_pos hop]
    by_cases hv : h ≤ q.1
    · rw [decide_eq_true hv, Nat.mod_eq_sub_mod (by omega), Nat.mod_eq_of_lt (by omega), Bool.toNat_true]
      omega
    · rw [decide_eq_false hv, Nat.mod_eq_of_lt (by omega), Bool.toNat_false]
      omega
  | false =>
    have hodd : (decide (q.1 % 2 = 1)).toNat = q.1 % 2 := by
      rcases Nat.mod_two_eq_zero_or_one q.1 with h | h <;> rw [h] <;> rfl
    have hall : 2 * (q.1 / 2 + h * (entering op h q).toNat) + q.1 % 2 = q.1 + 2 * h * (entering op h q).toNat := by
      rw [Nat.mul_add, ← Nat.mul_assoc]
      omega
    rw [onePlace_left (by rw [hinv, hop]; rfl), he, onePlace_right hop, leaving, if_neg (by simp [hop]), hodd, hall,
      Nat.add_mul_mod_self_left, Nat.mod_eq_of_lt hq]

/-- A place back after a rotation. -/
theorem onePlace_opposite {inv : ShiftOp} (hop : op.opposite? = some inv) (hq : q.1 < 2 * h) :
    Agree inv (onePlace inv h (onePlace op h q)) q := by
  have hinv : inv.leftward = !op.leftward := by cases op <;> cases hop <;> rfl
  have hback := leaving_onePlace hinv hq
  have he : entering inv h (onePlace op h q) = leaving op h q.1 := by
    cases op with
    | rotl | rotr => cases hop; exact hback
    | rotxl | rotxr => cases hop; rfl
    | shal | shll | shar | shlr => cases hop
  rw [onePlace_back hinv hq he]
  refine ⟨rfl, fun hc => ?_⟩
  cases op <;> cases hop <;> first | rfl | cases hc

/-- As many places back undo a rotation. -/
theorem places_opposite {inv : ShiftOp} (hop : op.opposite? = some inv) (n : Nat) (hq : q.1 < 2 * h) :
    Agree inv (places inv h n (places op h n q)) q := by
  induction n with
  | zero => exact ⟨rfl, fun _ => rfl⟩
  | succ n ih =>
    have hback := (onePlace_opposite hop (places_lt op n hq)).places (h := h) n
    rw [places_succ, places_succ_last op]
    exact ⟨hback.value.trans ih.value, fun hc => (hback.carry hc).trans (ih.carry hc)⟩

/-! ### Words -/

section Words

variable {w : Width} {x k : UInt32}

theorem bitAt_eq_testBit (x : UInt32) (hk : k.toNat < 32) : bitAt x k = x.toNat.testBit k.toNat := by
  have h := meets_eq_getLsbD (m := 1) (x := x >>> k) (p := 0) (by rfl) (by decide)
  rw [bitAt, h, ← BitVec.testBit_toNat, UInt32.toNat_toBitVec, UInt32.toNat_shiftRight, Nat.mod_eq_of_lt hk,
    Nat.testBit_shiftRight, Nat.add_zero]

/-- The counts of an instruction are places in every width. -/
private theorem count_places (hk : k = 1 ∨ k = 2) (w : Width) :
    0 < k.toNat ∧ k.toNat < 8 ∧ (w.bits - k).toNat = w.bits.toNat - k.toNat ∧ (k - 1).toNat = k.toNat - 1 ∧
      8 ≤ w.bits.toNat ∧ w.bits.toNat ≤ 32 := by
  rcases hk with rfl | rfl <;> cases w <;> decide

theorem toInt32_shift (hk : k = 1 ∨ k = 2) (a : Int32) : (a >>> k.toInt32).toInt = a.toInt / 2 ^ k.toNat := by
  rw [← Int32.toInt_toBitVec, Int32.toBitVec_shiftRight]
  rcases hk with rfl | rfl
  · show (a.toBitVec.sshiftRight 1).toInt = _
    rw [BitVec.toInt_sshiftRight, Int.shiftRight_eq_div_pow]
    rfl
  · show (a.toBitVec.sshiftRight 2).toInt = _
    rw [BitVec.toInt_sshiftRight, Int.shiftRight_eq_div_pow]
    rfl

theorem lowBit_eq (x : UInt32) : (x &&& 1 != 0) = decide (x.toNat % 2 = 1) := by
  rw [meets_eq_getLsbD (m := 1) (p := 0) rfl (by decide), ← BitVec.testBit_toNat, Nat.testBit_zero]
  rfl

/-! ### Shifts of words are places -/

private theorem rotateLeft_place (hx : x.toNat < 2 * half w) (c : Bool) :
    ((rotateLeftThroughCarry w x c).1.toNat, (rotateLeftThroughCarry w x c).2) =
      onePlace .rotxl (half w) (x.toNat, c) := by
  have hc := Bool.toNat_lt c
  have hone : (x <<< 1).toNat = 2 ^ 1 * (x.toNat % 2 ^ 31) := by
    rw [UInt32.toNat_shiftLeft, Nat.shiftLeft_eq]
    show x.toNat * 2 % 2 ^ 32 = _
    omega
  have hsum : (x <<< 1 ||| c.toUInt32).toNat = 2 ^ 1 * (x.toNat % 2 ^ 31) + c.toNat := by
    rw [or_toNat hone (by rw [toNat_carry]; exact hc), hone, toNat_carry]
  have hvalue : limb w (x <<< 1 ||| c.toUInt32) = (2 * x.toNat + c.toNat) % (2 * half w) := by
    rw [limb_eq_mod, hsum]
    rcases half_cases w with h | h | h
    · rw [h]
      omega
    · rw [h]
      omega
    · rw [h]
      omega
  have hcarry : negative w x = decide (half w ≤ x.toNat) := by rw [negative_eq_decide, limb_of_lt hx]
  exact Prod.ext hvalue hcarry

private theorem rotateRight_place (hx : x.toNat < 2 * half w) (c : Bool) :
    ((rotateRightThroughCarry w x c).1.toNat, (rotateRightThroughCarry w x c).2) =
      onePlace .rotxr (half w) (x.toNat, c) := by
  have hhalf : half w = 2 ^ signPlace w * 1 := by cases w <;> rfl
  have hone : (x >>> 1).toNat = x.toNat / 2 := toNat_shiftRight_of_lt x (by decide)
  have hlow : (x >>> 1).toNat < 2 ^ signPlace w := by omega
  have hvalue : (x >>> 1 ||| if c then w.signBit else 0).toNat = x.toNat / 2 + half w * c.toNat := by
    cases c with
    | true =>
      rw [if_pos rfl, UInt32.or_comm, or_toNat hhalf hlow, hone, Nat.add_comm, Bool.toNat_true, Nat.mul_one]
      rfl
    | false => simpa using hone
  exact Prod.ext hvalue (lowBit_eq x)

private theorem repeated_places {step : UInt32 → Bool → UInt32 × Bool} (hx : x.toNat < 2 * half w)
    (hstep : ∀ x c, x.toNat < 2 * half w → ((step x c).1.toNat, (step x c).2) = onePlace op (half w) (x.toNat, c)) :
    ((repeated step n x c).1.toNat, (repeated step n x c).2) = places op (half w) n (x.toNat, c) := by
  induction n generalizing x c with
  | zero => rfl
  | succ n ih =>
    have hfirst := hstep x c hx
    have hvalue : (step x c).1.toNat = (onePlace op (half w) (x.toNat, c)).1 := congrArg Prod.fst hfirst
    have hlt : (step x c).1.toNat < 2 * half w := hvalue.trans_lt (onePlace_lt op hx)
    rw [places_succ, ← hfirst]
    exact ih hlt

/-! ### What places make of a number -/

theorem places_shiftLeft (hop : op = .shal ∨ op = .shll) (hv : v < 2 * h) :
    (places op h n (v, c)).1 = v * 2 ^ n % (2 * h) := by
  induction n with
  | zero => rw [Nat.pow_zero, Nat.mul_one, Nat.mod_eq_of_lt hv]; rfl
  | succ n ih =>
    have hleft : op.leftward = true := by rcases hop with rfl | rfl <;> rfl
    have hin : ∀ q, entering op h q = false := by rcases hop with rfl | rfl <;> exact fun _ => rfl
    rw [places_succ_last, onePlace_left hleft, hin, ih, Bool.toNat_false, Nat.add_zero, Nat.mul_mod_mod, Nat.mul_comm 2,
      Nat.mul_assoc, ← Nat.pow_succ]

theorem places_shlr : (places .shlr h n (v, c)).1 = v / 2 ^ n := by
  induction n with
  | zero => exact (Nat.div_one v).symm
  | succ n ih =>
    rw [places_succ_last, onePlace_right rfl, ih, Nat.div_div_eq_div_mul, ← Nat.pow_succ]
    rfl

theorem complement_places_shar (hv : v < 2 * h) :
    complement h (places .shar h n (v, c)).1 = complement h v / 2 ^ n := by
  induction n with
  | zero => exact (Int.ediv_one _).symm
  | succ n ih =>
    have hlt := places_lt .shar n (q := (v, c)) hv
    have hstep : ∀ q : Nat × Bool, q.1 < 2 * h → complement h (onePlace .shar h q).1 = complement h q.1 / 2 := by
      intro q hq
      rw [onePlace_right rfl]
      unfold complement entering
      by_cases hs : h ≤ q.1
      · simp [hs]
        omega
      · simp [hs]
        omega
    rw [places_succ_last, hstep _ hlt, ih, Int.ediv_ediv_of_nonneg (by positivity), ← Int.pow_succ]

/-- A rotation by one place takes the bit at one end to the other. -/
theorem onePlace_rotl {b r : Nat} (hb : b < 2) (hr : r < h) (hq : q.1 = h * b + r) :
    (onePlace .rotl h q).1 = 2 * r + b := by
  have hleaving : (leaving .rotl h q.1).toNat = b := by
    rw [leaving, if_pos (by decide), hq]
    rcases Nat.lt_succ_iff_lt_or_eq.1 hb with hb | rfl
    · obtain rfl := Nat.lt_one_iff.1 hb
      simpa using hr
    · simp
  have hsum : 2 * (h * b + r) + b = 2 * r + b + 2 * h * b := by ring
  rw [onePlace_left rfl, entering, hleaving, hq, hsum, Nat.add_mul_mod_self_left, Nat.mod_eq_of_lt (by omega)]

theorem onePlace_rotr {b r : Nat} (hb : b < 2) (hq : q.1 = 2 * r + b) : (onePlace .rotr h q).1 = h * b + r := by
  have hleaving : (leaving .rotr h q.1).toNat = b := by
    rw [leaving, if_neg (by decide), hq, Nat.mul_add_mod, Nat.mod_eq_of_lt hb]
    rcases Nat.lt_succ_iff_lt_or_eq.1 hb with hb | rfl
    · obtain rfl := Nat.lt_one_iff.1 hb
      rfl
    · rfl
  have hrest : (2 * r + b) / 2 = r := by omega
  rw [onePlace_right rfl, entering, hleaving, hq, hrest, Nat.add_comm]

/-- A rotation to the left parts a number behind its top `n` bits, and the parts change places. -/
theorem places_rotl {g : Nat} (hg : 2 * h = g * 2 ^ n) (hv : v < 2 * h) :
    (places .rotl h n (v, c)).1 = v % g * 2 ^ n + v / g := by
  induction n generalizing g with
  | zero =>
    have hlt : v < g := by omega
    rw [Nat.mod_eq_of_lt hlt, Nat.div_eq_of_lt hlt, Nat.pow_zero, Nat.mul_one, Nat.add_zero]
    rfl
  | succ n ih =>
    have hg' : h = g * 2 ^ n := by
      rw [Nat.pow_succ, ← Nat.mul_assoc] at hg
      omega
    have hpos : 0 < g := Nat.pos_of_ne_zero fun hz => by simp [hz] at hg; omega
    have htop : v / g < 2 * 2 ^ n := by
      rw [← Nat.pow_succ']
      exact Nat.div_lt_of_lt_mul (hg ▸ hv)
    have hrest : v % g * 2 ^ n + v / g / 2 < h := by
      have hle := Nat.mul_le_mul_right (2 ^ n) (Nat.succ_le_of_lt (Nat.mod_lt v hpos))
      rw [Nat.succ_mul, ← hg'] at hle
      omega
    -- the last bit of the upper part is still at the front of the lower one
    have hparted : (places .rotl h n (v, c)).1 = h * (v / g % 2) + (v % g * 2 ^ n + v / g / 2) := by
      rw [ih (g := g * 2) (by rw [hg']; ring), Nat.mod_mul, ← Nat.div_div_eq_div_mul, hg']
      ring
    rw [places_succ_last, onePlace_rotl (Nat.mod_lt _ (by decide)) hrest hparted, Nat.pow_succ, ← Nat.mul_assoc]
    omega

/-- A rotation to the right parts a number in front of its low `n` bits. -/
theorem places_rotr {g : Nat} (hg : 2 * h = g * 2 ^ n) :
    (places .rotr h n (v, c)).1 = v % 2 ^ n * g + v / 2 ^ n := by
  induction n generalizing g with
  | zero =>
    rw [Nat.pow_zero, Nat.mod_one, Nat.zero_mul, Nat.zero_add, Nat.div_one]
    rfl
  | succ n ih =>
    have hg' : h = g * 2 ^ n := by
      rw [Nat.pow_succ, ← Nat.mul_assoc] at hg
      omega
    have hparted : (places .rotr h n (v, c)).1 = 2 * (v % 2 ^ n * g + v / 2 ^ n / 2) + v / 2 ^ n % 2 := by
      rw [ih (g := g * 2) (by rw [hg']; ring), ← Nat.mul_assoc, Nat.mul_comm (v % 2 ^ n * g)]
      omega
    rw [places_succ_last, onePlace_rotr (Nat.mod_lt _ (by decide)) hparted, Nat.pow_succ, Nat.mod_mul,
      ← Nat.div_div_eq_div_mul, hg']
    ring

private theorem directShift_carry (hop : op.throughCarry = false) (hk : k = 1 ∨ k = 2) (hx : x.toNat < 2 * half w) :
    (shiftValue op w k x c).2 = x.toNat.testBit (if op.leftward then w.bits.toNat - k.toNat else k.toNat - 1) := by
  obtain ⟨hpos, hlt, htop, hlow, hbits, hword⟩ := count_places hk w
  have hleft : bitAt x (w.bits - k) = x.toNat.testBit (w.bits.toNat - k.toNat) := by
    rw [bitAt_eq_testBit x (by omega), htop]
  have hright : bitAt x (k - 1) = x.toNat.testBit (k.toNat - 1) := by rw [bitAt_eq_testBit x (by omega), hlow]
  cases op with
  | shal | shll => exact hleft
  | shar | shlr | rotr => exact hright
  | rotl =>
    have heven : 2 ∣ 2 ^ k.toNat := dvd_pow_self 2 (by omega)
    have hdigit : limb w (x <<< k ||| x >>> (w.bits - k)) % 2 = x.toNat / 2 ^ (w.bits - k).toNat % 2 := by
      rw [limb_rotated (by omega) (by omega) (by omega) hx, Nat.add_mod, Nat.mod_eq_zero_of_dvd (heven.mul_left _)]
      omega
    show bitAt ((x <<< k ||| x >>> (w.bits - k)) &&& w.mask) 0 = x.toNat.testBit (w.bits.toNat - k.toNat)
    rw [bitAt_eq_testBit _ (by decide), ← htop, Nat.testBit_eq_decide_div_mod_eq (x := x.toNat), ← hdigit]
    exact Nat.testBit_zero _
  | rotxl | rotxr => cases hop

private theorem directShift_value (hop : op.throughCarry = false) (hk : k = 1 ∨ k = 2) (hx : x.toNat < 2 * half w) :
    (shiftValue op w k x c).1.toNat = (places op (half w) k.toNat (x.toNat, c)).1 := by
  obtain ⟨hpos, hlt, htop, hlow, hbits, hword⟩ := count_places hk w
  have hsplit : 2 * half w = 2 ^ (w.bits - k).toNat * 2 ^ k.toNat := by
    rw [two_mul_half, ← Nat.pow_add]
    congr 1
    omega
  cases op with
  | shal =>
    rw [places_shiftLeft (.inl rfl) hx]
    exact limb_shiftLeft w x (by omega)
  | shll =>
    rw [places_shiftLeft (.inr rfl) hx]
    exact limb_shiftLeft w x (by omega)
  | shlr =>
    rw [places_shlr]
    exact toNat_shiftRight_of_lt x (by omega)
  | rotl =>
    rw [places_rotl hsplit hx]
    exact limb_rotated (by omega) (by omega) (by omega) hx
  | rotr =>
    rw [places_rotr hsplit, ← limb_rotated (by omega) (by omega) (by omega) hx, UInt32.or_comm]
    rfl
  | shar =>
    have hlast := places_lt .shar k.toNat (q := (x.toNat, c)) hx
    have hvalue : (limb w ((w.signExtend x).toInt32 >>> k.toInt32).toUInt32 : Int) =
        (places .shar (half w) k.toNat (x.toNat, c)).1 := by
      rw [limb_toUInt32, toInt32_shift hk, toInt_signExtend, signed_eq_complement hx,
        ← complement_places_shar hx, complement_emod hlast]
    exact Int.natCast_inj.1 hvalue
  | rotxl | rotxr => cases hop

/-- The last bit that leaves a word. -/
theorem places_lastBit (op : ShiftOp) (hk : k = 1 ∨ k = 2) (hx : x.toNat < 2 * half w) (c : Bool) :
    (places op (half w) k.toNat (x.toNat, c)).2 =
      x.toNat.testBit (if op.leftward then w.bits.toNat - k.toNat else k.toNat - 1) := by
  obtain ⟨hpos, hlt, htop, hlow, hbits, hword⟩ := count_places hk w
  have hhalf : half w = 2 ^ signPlace w := by cases w <;> rfl
  have hplace : signPlace w = w.bits.toNat - 1 := rfl
  have h := places_carry (p := signPlace w) (n := k.toNat - 1) (q := (x.toNat, c)) op (hhalf ▸ hx) (by omega)
  rw [Nat.sub_add_cancel hpos, ← hhalf] at h
  rw [h]
  congr 2
  omega

/-- A shift of a word by the count of an instruction moves the number in it and the carry by as many places. -/
theorem shiftValue_places (op : ShiftOp) (hk : k = 1 ∨ k = 2) (hx : x.toNat < 2 * half w) (c : Bool) :
    ((shiftValue op w k x c).1.toNat, (shiftValue op w k x c).2) = places op (half w) k.toNat (x.toNat, c) := by
  cases hop : op.throughCarry with
  | true =>
    cases op with
    | rotxl => exact repeated_places hx fun x c h => rotateLeft_place h c
    | rotxr => exact repeated_places hx fun x c h => rotateRight_place h c
    | _ => cases hop
  | false =>
    exact Prod.ext (directShift_value hop hk hx) ((directShift_carry hop hk hx).trans (places_lastBit op hk hx c).symm)

/-! ### What a shift says of the numbers -/

/-- The bits from `m` on are all alike exactly if the number is so small that `d` times as much has its place. -/
theorem alike_iff_fits {m d : Nat} (hm : 0 < m) (hd : 0 < d) (hh : h = m * d) (hv : v < 2 * h) :
    v / m = 0 ∨ v / m = 2 * d - 1 ↔ -(h : Int) ≤ complement h v * d ∧ complement h v * d < h := by
  have hle : m ≤ h := hh ▸ Nat.le_mul_of_pos_right m hd
  have hscale : (h : Int) = m * d := by exact_mod_cast hh
  have hd' : (0 : Int) < d := by exact_mod_cast hd
  have hlow : -(h : Int) ≤ complement h v * d ↔ -(m : Int) ≤ complement h v := by
    rw [hscale, ← Int.neg_mul, mul_le_mul_iff_of_pos_right hd']
  have hhigh : complement h v * d < h ↔ complement h v < m := by
    rw [hscale, mul_lt_mul_iff_of_pos_right hd']
  have hzero : v / m = 0 ↔ v < m := Nat.div_eq_zero_iff_lt hm
  have hones : 2 * d - 1 ≤ v / m ↔ 2 * h - m ≤ v := by
    rw [Nat.le_div_iff_mul_le hm, Nat.sub_mul, Nat.one_mul, hh, Nat.mul_comm m, Nat.mul_assoc]
  have hmost : v / m < 2 * d := Nat.div_lt_of_lt_mul (by rw [hh] at hv; rwa [Nat.mul_left_comm] at hv)
  rw [hlow, hhigh, hzero]
  unfold complement
  split
  · omega
  · omega

/-- The bits that pass the sign are like it exactly if the product has its place among the signed numbers. -/
theorem shiftOverflows_eq (hk : k = 1 ∨ k = 2) (hx : x.toNat < 2 * half w) :
    shiftOverflows w k x = !decide (Representable w (signed w x * 2 ^ k.toNat)) := by
  have hsplit : half w = 2 ^ (w.bits - 1 - k).toNat * 2 ^ k.toNat := by
    rcases hk with rfl | rfl <;> cases w <;> rfl
  have htop : (x >>> (w.bits - 1 - k)).toNat = x.toNat / 2 ^ (w.bits - 1 - k).toNat :=
    toNat_shiftRight_of_lt x (by rcases hk with rfl | rfl <;> cases w <;> decide)
  have hones : ((1 : UInt32) <<< (k + 1) - 1).toNat = 2 * 2 ^ k.toNat - 1 := by
    rcases hk with rfl | rfl <;> rfl
  have hdiffers : ∀ a b : UInt32, (a != b) = !decide (a.toNat = b.toNat) := by
    intro a b
    rw [Bool.eq_iff_iff]
    simp [← UInt32.toNat_inj]
  have hfits : x.toNat / 2 ^ (w.bits - 1 - k).toNat = 0 ∨ x.toNat / 2 ^ (w.bits - 1 - k).toNat = 2 * 2 ^ k.toNat - 1 ↔
      Representable w (signed w x * 2 ^ k.toNat) := by
    rw [signed_eq_complement hx, Representable]
    exact_mod_cast alike_iff_fits (Nat.two_pow_pos _) (Nat.two_pow_pos k.toNat) hsplit hx
  unfold shiftOverflows
  simp only
  rw [hdiffers, hdiffers, htop, hones, ← Bool.not_or, ← Bool.decide_or, UInt32.toNat_zero, decide_eq_decide.2 hfits]

/-- What a shift by `n` places makes of a value `x` with the flags `f`: a value `y` with the flags `g`. -/
structure IsShift (op : ShiftOp) (w : Width) (n : Nat) (x y : UInt32) (f g : ConditionCodes) : Prop where
  /-- The carry is the last bit that leaves. -/
  carry : g.c = x.toNat.testBit (if op.leftward then w.bits.toNat - n else n - 1)
  sign : g.n = y.toNat.testBit (w.bits.toNat - 1)
  zero : g.z = (y == 0)
  overflow : g.v = (op = .shal && !decide (Representable w (signed w x * 2 ^ n)))
  others : g = { f with n := g.n, z := g.z, v := g.v, c := g.c }
  product : op = .shal → g.v = false → signed w y = signed w x * 2 ^ n
  logical : op = .shlr → y.toNat = x.toNat / 2 ^ n
  arithmetic : op = .shar → signed w y = (signed w x).fdiv (2 ^ n)

variable {n : UInt8}

private theorem count_toUInt32 (hn : n = 1 ∨ n = 2) : (n.toUInt32 = 1 ∨ n.toUInt32 = 2) ∧ n.toUInt32.toNat = n.toNat := by
  rcases hn with rfl | rfl <;> decide

/-- The value of a shift and its carry are the operand and the carry, moved by places. -/
theorem shift_places (op : ShiftOp) (hn : n = 1 ∨ n = 2) (hx : x.toNat < 2 * half w) (f : ConditionCodes) :
    ((shift op w n x f).value.toNat, (shift op w n x f).flags.c) = places op (half w) n.toNat (x.toNat, f.c) := by
  obtain ⟨hk, htoNat⟩ := count_toUInt32 hn
  have h := shiftValue_places op hk hx f.c
  have hmask : x &&& w.mask = x := and_mask_of_lt hx
  rw [← htoNat, ← h]
  unfold shift
  simp only [hmask]

theorem shift_value_lt (op : ShiftOp) (hn : n = 1 ∨ n = 2) (hx : x.toNat < 2 * half w) (f : ConditionCodes) :
    (shift op w n x f).value.toNat < 2 * half w := by
  have h := places_lt op n.toNat (q := (x.toNat, f.c)) hx
  rwa [← shift_places op hn hx f] at h

theorem shift_overflow (op : ShiftOp) (hn : n = 1 ∨ n = 2) (hx : x.toNat < 2 * half w) (f : ConditionCodes) :
    (shift op w n x f).flags.v = (op = .shal && !decide (Representable w (signed w x * 2 ^ n.toNat))) := by
  obtain ⟨hk, htoNat⟩ := count_toUInt32 hn
  have h := shiftOverflows_eq hk hx
  have hmask : x &&& w.mask = x := and_mask_of_lt hx
  rw [← htoNat, ← h]
  unfold shift
  simp only [hmask]

theorem shift_isShift (op : ShiftOp) (hn : n = 1 ∨ n = 2) (hx : x.toNat < 2 * half w) (f : ConditionCodes) :
    IsShift op w n.toNat x (shift op w n x f).value f (shift op w n x f).flags := by
  obtain ⟨hk, htoNat⟩ := count_toUInt32 hn
  have hplaces := shift_places op hn hx f
  have hvalue : (shift op w n x f).value.toNat = (places op (half w) n.toNat (x.toNat, f.c)).1 := congrArg Prod.fst hplaces
  have hcarry : (shift op w n x f).flags.c = (places op (half w) n.toNat (x.toNat, f.c)).2 := congrArg Prod.snd hplaces
  have hy := shift_value_lt op hn hx f
  have hv := shift_overflow op hn hx f
  constructor
  case carry => rw [hcarry, ← htoNat, places_lastBit op hk hx]
  case sign =>
    rw [← topBit_eq, ← negative_eq_decide]
    rfl
  case zero =>
    have hmask : (shift op w n x f).value &&& w.mask = (shift op w n x f).value := and_mask_of_lt hy
    rw [← hmask]
    rfl
  case overflow => exact hv
  case others => rfl
  case product =>
    rintro rfl hclear
    rw [hv] at hclear
    have hfits : Representable w (signed w x * 2 ^ n.toNat) := by simpa using hclear
    rw [signed_eq_complement hy]
    refine complement_of_emod hfits.1 hfits.2 ?_
    rw [signed_eq_complement hx, complement_mul_emod _ hx, hvalue, places_shiftLeft (.inl rfl) hx]
    push_cast
    rfl
  case logical =>
    rintro rfl
    rw [hvalue, places_shlr]
  case arithmetic =>
    rintro rfl
    rw [signed_eq_complement hy, hvalue, complement_places_shar hx, ← signed_eq_complement hx,
      Int.fdiv_eq_ediv_of_nonneg _ (by positivity)]

/-- Four times a number has its place exactly if twice the number has, and twice that. -/
private theorem representable_four {s t : Int} (h : Representable w (s * 2 ^ 1) → t = s * 2 ^ 1) :
    Representable w (s * 2 ^ 2) ↔ Representable w (s * 2 ^ 1) ∧ Representable w (t * 2 ^ 1) := by
  unfold Representable at *
  constructor
  · intro h₄
    have h₂ : -(half w : Int) ≤ s * 2 ^ 1 ∧ s * 2 ^ 1 < half w := by omega
    have ht := h h₂
    exact ⟨h₂, by omega⟩
  · rintro ⟨h₂, ht₂⟩
    have ht := h h₂
    omega

/-- Two places are one place and one place more, with an overflow if either has one. -/
theorem shift_two (op : ShiftOp) (hx : x.toNat < 2 * half w) (f : ConditionCodes) :
    let a := shift op w 1 x f
    let b := shift op w 1 a.value a.flags
    shift op w 2 x f = ⟨b.value, { b.flags with v := op = .shal && (a.flags.v || b.flags.v) }⟩ := by
  intro a b
  have hone : (1 : UInt8) = 1 ∨ (1 : UInt8) = 2 := .inl rfl
  have htwo : (2 : UInt8) = 1 ∨ (2 : UInt8) = 2 := .inr rfl
  have hlt := shift_value_lt op hone hx f
  have ha : IsShift op w 1 x a.value f a.flags := shift_isShift op hone hx f
  have hb : IsShift op w 1 a.value b.value a.flags b.flags := shift_isShift op hone hlt a.flags
  have hplaces : ((shift op w 2 x f).value.toNat, (shift op w 2 x f).flags.c) = (b.value.toNat, b.flags.c) := by
    rw [shift_places op htwo hx f, shift_places op hone hlt a.flags, shift_places op hone hx f]
    exact places_succ op (half w) 1 _
  have hboth : IsShift op w 2 x (shift op w 2 x f).value f (shift op w 2 x f).flags := shift_isShift op htwo hx f
  generalize shift op w 2 x f = r at hplaces hboth ⊢
  obtain ⟨value, flags⟩ := r
  obtain ⟨htoNat, hcarry⟩ := Prod.mk.inj hplaces
  obtain rfl : value = b.value := UInt32.toNat_inj.1 htoNat
  have hv : flags.v = (op = .shal && (a.flags.v || b.flags.v)) := by
    rw [hboth.overflow, hb.overflow, ha.overflow]
    by_cases hop : op = .shal
    · have hproduct : Representable w (signed w x * 2) → signed w a.value = signed w x * 2 := fun h =>
        ha.product hop (by rw [ha.overflow]; simpa using fun _ => h)
      simp only [hop, decide_true, Bool.true_and, ← Bool.not_and, ← Bool.decide_and]
      rw [decide_eq_decide.2 (representable_four hproduct)]
    · simp [hop]
  have hflags : flags = { f with
      n := b.flags.n, z := b.flags.z, v := op = .shal && (a.flags.v || b.flags.v), c := b.flags.c } := by
    rw [← hv, ← hcarry, hb.sign, hb.zero]
    exact hboth.others.trans (by rw [hboth.sign, hboth.zero])
  rw [hflags, hb.others, ha.others]

/-- As many places back give the value again, and the carry if it is one of the places. -/
theorem shift_opposite {inv : ShiftOp} (hop : op.opposite? = some inv) (hn : n = 1 ∨ n = 2) (hx : x.toNat < 2 * half w)
    (f : ConditionCodes) :
    let a := shift op w n x f
    let b := shift inv w n a.value a.flags
    b.value = x ∧ (op.throughCarry = true → b.flags.c = f.c) := by
  intro a b
  have hthrough : inv.throughCarry = op.throughCarry := by cases op <;> cases hop <;> rfl
  have hback := places_opposite hop n.toNat (q := (x.toNat, f.c)) hx
  rw [← shift_places op hn hx f, ← shift_places inv hn (shift_value_lt op hn hx f) a.flags] at hback
  exact ⟨UInt32.toNat_inj.1 hback.value, fun hc => hback.carry (hthrough.trans hc)⟩

end Words

end Alu

/-! ### Shifts in the registers -/

namespace CpuM

open Alu

variable {β : Type} [Bus β] {config : Config} {s t : System β} {op : ShiftOp} {w : Width} {n dst : UInt8}

/-- A shift leaves its value in the destination and its flags in the condition codes. -/
theorem Executed.shift (h : Executed config (.shift op w n dst) s t) :
    Registers.Committed s.cpu.regs t.cpu.regs w dst (Alu.shift op w n (s.cpu.regs.read w dst) s.cpu.regs.ccr) := by
  obtain ⟨pc, hregs⟩ := h.registers (g := (·.shift op w n dst)) fun _ => rfl
  rw [hregs]
  exact Registers.committed_commit s.cpu.regs pc w dst _

/-- Shifts and rotations of every view by one place and by two, wherever they are executed: they end, two places are one place
twice, each is what it should be of the numbers, and the rotation the other way undoes a rotation. -/
theorem shifts_by_places (config : Config) (op : ShiftOp) (w : Width) (dst : UInt8) (s : System β) :
    (∀ n, Ends config (.shift op w n dst) s) ∧
      (∀ t t' u, Executed config (.shift op w 1 dst) s t → Executed config (.shift op w 1 dst) t t' →
        Executed config (.shift op w 2 dst) s u →
        u.cpu.regs = { t'.cpu.regs with
          pc := u.cpu.regs.pc
          ccr := { t'.cpu.regs.ccr with v := op = .shal && (t.cpu.regs.ccr.v || t'.cpu.regs.ccr.v) } }) ∧
      (∀ n t, n = 1 ∨ n = 2 → Executed config (.shift op w n dst) s t →
        IsShift op w n.toNat (s.cpu.regs.read w dst) (t.cpu.regs.read w dst) s.cpu.regs.ccr t.cpu.regs.ccr) ∧
      (∀ inv n t u, op.opposite? = some inv → n = 1 ∨ n = 2 → Executed config (.shift op w n dst) s t →
        Executed config (.shift inv w n dst) t u →
        u.cpu.regs.er = s.cpu.regs.er ∧ (op.throughCarry = true → u.cpu.regs.ccr.c = s.cpu.regs.ccr.c)) := by
  have hx := s.cpu.regs.read_toNat_lt w dst
  have hone : (1 : UInt8) = 1 ∨ (1 : UInt8) = 2 := .inl rfl
  have hview : ∀ {n t}, n = 1 ∨ n = 2 → Executed config (.shift op w n dst) s t →
      t.cpu.regs.read w dst = (Alu.shift op w n (s.cpu.regs.read w dst) s.cpu.regs.ccr).value := fun hn ht =>
    ht.shift.view.trans (and_mask_of_lt (shift_value_lt op hn hx _))
  refine ⟨fun n => ends_of_registers (g := (·.shift op w n dst)) fun _ => rfl, ?_, ?_, ?_⟩
  · intro t t' u ht ht' hu
    have h := ht.shift
    have h' := ht'.shift
    have h₂ := hu.shift
    rw [hview hone ht, h.ccr] at h'
    rw [shift_two op hx] at h₂
    have hsame : u.cpu.regs.er = t'.cpu.regs.er := by
      rw [h₂.er, h'.er, Registers.er_write_congr h.er, Registers.write_write]
    refine (Registers.eq_of_er hsame (h₂.exr.trans (h'.exr.trans h.exr).symm)).trans ?_
    rw [h₂.ccr, h'.ccr, h.ccr]
  · intro n t hn ht
    rw [hview hn ht, ht.shift.ccr]
    exact shift_isShift op hn hx _
  · intro inv n t u hop hn ht hu
    have h := ht.shift
    have h' := hu.shift
    rw [hview hn ht, h.ccr] at h'
    obtain ⟨hvalue, hcarry⟩ := shift_opposite hop hn hx s.cpu.regs.ccr
    refine ⟨?_, fun hc => ?_⟩
    · rw [h'.er, hvalue, Registers.er_write_congr h.er, Registers.write_write, Registers.write_read]
    · rw [h'.ccr, hcarry hc]

/-- A core with a value in its second register. -/
def holding (value : UInt32) : System Memory :=
  { cpu := { regs := ({} : Registers).writeLong 1 value }, bus := { size := 0 } }

/-- A byte that may be doubled once, but not twice. -/
theorem shifts_by_places_of_byte :
    ∃ t t' u, Executed {} (.shift .shal .byte 1 9) (holding 0x30) t ∧ Executed {} (.shift .shal .byte 1 9) t t' ∧
      Executed {} (.shift .shal .byte 2 9) (holding 0x30) u ∧ u.cpu.regs.er = t'.cpu.regs.er ∧
      t.cpu.regs.ccr.v = false ∧ t'.cpu.regs.ccr.v = true ∧ u.cpu.regs.ccr.v = true := by
  obtain ⟨hends, htwo, hnumbers, -⟩ := shifts_by_places {} .shal .byte 9 (holding 0x30)
  obtain ⟨t, ht⟩ := (hends 1).alone ⟨0, .shift .shal .byte 1 9, []⟩ rfl
  obtain ⟨u, hu⟩ := (hends 2).alone ⟨0, .shift .shal .byte 2 9, []⟩ rfl
  obtain ⟨t', ht'⟩ := ((shifts_by_places {} .shal .byte 9 t).1 1).alone ⟨0, .shift .shal .byte 1 9, []⟩ rfl
  have h : Executed {} (.shift .shal .byte 1 9) (holding 0x30) t := .alone _ rfl ht
  have h' : Executed {} (.shift .shal .byte 1 9) t t' := .alone _ rfl ht'
  have h₂ : Executed {} (.shift .shal .byte 2 9) (holding 0x30) u := .alone _ rfl hu
  have hregs := htwo t t' u h h' h₂
  have hv : t.cpu.regs.ccr.v = false := (hnumbers 1 t (.inl rfl) h).overflow.trans (by decide)
  have hv₂ : u.cpu.regs.ccr.v = true := (hnumbers 2 u (.inr rfl) h₂).overflow.trans (by decide)
  refine ⟨t, t', u, h, h', h₂, by rw [hregs], hv, ?_, hv₂⟩
  rw [hregs, hv] at hv₂
  simpa using hv₂

end CpuM

end H8S
