import Mathlib.Algebra.Group.Nat.Defs
import H8S.InterruptSet

/-!
# Membership in sets of interrupts

A set is a word, and `n` is in it if bit `n` of the word is set (`contains_eq`).  The operations on sets are then said
member by member, and so is the choice of the first interrupt (`lowest?_eq_some`).  What the status register shows and takes
is said bit by bit (`testBit_status`, `testBit_acknowledge`), so that a byte that was read and changed can be written back
(`acknowledge_status_or`, `acknowledge_status_clear`).
-/

namespace H8S.InterruptSet

variable {s : InterruptSet} {m n : UInt8}

private theorem toNat_lt (h : n < 64) : n.toNat < 64 := UInt8.lt_iff_toNat_lt.1 h

private theorem bit_toBitVec (h : n < 64) : (bit n).toBitVec = BitVec.twoPow 64 n.toNat := by
  have hn : n.toNat % 64 = n.toNat := Nat.mod_eq_of_lt (toNat_lt h)
  apply BitVec.eq_of_toNat_eq
  show (1 <<< n.toUInt64 : UInt64).toNat = _
  rw [UInt64.toNat_shiftLeft, BitVec.toNat_twoPow]
  simp [hn, Nat.shiftLeft_eq]

theorem contains_eq (s : InterruptSet) (h : n < 64) : s.contains n = s.mask.toBitVec.getLsbD n.toNat := by
  have e : (s.mask &&& bit n != 0) = (s.mask.toBitVec &&& (bit n).toBitVec != 0#64) := by
    rw [← UInt64.toBitVec_and]
    simp [bne, BEq.beq, ← UInt64.toBitVec_inj]
  unfold contains
  rw [e, bit_toBitVec h, BitVec.and_twoPow]
  cases s.mask.toBitVec.getLsbD n.toNat with
  | false => rfl
  | true =>
    have hp : BitVec.twoPow 64 n.toNat ≠ 0#64 := by
      intro hz
      have := congrArg (BitVec.getLsbD · n.toNat) hz
      simp [toNat_lt h] at this
    simpa using hp

private theorem getLsbD_bit (hn : n < 64) : (bit n).toBitVec.getLsbD m.toNat = (m == n) := by
  rw [bit_toBitVec hn, BitVec.getLsbD_twoPow]
  simp [toNat_lt hn, ← UInt8.toNat_inj, eq_comm, BEq.beq]

@[simp] theorem contains_empty : (({} : InterruptSet).contains n) = false := by
  simp [contains]

theorem contains_insert (hm : m < 64) (hn : n < 64) : (s.insert n).contains m = (s.contains m || m == n) := by
  rw [contains_eq _ hm, contains_eq _ hm, ← getLsbD_bit hn, ← BitVec.getLsbD_or]
  rfl

theorem contains_request (hm : m < 64) : (s.request n).contains m = (s.contains m || m == n) := by
  unfold request
  by_cases hn : n < 64
  · rw [if_pos hn, contains_insert hm hn]
  · have hne : (m == n) = false := beq_eq_false_iff_ne.2 fun h => hn (h ▸ hm)
    rw [if_neg hn, hne, Bool.or_false]

/-- Of a sequence of requests, all are in the set. -/
theorem contains_requests (hm : m < 64) (ns : List UInt8) :
    (ns.foldl request s).contains m = (s.contains m || ns.contains m) := by
  induction ns generalizing s with
  | nil => simp
  | cons n ns ih => rw [List.foldl_cons, ih, contains_request hm, List.contains_cons, Bool.or_assoc]

theorem contains_erase (hm : m < 64) (hn : n < 64) : (s.erase n).contains m = (s.contains m && m != n) := by
  have e : (s.erase n).mask.toBitVec = s.mask.toBitVec &&& ~~~(bit n).toBitVec := rfl
  rw [contains_eq _ hm, contains_eq _ hm, e, BitVec.getLsbD_and, BitVec.getLsbD_not, getLsbD_bit hn]
  simp [toNat_lt hm, bne]

theorem contains_union (s t : InterruptSet) (hm : m < 64) : (s.union t).contains m = (s.contains m || t.contains m) := by
  rw [contains_eq _ hm, contains_eq _ hm, contains_eq _ hm, ← BitVec.getLsbD_or]
  rfl

@[simp] theorem union_empty (s : InterruptSet) : s.union {} = s := by
  cases s
  simp [union]

/-- A set is told by its members. -/
theorem eq_of_contains {t : InterruptSet} (h : ∀ n, n < 64 → s.contains n = t.contains n) : s = t := by
  have hmask : s.mask = t.mask := by
    apply UInt64.toBitVec_inj.1
    apply BitVec.eq_of_getLsbD_eq
    intro k hk
    have hk' : k.toUInt8.toNat = k := by
      have hlt : k < 256 := by omega
      simp [Nat.mod_eq_of_lt hlt]
    have hn : k.toUInt8 < 64 := UInt8.lt_iff_toNat_lt.2 (by rw [hk']; exact hk)
    have hc := h k.toUInt8 hn
    rwa [contains_eq s hn, contains_eq t hn, hk'] at hc
  cases s
  cases t
  exact congrArg InterruptSet.mk hmask

/-! ### Acknowledgement -/

private theorem gatedMask_bits : ∀ k : Fin 64, gatedMask.toBitVec.getLsbD k.val = (12 ≤ k.val ∧ k.val < 18 : Bool) := by
  decide

theorem isGated_iff : isGated n = true ↔ 12 ≤ n.toNat ∧ n.toNat < 18 := by
  simp [isGated, firstGated, UInt8.le_iff_toNat_le, UInt8.lt_iff_toNat_lt]

/-- The bit of a gated interrupt in a value of its registers. -/
theorem enables_eq (value : UInt8) (h : isGated n = true) :
    enables value n = value.toBitVec.getLsbD (n.toNat - 12) := by
  have hg := isGated_iff.1 h
  have hk : (n - 12).toNat = n.toNat - 12 := UInt8.toNat_sub_of_le n 12 (UInt8.le_iff_toNat_le.2 hg.1)
  have e : (value >>> (n - 12) &&& 1 != 0) = ((value >>> (n - 12)).toNat % 2 == 1) := by
    rw [Bool.eq_iff_iff]
    simp [← UInt8.toNat_inj]
  have hk' : (n - 12).toNat % 8 = n.toNat - 12 := by omega
  unfold enables firstGated
  rw [e, UInt8.toNat_shiftRight, hk', ← BitVec.testBit_toNat, Nat.testBit_eq_decide_div_mod_eq,
    Nat.shiftRight_eq_div_pow]
  rfl

/-- A write to the status register takes back the gated interrupts whose bit is zero. -/
theorem contains_acknowledge (value : UInt8) (hm : m < 64) :
    (s.acknowledge value).contains m = (s.contains m && (!isGated m || enables value m)) := by
  have e : (s.acknowledge value).mask.toBitVec =
      s.mask.toBitVec &&& (~~~gatedMask.toBitVec ||| ((value.toUInt64 <<< 12).toBitVec &&& gatedMask.toBitVec)) := rfl
  have g : gatedMask.toBitVec.getLsbD m.toNat = isGated m := by
    rw [gatedMask_bits ⟨m.toNat, toNat_lt hm⟩, Bool.eq_iff_iff, isGated_iff]
    simp
  rw [contains_eq _ hm, contains_eq _ hm, e, BitVec.getLsbD_and, BitVec.getLsbD_or, BitVec.getLsbD_not,
    BitVec.getLsbD_and, g]
  congr 1
  -- outside the gated bits nothing is taken back, whatever is written
  by_cases hg : isGated m = true
  · rw [enables_eq value hg, hg]
    have hb := isGated_iff.1 hg
    have hs : (value.toUInt64 <<< 12).toBitVec.getLsbD m.toNat = value.toBitVec.getLsbD (m.toNat - 12) := by
      have e : (value.toUInt64 <<< 12).toBitVec = value.toUInt64.toBitVec <<< 12 := rfl
      rw [e, BitVec.getLsbD_shiftLeft]
      have h₁ : ¬m.toNat < 12 := by omega
      have h₂ : m.toNat - 12 < 64 := by omega
      simp [toNat_lt hm, h₁, h₂]
    rw [hs]
    simp
  · simp [hg, toNat_lt hm]

/-! ### Bits -/

private theorem toNat_toUInt8 {k : Nat} (hk : k < 64) : k.toUInt8.toNat = k := by
  simp [Nat.mod_eq_of_lt (show k < 256 by omega)]

/-- The bits of the word are its members. -/
theorem testBit_mask (s : InterruptSet) (k : Nat) :
    s.mask.toNat.testBit k = (decide (k < 64) && s.contains k.toUInt8) := by
  by_cases hk : k < 64
  · have hn : k.toUInt8 < 64 := UInt8.lt_iff_toNat_lt.2 (by rw [toNat_toUInt8 hk]; exact hk)
    rw [contains_eq s hn, toNat_toUInt8 hk, decide_eq_true hk, Bool.true_and]
    rfl
  · rw [decide_eq_false hk, Bool.false_and]
    exact Nat.testBit_lt_two_pow (Nat.lt_of_lt_of_le s.mask.toNat_lt (Nat.pow_le_pow_right (by decide) (by omega)))

theorem testBit_erase (s : InterruptSet) {n : UInt8} (hn : n < 64) (k : Nat) :
    (s.erase n).mask.toNat.testBit k = (s.mask.toNat.testBit k && decide (k ≠ n.toNat)) := by
  rw [testBit_mask, testBit_mask]
  by_cases hk : k < 64
  · have hm : k.toUInt8 < 64 := UInt8.lt_iff_toNat_lt.2 (by rw [toNat_toUInt8 hk]; exact hk)
    have hne : (k.toUInt8 != n) = decide (k ≠ n.toNat) := by
      rw [Bool.eq_iff_iff]
      simp [← UInt8.toNat_inj, Nat.mod_eq_of_lt (show k < 256 by omega)]
    rw [contains_erase hm hn, hne, Bool.and_assoc]
  · simp [hk]

/-- A write to the status register takes back the gated interrupts whose bit is zero, and no others. -/
theorem testBit_acknowledge (s : InterruptSet) (value : UInt8) (k : Nat) :
    (s.acknowledge value).mask.toNat.testBit k =
      (s.mask.toNat.testBit k && (decide (k < 12) || decide (18 ≤ k) || value.toNat.testBit (k - 12))) := by
  rw [testBit_mask, testBit_mask]
  by_cases hk : k < 64
  · have hm : k.toUInt8 < 64 := UInt8.lt_iff_toNat_lt.2 (by rw [toNat_toUInt8 hk]; exact hk)
    rw [contains_acknowledge value hm, Bool.and_assoc]
    congr 2
    by_cases hg : isGated k.toUInt8 = true
    · have hb := isGated_iff.1 hg
      rw [toNat_toUInt8 hk] at hb
      have h₁ : ¬k < 12 := by omega
      have h₂ : ¬18 ≤ k := by omega
      rw [enables_eq value hg, toNat_toUInt8 hk, hg, ← BitVec.testBit_toNat]
      simp [h₁, h₂]
    · have hb : k < 12 ∨ 18 ≤ k := by
        have hb := mt isGated_iff.2 hg
        rw [toNat_toUInt8 hk] at hb
        omega
      rcases hb with h | h
      · simp [hg, h]
      · simp [hg, h]
  · simp [hk]

/-- A set is told by its bits. -/
theorem eq_of_testBit {t : InterruptSet} (h : ∀ k, s.mask.toNat.testBit k = t.mask.toNat.testBit k) : s = t := by
  have hmask : s.mask = t.mask := UInt64.toNat_inj.1 (Nat.eq_of_testBit_eq h)
  cases s
  cases t
  exact congrArg InterruptSet.mk hmask

/-! ### The status register -/

private theorem gatedMask_toNat : gatedMask.toNat = (2 ^ 6 - 1) <<< 12 := by decide

/-- The bits of the gated interrupts are those from 12 to 17. -/
private theorem testBit_gatedMask (k : Nat) : gatedMask.toNat.testBit k = (decide (12 ≤ k) && decide (k < 18)) := by
  rw [gatedMask_toNat, Nat.testBit_shiftLeft, Nat.testBit_two_pow_sub_one]
  by_cases h : 12 ≤ k
  · have e : (k - 12 < 6) ↔ (k < 18) := by omega
    simp [h, e]
  · simp [h]

/-- The status register shows the gated interrupts in its six low bits. -/
theorem testBit_status (s : InterruptSet) (k : Nat) :
    s.status.toNat.testBit k = (decide (k < 6) && s.mask.toNat.testBit (12 + k)) := by
  have hnat : s.status.toNat = (s.mask.toNat &&& gatedMask.toNat) >>> 12 % 2 ^ 8 := by
    rw [status, UInt64.toNat_toUInt8, UInt64.toNat_shiftRight, UInt64.toNat_and]
    rfl
  rw [hnat, Nat.testBit_mod_two_pow, Nat.testBit_shiftRight, Nat.testBit_and, testBit_gatedMask]
  by_cases h : k < 6
  · have h₁ : k < 8 := by omega
    have h₂ : 12 + k < 18 := by omega
    simp [h, h₁, h₂]
  · have h₂ : ¬12 + k < 18 := by omega
    simp [h, h₂]

/-- What is written back with bits set takes nothing back. -/
theorem acknowledge_status_or (s : InterruptSet) (mask : UInt8) : s.acknowledge (s.status ||| mask) = s := by
  apply eq_of_testBit
  intro k
  rw [testBit_acknowledge, UInt8.toNat_or, Nat.testBit_or, testBit_status]
  by_cases hk : k < 12 ∨ 18 ≤ k
  · rcases hk with h | h
    · simp [h]
    · simp [h]
  · have h₁ : k - 12 < 6 := by omega
    have h₂ : 12 + (k - 12) = k := by omega
    rw [h₂]
    cases s.mask.toNat.testBit k with
    | true => simp [h₁]
    | false => rfl

private theorem testBit_not (v : UInt8) {k : Nat} (hk : k < 8) : (~~~v).toNat.testBit k = !v.toNat.testBit k := by
  have hnot : (~~~v).toNat = 2 ^ 8 - (v.toNat + 1) := by
    rw [UInt8.toNat_not]
    unfold UInt8.size
    omega
  rw [hnot, Nat.testBit_two_pow_sub_succ v.toNat_lt, decide_eq_true hk, Bool.true_and]

/-- What is written back with one bit cleared takes the interrupt of that bit back. -/
theorem acknowledge_status_clear (s : InterruptSet) {mask n : UInt8} (hn : n < 6) (hmask : mask.toNat = 2 ^ n.toNat) :
    s.acknowledge (s.status &&& ~~~mask) = s.erase (firstGated + n) := by
  have hlt : n.toNat < 6 := UInt8.lt_iff_toNat_lt.1 hn
  have hsum : (firstGated + n).toNat = 12 + n.toNat := by
    rw [firstGated, UInt8.toNat_add]
    show (12 + n.toNat) % 256 = _
    omega
  have hbound : firstGated + n < 64 := UInt8.lt_iff_toNat_lt.2 (by rw [hsum]; show _ < 64; omega)
  apply eq_of_testBit
  intro k
  rw [testBit_acknowledge, testBit_erase s hbound, hsum]
  by_cases hk : k < 12 ∨ 18 ≤ k
  · have hne : k ≠ 12 + n.toNat := by omega
    rcases hk with h | h
    · simp [h, hne]
    · simp [h, hne]
  · have h₁ : k - 12 < 6 := by omega
    have h₂ : 12 + (k - 12) = k := by omega
    have h₃ : (n.toNat = k - 12) ↔ (k = 12 + n.toNat) := by omega
    have hlow : (decide (k < 12) || decide (18 ≤ k)) = false := by simpa using hk
    rw [hlow, Bool.false_or, UInt8.toNat_and, Nat.testBit_and, testBit_status, testBit_not mask (by omega), hmask,
      Nat.testBit_two_pow, h₂, decide_eq_true h₁, Bool.true_and, ← Bool.and_assoc, Bool.and_self, ← decide_not]
    simp only [ne_eq, h₃]

/-! ### The first interrupt -/

private theorem exists_contains (h : s.mask ≠ 0) : ∃ n, n < 64 ∧ s.contains n = true := by
  refine Classical.byContradiction fun hn => h ?_
  apply UInt64.toBitVec_inj.1
  apply BitVec.eq_of_getLsbD_eq
  intro k hk
  have hk' := toNat_toUInt8 hk
  have hlt : k.toUInt8 < 64 := UInt8.lt_iff_toNat_lt.2 (by rw [hk']; exact hk)
  have hc : s.contains k.toUInt8 = false := by
    cases hc : s.contains k.toUInt8 with
    | false => rfl
    | true => exact (hn ⟨k.toUInt8, hlt, hc⟩).elim
  rw [contains_eq s hlt, hk'] at hc
  simpa using hc

private theorem find_numbers :
    numbers.find? s.contains = some n ↔ n < 64 ∧ s.contains n = true ∧ ∀ m, m < n → s.contains m = false := by
  unfold numbers
  rw [List.find?_map, Option.map_eq_some_iff]
  constructor
  · rintro ⟨k, hk, rfl⟩
    obtain ⟨hc, hk, hmin⟩ := List.find?_range_eq_some.1 hk
    have hk := List.mem_range.1 hk
    have hk' := toNat_toUInt8 hk
    refine ⟨UInt8.lt_iff_toNat_lt.2 (by rw [hk']; exact hk), hc, ?_⟩
    intro m hm
    have hm' : m.toNat < k := by rw [← hk']; exact UInt8.lt_iff_toNat_lt.1 hm
    have := hmin m.toNat hm'
    simpa using this
  · rintro ⟨hn, hc, hmin⟩
    refine ⟨n.toNat, List.find?_range_eq_some.2 ⟨by simpa using hc, List.mem_range.2 (toNat_lt hn), ?_⟩, by simp⟩
    intro k hk
    have hk' := toNat_toUInt8 (Nat.lt_trans hk (toNat_lt hn))
    have := hmin k.toUInt8 (UInt8.lt_iff_toNat_lt.2 (by rw [hk']; exact hk))
    simpa using this

theorem lowest?_eq_some : s.lowest? = some n ↔ n < 64 ∧ s.contains n = true ∧ ∀ m, m < n → s.contains m = false := by
  unfold lowest?
  by_cases hz : s.mask = 0
  · have hn : s.contains n = false := by simp [contains, hz]
    simp [hz, hn]
  · rw [if_neg hz]
    exact find_numbers

theorem lowest?_isSome (h : s ≠ {}) : ∃ n, s.lowest? = some n := by
  have hz : s.mask ≠ 0 := by
    intro hz
    apply h
    cases s
    simpa using hz
  obtain ⟨n, hn, hc⟩ := exists_contains hz
  cases hf : s.lowest? with
  | some k => exact ⟨k, rfl⟩
  | none =>
    unfold lowest? at hf
    rw [if_neg hz, List.find?_eq_none] at hf
    have hmem : n ∈ numbers := List.mem_map.2 ⟨n.toNat, List.mem_range.2 (toNat_lt hn), by simp⟩
    exact absurd hc (hf n hmem)

end H8S.InterruptSet
