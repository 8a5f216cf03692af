import H8S.Proofs.TickSlicing
import Mathlib.Logic.Function.Iterate

/-!
# The period of the refresh controller

The counter is compared after it was counted up and begins anew at once, so it takes as many counts as its compare register
says, and not one more, from one match to the next (`Refresh.matchesNext_iff`); a compare register of zero is met after the
last count there is.  Below its period the counter is the remainder of all counts made, and there was a match if they
complete a period (`Refresh.iterate_of_lt`).  A counter that was written beyond it first runs out (`Refresh.iterate_of_le`).
-/

namespace H8S.Refresh

variable {r : Refresh} {now : UInt64}

/-- The counts from one match to the next. -/
def period (r : Refresh) : Nat := if r.rtcor = 0 then 256 else r.rtcor.toNat

/-- One of the next `n` counts is a match. -/
def MatchesWithin (r : Refresh) (n : Nat) : Prop := ∃ k < n, (count^[k] r).matchesNext = true

instance (r : Refresh) (n : Nat) : Decidable (r.MatchesWithin n) :=
  inferInstanceAs (Decidable (∃ k < n, (count^[k] r).matchesNext = true))

/-! ### Single counts -/

private theorem rtcor_ne_zero (h : ¬r.rtcor = 0) : r.rtcor.toNat ≠ 0 := fun h0 => h (UInt8.toNat_inj.1 h0)

theorem period_pos (r : Refresh) : 0 < r.period := by
  unfold period
  split
  · decide
  · next h => exact Nat.pos_of_ne_zero (rtcor_ne_zero h)

theorem period_le (r : Refresh) : r.period ≤ 256 := by
  have hlt := r.rtcor.toNat_lt
  unfold period
  split <;> omega

/-- A count is a match if it completes the period. -/
theorem matchesNext_iff (r : Refresh) : r.matchesNext = true ↔ r.rtcnt.toNat + 1 = r.period := by
  have hcnt := r.rtcnt.toNat_lt
  have hcor := r.rtcor.toNat_lt
  unfold matchesNext period
  rw [beq_iff_eq, ← UInt8.toNat_inj, UInt8.toNat_add]
  split
  · next h =>
    rw [h]
    show (_ + 1) % 256 = 0 ↔ _
    omega
  · next h =>
    have hne := rtcor_ne_zero h
    show (_ + 1) % 256 = _ ↔ _
    omega

theorem rtcnt_count (r : Refresh) :
    r.count.rtcnt.toNat = if r.rtcnt.toNat + 1 = r.period then 0 else (r.rtcnt.toNat + 1) % 256 := by
  unfold count
  by_cases h : r.matchesNext = true
  · rw [if_pos h, if_pos (r.matchesNext_iff.1 h)]
    rfl
  · rw [if_neg h, if_neg (mt r.matchesNext_iff.2 h), UInt8.toNat_add]
    rfl

@[simp] theorem period_count (r : Refresh) : r.count.period = r.period := by
  unfold count period
  split <;> rfl

/-- A count changes the counter and sets the flag of a match. -/
theorem count_eq (r : Refresh) :
    r.count = { r with rtcnt := r.count.rtcnt, rtmcsr := if r.matchesNext then r.rtmcsr ||| 0x80 else r.rtmcsr } := by
  unfold count
  split <;> rfl

/-! ### Counts in a row -/

theorem matchesWithin_zero (r : Refresh) : ¬r.MatchesWithin 0 := by simp [MatchesWithin]

theorem matchesWithin_succ (r : Refresh) (n : Nat) :
    r.MatchesWithin (n + 1) ↔ r.matchesNext = true ∨ r.count.MatchesWithin n := Nat.exists_lt_succ_left

theorem matchesWithin_add (r : Refresh) (m n : Nat) :
    r.MatchesWithin (m + n) ↔ r.MatchesWithin m ∨ (count^[m] r).MatchesWithin n := by
  induction m generalizing r with
  | zero => simp [matchesWithin_zero]
  | succ m ih =>
    rw [Nat.add_right_comm, matchesWithin_succ, ih, ← or_assoc, ← matchesWithin_succ, Function.iterate_succ_apply]

@[simp] theorem period_iterate (r : Refresh) (n : Nat) : (count^[n] r).period = r.period := by
  induction n generalizing r with
  | zero => rfl
  | succ n ih => rw [Function.iterate_succ_apply, ih, period_count]

/-- Below its period the counter runs modulo the period, with a match whenever that is completed. -/
theorem iterate_of_lt (n : Nat) (h : r.rtcnt.toNat < r.period) :
    (count^[n] r).rtcnt.toNat = (r.rtcnt.toNat + n) % r.period ∧
      (r.MatchesWithin n ↔ r.period ≤ r.rtcnt.toNat + n) := by
  induction n generalizing r with
  | zero => exact ⟨(Nat.mod_eq_of_lt h).symm, iff_of_false r.matchesWithin_zero (by omega)⟩
  | succ n ih =>
    have hle := r.period_le
    have hnext : r.count.rtcnt.toNat = (r.rtcnt.toNat + 1) % r.period := by
      rw [rtcnt_count]
      split
      · next hfull => rw [hfull, Nat.mod_self]
      · rw [Nat.mod_eq_of_lt (by omega), Nat.mod_eq_of_lt (by omega)]
    have hlt : r.count.rtcnt.toNat < r.count.period := by
      rw [hnext, period_count]
      exact Nat.mod_lt _ r.period_pos
    obtain ⟨hcnt, hmatch⟩ := ih hlt
    rw [period_count, hnext] at hcnt hmatch
    refine ⟨?_, ?_⟩
    · rw [Function.iterate_succ_apply, hcnt, Nat.mod_add_mod, Nat.add_assoc, Nat.add_comm 1 n]
    · rw [matchesWithin_succ, matchesNext_iff, hmatch]
      by_cases hfull : r.rtcnt.toNat + 1 = r.period
      · exact iff_of_true (.inl hfull) (by omega)
      · rw [Nat.mod_eq_of_lt (by omega)]
        omega

/-- From its period on the counter runs through its last count to zero, without a match. -/
theorem iterate_of_le (n : Nat) (h : r.period ≤ r.rtcnt.toNat) (hn : n ≤ 256 - r.rtcnt.toNat) :
    (count^[n] r).rtcnt.toNat = (r.rtcnt.toNat + n) % 256 ∧ ¬r.MatchesWithin n := by
  have hlt := r.rtcnt.toNat_lt
  induction n generalizing r with
  | zero => exact ⟨(Nat.mod_eq_of_lt hlt).symm, r.matchesWithin_zero⟩
  | succ n ih =>
    have hno : ¬r.matchesNext = true := fun hm => by
      have := r.matchesNext_iff.1 hm
      omega
    have hnext : r.count.rtcnt.toNat = (r.rtcnt.toNat + 1) % 256 := by
      rw [rtcnt_count, if_neg (mt r.matchesNext_iff.2 hno)]
    have hrest : (count^[n] r.count).rtcnt.toNat = (r.rtcnt.toNat + (n + 1)) % 256 ∧ ¬r.count.MatchesWithin n := by
      -- if counts are left, this one was not the last there is
      rcases Nat.eq_zero_or_pos n with rfl | hpos
      · exact ⟨hnext, r.count.matchesWithin_zero⟩
      · have hup : r.count.rtcnt.toNat = r.rtcnt.toNat + 1 := by rw [hnext, Nat.mod_eq_of_lt (by omega)]
        obtain ⟨hcnt, hmatch⟩ := ih (by rw [period_count, hup]; omega) (by omega) (by omega)
        rw [hup] at hcnt
        exact ⟨hcnt.trans (congrArg (· % 256) (by omega)), hmatch⟩
    refine ⟨hrest.1, ?_⟩
    rw [matchesWithin_succ, not_or]
    exact ⟨hno, hrest.2⟩

/-- The counter after it has run out. -/
theorem iterate_of_le_of_le {n : Nat} (h : r.period ≤ r.rtcnt.toNat) (hn : 256 - r.rtcnt.toNat ≤ n) :
    (count^[n] r).rtcnt.toNat = (n - (256 - r.rtcnt.toNat)) % r.period ∧
      (r.MatchesWithin n ↔ r.period ≤ n - (256 - r.rtcnt.toNat)) := by
  have hlt := r.rtcnt.toNat_lt
  obtain ⟨hup, hno⟩ := iterate_of_le (256 - r.rtcnt.toNat) h (Nat.le_refl _)
  have hzero : (count^[256 - r.rtcnt.toNat] r).rtcnt.toNat = 0 := by
    rw [hup, Nat.add_sub_cancel' (Nat.le_of_lt hlt), Nat.mod_self]
  have hbelow : (count^[256 - r.rtcnt.toNat] r).rtcnt.toNat < (count^[256 - r.rtcnt.toNat] r).period := by
    rw [hzero]
    exact period_pos _
  obtain ⟨hcnt, hmatch⟩ := iterate_of_lt (n - (256 - r.rtcnt.toNat)) hbelow
  have hsplit := r.matchesWithin_add (256 - r.rtcnt.toNat) (n - (256 - r.rtcnt.toNat))
  rw [period_iterate, hzero, Nat.zero_add] at hcnt hmatch
  rw [← Function.iterate_add_apply, Nat.sub_add_cancel hn] at hcnt
  rw [Nat.add_sub_cancel' hn, or_iff_right hno, hmatch] at hsplit
  exact ⟨hcnt, hsplit⟩

/-- Counts change the counter and set the flag of a match. -/
theorem iterate_eq (r : Refresh) (n : Nat) :
    count^[n] r =
      { r with
        rtcnt := (count^[n] r).rtcnt
        rtmcsr := if r.MatchesWithin n then r.rtmcsr ||| 0x80 else r.rtmcsr } := by
  induction n generalizing r with
  | zero => simp [matchesWithin_zero]
  | succ n ih =>
    rw [Function.iterate_succ_apply, ih, count_eq]
    simp only [matchesWithin_succ, ← count_eq]
    by_cases hm : r.matchesNext = true
    · simp [hm, UInt8.or_assoc]
    · simp [hm]

/-! ### Ticks -/

theorem countTimes_eq (n : Nat) (r : Refresh) : countTimes n r false = (count^[n] r, decide (r.MatchesWithin n)) := by
  induction n generalizing r with
  | zero => simp [countTimes, matchesWithin_zero]
  | succ n ih =>
    have hfirst : countTimes (n + 1) r false = countTimes n r.count r.matchesNext := by simp [countTimes]
    rw [hfirst, countTimes_matched, ih, Function.iterate_succ_apply]
    simp [matchesWithin_succ]

/-- A tick makes the counts that are due, and requests the interrupt of a match once. -/
theorem tick_eq_iterate (r : Refresh) (now : UInt64) :
    r.tick now =
      ({ count^[r.countsUntil now] r with lastCycles := now },
        if r.MatchesWithin (r.countsUntil now) ∧ r.rtmcsr &&& 0x40 ≠ 0 then [.interrupt 21] else []) := by
  unfold tick
  rw [countTimes_eq]
  simp [interruptEnabled, matchInterrupt]

theorem tick_of_countsUntil (h : r.countsUntil now = 0) : r.tick now = ({ r with lastCycles := now }, []) := by
  rw [tick_eq_iterate, h, if_neg fun hm => r.matchesWithin_zero hm.1]
  rfl

theorem countsUntil_of_le (h : now ≤ r.lastCycles) : r.countsUntil now = 0 := by
  unfold countsUntil
  split
  · rfl
  · exact Nat.sub_eq_zero_of_le (shiftRight_mono r.shift h)

/-- What a tick makes of a counter `c` whose clock has made `n` counts since the last tick.

Below the period `p` it becomes the remainder of `c + n`, and there was a match if that is a period at least.  A counter from
the period on takes `256 - c` counts without a match to become zero, and goes on from there in the same way.  A match sets
the flag, and requests its interrupt if that is enabled; nothing else changes.  With the clock stopped, or if time went
back, nothing is counted. -/
theorem period_law (r : Refresh) (now : UInt64) :
    (r.shift = 0 ∨ now < r.lastCycles → r.tick now = ({ r with lastCycles := now }, [])) ∧
    (r.shift ≠ 0 → r.lastCycles ≤ now →
      let n := (now >>> r.shift).toNat - (r.lastCycles >>> r.shift).toNat
      let c := r.rtcnt.toNat
      let p := if r.rtcor = 0 then 256 else r.rtcor.toNat
      let after := (r.tick now).1
      after =
        { r with
          rtcnt := after.rtcnt
          rtmcsr := if r.MatchesWithin n then r.rtmcsr ||| 0x80 else r.rtmcsr
          lastCycles := now } ∧
      (r.tick now).2 = (if r.MatchesWithin n ∧ r.rtmcsr &&& 0x40 ≠ 0 then [.interrupt 21] else []) ∧
      (c < p → after.rtcnt.toNat = (c + n) % p ∧ (r.MatchesWithin n ↔ p ≤ c + n)) ∧
      (p ≤ c →
        (n ≤ 256 - c → after.rtcnt.toNat = (c + n) % 256 ∧ ¬r.MatchesWithin n) ∧
        (256 - c ≤ n →
          after.rtcnt.toNat = (n - (256 - c)) % p ∧ (r.MatchesWithin n ↔ p ≤ n - (256 - c))))) := by
  refine ⟨fun h => tick_of_countsUntil ?_, fun hshift _ => ?_⟩
  · rcases h with h | h
    · exact if_pos h
    · exact countsUntil_of_le (UInt64.le_of_lt h)
  · intro n c p after
    have hn : r.countsUntil now = n := if_neg hshift
    have htick := r.tick_eq_iterate now
    rw [hn] at htick
    have hafter : after = { count^[n] r with lastCycles := now } := congrArg Prod.fst htick
    have hcnt : after.rtcnt = (count^[n] r).rtcnt := by rw [hafter]
    refine ⟨?_, congrArg Prod.snd htick, fun hlt => ?_, fun hle => ⟨fun hshort => ?_, fun hlong => ?_⟩⟩
    · rw [hcnt, hafter]
      exact congrArg ({ · with lastCycles := now }) (r.iterate_eq n)
    · rw [hcnt]
      exact iterate_of_lt n hlt
    · rw [hcnt]
      exact iterate_of_le n hle hshort
    · rw [hcnt]
      exact iterate_of_le_of_le hle hlong

/-- A counter that was written beyond its compare register. -/
def beyondMatch : Refresh := { nearMatch with rtcnt := 250, lastCycles := 3 }

/-- In 14 counts a counter of period 4 matches, whether it starts below the period or has to run out first. -/
theorem period_law_of_matches :
    (nearMatch.shift ≠ 0 ∧ nearMatch.lastCycles ≤ 29 ∧ nearMatch.rtcnt.toNat < 4) ∧
    (nearMatch.tick 29).1.rtcnt.toNat = 2 ∧ (nearMatch.tick 29).2 = [.interrupt 21] ∧
    (beyondMatch.shift ≠ 0 ∧ beyondMatch.lastCycles ≤ 30 ∧ 4 ≤ beyondMatch.rtcnt.toNat) ∧
    (beyondMatch.tick 30).1.rtcnt.toNat = 0 ∧ (beyondMatch.tick 30).2 = [.interrupt 21] ∧
    (beyondMatch.tick 2).1 = { beyondMatch with lastCycles := 2 } := by
  have hbelow : nearMatch.shift ≠ 0 ∧ nearMatch.lastCycles ≤ 29 ∧ nearMatch.rtcnt.toNat < 4 := by decide +kernel
  have hbeyond : beyondMatch.shift ≠ 0 ∧ beyondMatch.lastCycles ≤ 30 ∧ 4 ≤ beyondMatch.rtcnt.toNat := by decide +kernel
  obtain ⟨-, hrequest, hcount, -⟩ := (period_law nearMatch 29).2 hbelow.1 hbelow.2.1
  obtain ⟨-, hrequest', -, hcount'⟩ := (period_law beyondMatch 30).2 hbeyond.1 hbeyond.2.1
  refine ⟨hbelow, (hcount hbelow.2.2).1, hrequest.trans (by decide +kernel), hbeyond,
    ((hcount' hbeyond.2.2).2 (by decide +kernel)).1, hrequest'.trans (by decide +kernel), ?_⟩
  rw [(period_law beyondMatch 2).1 (.inr (by decide +kernel))]

end H8S.Refresh
