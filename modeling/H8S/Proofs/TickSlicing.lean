import H8S.Peripheral.Refresh
import H8S.Peripheral.TimerUnit
import H8S.Proofs.InterruptSets
import Mathlib.Data.List.Chain

/-!
# Ticks in slices

The timer unit and the refresh controller count by the cycle counter, so it does not matter how often they are ticked on the
way to a cycle count.  `ChipDevice.ticks` ticks a device at some cycle counts in turn and collects the interrupts it asks
for; for both devices that is the same as the last of these ticks alone (`ticks_in_slices`).

Two ticks in a row carry the rest, by induction on the cycle counts (`Merges.ticks`).  For them the counts of a divided clock
add up (`counts_add`), and a counter that goes on where it was left counts as if it had never stopped (`countTimes_add`).
-/

namespace H8S

open InterruptSet

/-! ### Requests as sets of interrupts -/

namespace TickRequest

/-- The interrupt that is requested, if it is not a copy. -/
def interrupt? : TickRequest → Option UInt8
  | interrupt n => some n
  | copy _ _ => none

/-- The interrupts among some requests. -/
def interrupts (requests : List TickRequest) : InterruptSet := (requests.filterMap interrupt?).foldl InterruptSet.request {}

theorem contains_interrupts {n : UInt8} (hn : n < 64) (requests : List TickRequest) :
    (interrupts requests).contains n = true ↔ .interrupt n ∈ requests := by
  unfold interrupts
  rw [contains_requests hn, contains_empty, Bool.false_or, List.contains_iff_mem, List.mem_filterMap]
  constructor
  · rintro ⟨_ | k, hk, ⟨⟩⟩
    exact hk
  · exact fun h => ⟨_, h, rfl⟩

end TickRequest

/-- A program that requests interrupts only has them collected, and goes on. -/
theorem DeviceBus.perform_interrupts {δ : Type} [Device δ] {requests : List TickRequest}
    (h : ∀ r ∈ requests, ∃ n, r = .interrupt n) (m : Mapping) (d : δ) (last : TickProgram δ) (raised : InterruptSet) :
    perform m (.requesting d requests last) raised =
      perform m last ((requests.filterMap TickRequest.interrupt?).foldl InterruptSet.request raised) := by
  induction requests generalizing raised with
  | nil => rfl
  | cons request requests ih =>
    obtain ⟨⟨n, rfl⟩, hrest⟩ := List.forall_mem_cons.1 h
    exact ih hrest (raised.request n)

/-! ### Devices ticked in turn -/

section Devices

variable {δ : Type} [ChipDevice δ]

/-- A device ticked at some cycle counts in turn, and the interrupts it asks for in all. -/
def ChipDevice.ticks : List UInt64 → δ → δ × InterruptSet
  | [], d => (d, {})
  | now :: later, d =>
    let (d, requests) := ChipDevice.tick d now
    let (d, raised) := ticks later d
    (d, (TickRequest.interrupts requests).union raised)

/-- Of two ticks in a row, the second alone comes to the same; `last` is the cycle count a device was ticked at. -/
structure Merges (last : δ → UInt64) : Prop where
  last_tick : ∀ d now, last (ChipDevice.tick d now).1 = now
  tick_tick : ∀ d now later, last d ≤ now → now ≤ later →
    (ChipDevice.tick (ChipDevice.tick d now).1 later).1 = (ChipDevice.tick d later).1
  interrupts_tick : ∀ d now later, last d ≤ now → now ≤ later →
    (TickRequest.interrupts (ChipDevice.tick d now).2).union
        (TickRequest.interrupts (ChipDevice.tick (ChipDevice.tick d now).1 later).2) =
      TickRequest.interrupts (ChipDevice.tick d later).2

theorem ChipDevice.ticks_single (d : δ) (now : UInt64) :
    ChipDevice.ticks [now] d = ((ChipDevice.tick d now).1, TickRequest.interrupts (ChipDevice.tick d now).2) := by
  simp [ChipDevice.ticks]

/-- All ticks but the last may be left out. -/
theorem Merges.ticks {last : δ → UInt64} (h : Merges last) (times : List UInt64) (hne : times ≠ []) (d : δ)
    (hsorted : (last d :: times).IsChain (· ≤ ·)) : ChipDevice.ticks times d = ChipDevice.ticks [times.getLast hne] d := by
  induction times generalizing d with
  | nil => exact absurd rfl hne
  | cons now later ih =>
    obtain ⟨hnow, hlater⟩ := List.isChain_cons_cons.1 hsorted
    by_cases hend : later = []
    · subst hend
      rfl
    · have hfirst : ChipDevice.ticks (now :: later) d =
          ((ChipDevice.ticks later (ChipDevice.tick d now).1).1,
            (TickRequest.interrupts (ChipDevice.tick d now).2).union
              (ChipDevice.ticks later (ChipDevice.tick d now).1).2) := rfl
      have hchain : (last (ChipDevice.tick d now).1 :: later).IsChain (· ≤ ·) := by
        rw [h.last_tick]
        exact hlater
      have hle : now ≤ later.getLast hend := hlater.rel_cons (List.getLast_mem hend)
      rw [hfirst, ih hend _ hchain, List.getLast_cons hend, ChipDevice.ticks_single, ChipDevice.ticks_single,
        h.tick_tick d now _ hnow hle, h.interrupts_tick d now _ hnow hle]

end Devices

/-! ### Counts of a divided clock -/

theorem shiftRight_mono {a b : UInt64} (shift : UInt64) (h : a ≤ b) : (a >>> shift).toNat ≤ (b >>> shift).toNat := by
  rw [UInt64.toNat_shiftRight, UInt64.toNat_shiftRight, Nat.shiftRight_eq_div_pow, Nat.shiftRight_eq_div_pow]
  exact Nat.div_le_div_right (UInt64.le_iff_toNat_le.1 h)

/-- The counts up to a time between and those from there add up. -/
private theorem counts_add {last now later : UInt64} (shift : UInt64) (hnow : last ≤ now) (hlater : now ≤ later) :
    (now >>> shift).toNat - (last >>> shift).toNat + ((later >>> shift).toNat - (now >>> shift).toNat) =
      (later >>> shift).toNat - (last >>> shift).toNat := by
  have h₁ := shiftRight_mono shift hnow
  have h₂ := shiftRight_mono shift hlater
  omega

/-! ### The timer unit -/

namespace TimerChannel

/-- What was requested before is only passed on. -/
theorem countTimes_requested (n : Nat) (c : TimerChannel) (requested : UInt8) :
    countTimes n c requested = ((countTimes n c 0).1, requested ||| (countTimes n c 0).2) := by
  induction n generalizing c requested with
  | zero => simp [countTimes]
  | succ n ih =>
    have hfirst : ∀ before, countTimes (n + 1) c before = countTimes n c.count (before ||| (c.hits &&& c.tier)) :=
      fun _ => rfl
    rw [hfirst, hfirst, ih c.count (requested ||| _), ih c.count (0 ||| _)]
    simp [UInt8.or_assoc]

/-- A channel that goes on counts as if it had never stopped. -/
private theorem countTimes_add (m n : Nat) (c : TimerChannel) :
    countTimes (m + n) c 0 =
      ((countTimes n (countTimes m c 0).1 0).1, (countTimes m c 0).2 ||| (countTimes n (countTimes m c 0).1 0).2) := by
  induction m generalizing c with
  | zero => simp [countTimes]
  | succ m ih =>
    have hfirst : ∀ k, countTimes (k + 1) c 0 = countTimes k c.count (c.hits &&& c.tier) := by
      intro k
      simp [countTimes]
    rw [Nat.add_right_comm, hfirst, hfirst, countTimes_requested _ c.count, countTimes_requested m c.count, ih]
    simp [UInt8.or_assoc]

private theorem countTimes_tcr (n : Nat) (c : TimerChannel) (requested : UInt8) :
    (countTimes n c requested).1.tcr = c.tcr := by
  induction n generalizing c requested with
  | zero => rfl
  | succ n ih => exact ih c.count _

end TimerChannel

namespace TimerUnit

variable {t : TimerUnit} {now later : UInt64}

theorem tick_channel (t : TimerUnit) (now : UInt64) (i : Fin 5) :
    getElem (t.tick now).1.channels i i.isLt = (t.advance now i).1 := by
  simp [tick]

private theorem advance_tcr (t : TimerUnit) (now : UInt64) (i : Fin 5) :
    (t.advance now i).1.tcr = (getElem t.channels i i.isLt).tcr := by
  unfold advance
  split
  · exact TimerChannel.countTimes_tcr _ _ _
  · rfl

/-- Ticks start and stop no channel. -/
private theorem running_tick (t : TimerUnit) (now : UInt64) (i : Fin 5) : (t.tick now).1.running i = t.running i := by
  unfold running
  rw [tick_channel, advance_tcr]
  rfl

private theorem advance_tick (hnow : t.lastCycles ≤ now) (hlater : now ≤ later) (i : Fin 5) :
    t.advance later i =
      (((t.tick now).1.advance later i).1, (t.advance now i).2 ||| ((t.tick now).1.advance later i).2) := by
  have hprescaler : (t.advance now i).1.prescaler = t.channels[i].prescaler := by
    unfold TimerChannel.prescaler
    rw [advance_tcr]
  by_cases hr : t.running i = true
  · have hfirst : ∀ time, t.advance time i =
        t.channels[i].countTimes (countsBetween t.lastCycles time t.channels[i].prescaler) 0 := by
      intro time
      unfold advance
      rw [if_pos hr]
    have hsecond : (t.tick now).1.advance later i =
        (t.advance now i).1.countTimes (countsBetween now later t.channels[i].prescaler) 0 := by
      unfold advance
      rw [running_tick, if_pos hr, tick_channel, hprescaler]
      rfl
    have hcounts : countsBetween t.lastCycles later t.channels[i].prescaler =
        countsBetween t.lastCycles now t.channels[i].prescaler + countsBetween now later t.channels[i].prescaler :=
      (counts_add _ hnow hlater).symm
    rw [hsecond, hfirst later, hcounts, TimerChannel.countTimes_add, ← hfirst now]
  · have hstopped : ∀ time, t.advance time i = (t.channels[i], 0) := by
      intro time
      unfold advance
      rw [if_neg hr]
    have hsecond : (t.tick now).1.advance later i = (t.channels[i], 0) := by
      unfold advance
      rw [running_tick, if_neg hr, tick_channel, hstopped]
    rw [hstopped later, hstopped now, hsecond]
    simp

/-- A bit of a byte, brought to its right end. -/
theorem shifted_eq_one (x bit : UInt8) : (x >>> bit) &&& 1 = 1 ↔ x.toNat.testBit (bit.toNat % 8) = true := by
  rw [← UInt8.toNat_inj, UInt8.toNat_and, UInt8.toNat_shiftRight, Nat.testBit_eq_decide_div_mod_eq,
    Nat.shiftRight_eq_div_pow]
  simp

private theorem or_requests_bit (a b bit : UInt8) :
    ((a ||| b) >>> bit) &&& 1 = 1 ↔ (a >>> bit) &&& 1 = 1 ∨ (b >>> bit) &&& 1 = 1 := by
  rw [shifted_eq_one, shifted_eq_one, shifted_eq_one, UInt8.toNat_or, Nat.testBit_or, Bool.or_eq_true]

theorem mem_requests (i : Fin 5) (requested : UInt8) (request : TickRequest) :
    request ∈ requests i requested ↔
      ∃ bit ∈ ([0, 1, 2] : List UInt8), (requested >>> bit) &&& 1 = 1 ∧
        .interrupt (interruptBase i + bit) = request := by
  unfold requests
  rw [List.mem_filterMap]
  refine exists_congr fun bit => and_congr_right fun _ => ?_
  by_cases hbit : (requested >>> bit) &&& 1 = 1
  · simp [hbit]
  · simp [hbit]

private theorem mem_requests_or (i : Fin 5) (a b : UInt8) (request : TickRequest) :
    request ∈ requests i (a ||| b) ↔ request ∈ requests i a ∨ request ∈ requests i b := by
  rw [mem_requests, mem_requests, mem_requests]
  constructor
  · rintro ⟨bit, hb, hset, rfl⟩
    rcases (or_requests_bit a b bit).1 hset with hset | hset
    · exact .inl ⟨bit, hb, hset, rfl⟩
    · exact .inr ⟨bit, hb, hset, rfl⟩
  · rintro (⟨bit, hb, hset, rfl⟩ | ⟨bit, hb, hset, rfl⟩)
    · exact ⟨bit, hb, (or_requests_bit a b bit).2 (.inl hset), rfl⟩
    · exact ⟨bit, hb, (or_requests_bit a b bit).2 (.inr hset), rfl⟩

theorem mem_tick (t : TimerUnit) (now : UInt64) (request : TickRequest) :
    request ∈ (t.tick now).2 ↔ ∃ i, request ∈ requests i (t.advance now i).2 := by
  simp [tick]

private theorem tick_interrupts (t : TimerUnit) (now : UInt64) : ∀ r ∈ (t.tick now).2, ∃ n, r = .interrupt n := by
  intro r hr
  obtain ⟨i, hi⟩ := (mem_tick t now r).1 hr
  obtain ⟨bit, -, -, rfl⟩ := (mem_requests i _ r).1 hi
  exact ⟨_, rfl⟩

theorem merges : Merges lastCycles where
  last_tick _ _ := rfl
  tick_tick t now later hnow hlater := by
    have hchannels : ((t.tick now).1.tick later).1.channels = (t.tick later).1.channels := by
      apply Vector.ext
      intro k hk
      have h := congrArg Prod.fst (advance_tick hnow hlater ⟨k, hk⟩)
      simpa [tick] using h.symm
    have hticked : ((t.tick now).1.tick later).1 =
        { t with channels := ((t.tick now).1.tick later).1.channels, lastCycles := later } := rfl
    show ((t.tick now).1.tick later).1 = (t.tick later).1
    rw [hticked, hchannels]
    rfl
  interrupts_tick t now later hnow hlater := by
    apply InterruptSet.eq_of_contains
    intro n hn
    rw [Bool.eq_iff_iff, contains_union _ _ hn, Bool.or_eq_true, TickRequest.contains_interrupts hn,
      TickRequest.contains_interrupts hn, TickRequest.contains_interrupts hn]
    show _ ∈ (t.tick now).2 ∨ _ ∈ ((t.tick now).1.tick later).2 ↔ _ ∈ (t.tick later).2
    rw [mem_tick, mem_tick, mem_tick, ← exists_or]
    refine exists_congr fun i => ?_
    rw [advance_tick hnow hlater i, mem_requests_or]

end TimerUnit

/-! ### The refresh controller -/

namespace Refresh

/-- Whether a match came before is only passed on. -/
theorem countTimes_matched (n : Nat) (r : Refresh) (matched : Bool) :
    countTimes n r matched = ((countTimes n r false).1, matched || (countTimes n r false).2) := by
  induction n generalizing r matched with
  | zero => simp [countTimes]
  | succ n ih =>
    have hfirst : ∀ before, countTimes (n + 1) r before = countTimes n r.count (before || r.matchesNext) := fun _ => rfl
    rw [hfirst, hfirst, ih r.count (matched || _), ih r.count (false || _)]
    simp [Bool.or_assoc]

/-- A counter that goes on counts as if it had never stopped. -/
private theorem countTimes_add (m n : Nat) (r : Refresh) :
    countTimes (m + n) r false =
      ((countTimes n (countTimes m r false).1 false).1,
        (countTimes m r false).2 || (countTimes n (countTimes m r false).1 false).2) := by
  induction m generalizing r with
  | zero => simp [countTimes]
  | succ m ih =>
    have hfirst : ∀ k, countTimes (k + 1) r false = countTimes k r.count r.matchesNext := by
      intro k
      simp [countTimes]
    rw [Nat.add_right_comm, hfirst, hfirst, countTimes_matched _ r.count, countTimes_matched m r.count, ih]
    simp [Bool.or_assoc]

/-- Counting leaves the clock and the interrupt enable alone. -/
private theorem countTimes_settings (n : Nat) (r : Refresh) (matched : Bool) :
    (countTimes n r matched).1.shift = r.shift ∧
      (countTimes n r matched).1.interruptEnabled = r.interruptEnabled := by
  induction n generalizing r matched with
  | zero => exact ⟨rfl, rfl⟩
  | succ n ih =>
    have hflag : ∀ x : UInt8, (x ||| 0x80) &&& 0x40 = x &&& 0x40 := by
      intro x
      apply UInt8.toBitVec_inj.1
      show (x.toBitVec ||| 0x80#8) &&& 0x40#8 = x.toBitVec &&& 0x40#8
      rw [BitVec.and_or_distrib_right]
      simp
    have hcount : r.count.shift = r.shift ∧ r.count.interruptEnabled = r.interruptEnabled := by
      by_cases hm : r.matchesNext = true
      · simp [count, hm, interruptEnabled, hflag]
      · simp [count, hm, interruptEnabled]
    obtain ⟨hshift, henabled⟩ := ih r.count (matched || r.matchesNext)
    exact ⟨hshift.trans hcount.1, henabled.trans hcount.2⟩

/-- The counter brought to a cycle count, and whether it matched on the way. -/
private def advance (r : Refresh) (now : UInt64) : Refresh × Bool := countTimes (r.countsUntil now) r false

/-- The last tick is nothing that the counter looks at. -/
private theorem countTimes_lastCycles (n : Nat) (r : Refresh) (matched : Bool) (last : UInt64) :
    countTimes n { r with lastCycles := last } matched =
      ({ (countTimes n r matched).1 with lastCycles := last }, (countTimes n r matched).2) := by
  induction n generalizing r matched with
  | zero => rfl
  | succ n ih =>
    have hfirst : ∀ before : Refresh, countTimes (n + 1) before matched =
        countTimes n before.count (matched || before.matchesNext) := fun _ => rfl
    have hcount : ({ r with lastCycles := last } : Refresh).count = { r.count with lastCycles := last } := by
      by_cases hm : r.matchesNext = true
      · have hm' : ({ r with lastCycles := last } : Refresh).matchesNext = true := hm
        rw [count, if_pos hm', count, if_pos hm]
      · have hm' : ¬({ r with lastCycles := last } : Refresh).matchesNext = true := hm
        rw [count, if_neg hm', count, if_neg hm]
    rw [hfirst, hfirst, hcount]
    exact ih r.count _

private theorem tick_eq (r : Refresh) (now : UInt64) :
    r.tick now = ({ (r.advance now).1 with lastCycles := now },
      if (r.advance now).2 && r.interruptEnabled then [.interrupt matchInterrupt] else []) := rfl

private theorem tick_requests (r : Refresh) (now : UInt64) :
    (r.tick now).2 = if (r.advance now).2 && r.interruptEnabled then [.interrupt matchInterrupt] else [] := rfl

private theorem tick_interrupts (r : Refresh) (now : UInt64) : ∀ q ∈ (r.tick now).2, ∃ n, q = .interrupt n := by
  intro q hq
  rw [tick_requests] at hq
  by_cases hm : ((r.advance now).2 && r.interruptEnabled) = true
  · rw [if_pos hm, List.mem_singleton] at hq
    exact ⟨_, hq⟩
  · rw [if_neg hm] at hq
    cases hq

/-- One match is as good as two. -/
private theorem interrupts_matched : ∀ first second enabled : Bool,
    (TickRequest.interrupts (if first && enabled then [.interrupt matchInterrupt] else [])).union
        (TickRequest.interrupts (if second && enabled then [.interrupt matchInterrupt] else [])) =
      TickRequest.interrupts (if (first || second) && enabled then [.interrupt matchInterrupt] else []) := by
  decide

/-- The second of two ticks takes up the counts that the first left to a later one. -/
private theorem advance_tick {r : Refresh} {now later : UInt64} (hnow : r.lastCycles ≤ now) (hlater : now ≤ later) :
    ∃ n, r.advance later =
        ((countTimes n (r.advance now).1 false).1, (r.advance now).2 || (countTimes n (r.advance now).1 false).2) ∧
      (r.tick now).1.advance later =
        ({ (countTimes n (r.advance now).1 false).1 with lastCycles := now },
          (countTimes n (r.advance now).1 false).2) := by
  refine ⟨(r.tick now).1.countsUntil later, ?_, ?_⟩
  · have hshift : (r.tick now).1.shift = r.shift := (countTimes_settings _ r false).1
    have hlast : (r.tick now).1.lastCycles = now := rfl
    have hcounts : r.countsUntil later = r.countsUntil now + (r.tick now).1.countsUntil later := by
      unfold countsUntil
      rw [hshift, hlast]
      by_cases hzero : r.shift = 0
      · simp [hzero]
      · rw [if_neg hzero, if_neg hzero, if_neg hzero, counts_add r.shift hnow hlater]
    unfold advance
    rw [hcounts, countTimes_add]
  · exact countTimes_lastCycles _ _ _ _

theorem merges : Merges lastCycles where
  last_tick _ _ := rfl
  tick_tick r now later hnow hlater := by
    obtain ⟨n, hwhole, hsecond⟩ := advance_tick hnow hlater
    show ((r.tick now).1.tick later).1 = (r.tick later).1
    rw [tick_eq (r.tick now).1, tick_eq r later, hsecond, hwhole]
  interrupts_tick r now later hnow hlater := by
    obtain ⟨n, hwhole, hsecond⟩ := advance_tick hnow hlater
    have henabled : (r.tick now).1.interruptEnabled = r.interruptEnabled := (countTimes_settings _ r false).2
    show (TickRequest.interrupts (r.tick now).2).union (TickRequest.interrupts ((r.tick now).1.tick later).2) =
      TickRequest.interrupts (r.tick later).2
    rw [tick_requests, tick_requests, tick_requests, hsecond, hwhole, henabled]
    exact interrupts_matched _ _ _

end Refresh

/-! ### Slices of time -/

/-- Between two accesses it does not matter how often the timer unit and the refresh controller are ticked: the last tick
alone leaves the same device and asks for the same interrupts, which are what a bus collects from it. -/
theorem ticks_in_slices {times : List UInt64} (hne : times ≠ []) :
    (∀ t : TimerUnit, (t.lastCycles :: times).IsChain (· ≤ ·) →
      ChipDevice.ticks times t = ChipDevice.ticks [times.getLast hne] t) ∧
    (∀ r : Refresh, (r.lastCycles :: times).IsChain (· ≤ ·) →
      ChipDevice.ticks times r = ChipDevice.ticks [times.getLast hne] r) ∧
    (∀ {δ : Type} [Device δ] (bus : DeviceBus δ) (m : Mapping) (now : UInt64),
      (∀ (wrap : TimerUnit → δ) (t : TimerUnit),
        DeviceBus.perform m (.ofRequests ((t.tick now).map wrap id)) {} bus =
          .ok (TickRequest.interrupts (t.tick now).2) (bus.reopened m (wrap (t.tick now).1))) ∧
      ∀ (wrap : Refresh → δ) (r : Refresh),
        DeviceBus.perform m (.ofRequests ((r.tick now).map wrap id)) {} bus =
          .ok (TickRequest.interrupts (r.tick now).2) (bus.reopened m (wrap (r.tick now).1))) := by
  refine ⟨?_, ?_, ?_⟩
  · intro t hsorted
    exact TimerUnit.merges.ticks times hne t hsorted
  · intro r hsorted
    exact Refresh.merges.ticks times hne r hsorted
  · intro δ _ bus m now
    constructor
    · intro wrap t
      exact congrFun (DeviceBus.perform_interrupts (t.tick_interrupts now) m _ _ {}) bus
    · intro wrap r
      exact congrFun (DeviceBus.perform_interrupts (r.tick_interrupts now) m _ _ {}) bus

/-- Two channels on different clocks, of which the first begins anew at a match. -/
def TimerUnit.twoChannels : TimerUnit where
  tstr := 0xC3
  channels := #v[{ tcr := 0xA1, tier := 0xFF, gra := 3 }, { tcr := 0x82, grb := 2 }, {}, {}, {}]

/-- A counter on the fastest clock, four counts from its match. -/
def Refresh.nearMatch : Refresh where
  rtmcsr := 0x48
  rtcor := 4
  shift := 1

theorem ticks_in_slices_between_instructions :
    (([3, 10, 10, 25] : List UInt64) ≠ [] ∧
      (TimerUnit.twoChannels.lastCycles :: [3, 10, 10, 25]).IsChain (· ≤ ·) ∧
      (Refresh.nearMatch.lastCycles :: [3, 10, 10, 25]).IsChain (· ≤ ·)) ∧
    ChipDevice.ticks [3, 10, 10, 25] TimerUnit.twoChannels = ChipDevice.ticks [25] TimerUnit.twoChannels ∧
    ChipDevice.ticks [3, 10, 10, 25] Refresh.nearMatch = ChipDevice.ticks [25] Refresh.nearMatch ∧
    (ChipDevice.ticks [25] TimerUnit.twoChannels).2.toList = [24, 26] ∧
    (ChipDevice.ticks [25] Refresh.nearMatch).2.toList = [21] := by
  have hne : ([3, 10, 10, 25] : List UInt64) ≠ [] := by decide
  have htimers : (TimerUnit.twoChannels.lastCycles :: [3, 10, 10, 25]).IsChain (· ≤ ·) := by decide
  have hrefresh : (Refresh.nearMatch.lastCycles :: [3, 10, 10, 25]).IsChain (· ≤ ·) := by decide
  have h := ticks_in_slices hne
  exact ⟨⟨hne, htimers, hrefresh⟩, h.1 _ htimers, h.2.1 _ hrefresh, by decide +kernel, by decide +kernel⟩

end H8S
