import H8S.Proofs.SerialQueues

/-!
# The pace of a transmitter

A byte time that is over begins again at the tick that finds it over, not where it ended: what the tick came late is lost.
So the ticks that request the interrupt of the empty transmitter are those that come at least a byte time after the one before
(`transmissions_eq`), and of the time that passed, their number counts the byte times in what is left without the lost
cycles (`expiries_balance`).  That is the number of byte times in the whole time only as long as the lost cycles fit in what is
left over (`transmissions_paced`); three ticks of almost a byte time are enough to miss one (`transmissions_fall_behind`).
-/

namespace H8S.SerialChannel

variable {s : SerialChannel} {now : UInt64} {start : Nat}

/-- The ticks, of some in a row, that request the interrupt of the empty transmitter. -/
def transmissions (s : SerialChannel) : List UInt64 → List UInt64
  | [] => []
  | now :: later =>
    if .interrupt s.transmitInterrupt ∈ (s.tick now).2 then now :: transmissions (s.tick now).1 later
    else transmissions (s.tick now).1 later

/-- The ticks, of some in a row, that come a byte time or more after the last such tick; the first byte time begins at
`start`. -/
def expiries (start : Nat) : List UInt64 → List UInt64
  | [] => []
  | now :: later => if start + 5120 ≤ now.toNat then now :: expiries now.toNat later else expiries start later

/-- The cycles by which these ticks are late, in all. -/
def lost (start : Nat) : List UInt64 → Nat
  | [] => 0
  | now :: later => if start + 5120 ≤ now.toNat then now.toNat - (start + 5120) + lost now.toNat later else lost start later

/-- The interrupt of the empty transmitter is enabled, and the byte time that is running began at the cycle count `start`. -/
structure Sending (s : SerialChannel) (start : Nat) : Prop where
  enabled : s.scr &&& 0x80 ≠ 0
  timer : s.timer.toInt = start + 5120 - s.lastCycles.toNat
  started : start ≤ s.lastCycles.toNat
  unfinished : s.lastCycles.toNat < start + 5120

/-! ### Single ticks -/

/-- Receiving has no part in what the transmitter does. -/
private theorem receive_transmitter (s : SerialChannel) :
    s.receive.1.scr = s.scr ∧ s.receive.1.timer = s.timer ∧ s.receive.1.lastCycles = s.lastCycles ∧
      s.receive.1.irqOffset = s.irqOffset ∧ .interrupt s.transmitInterrupt ∉ s.receive.2 := by
  have hne : s.transmitInterrupt ≠ s.receiveInterrupt := fun h =>
    absurd (UInt8.add_left_inj s.irqOffset |>.1 h) (by decide)
  unfold receive
  split
  · split
    · simp [hne]
    · simp
  · simp

private theorem tick_kept (s : SerialChannel) (now : UInt64) :
    (s.tick now).1.scr = s.scr ∧ (s.tick now).1.lastCycles = now := by
  have hkept : (s.transmit now).1.scr = s.scr ∧ (s.transmit now).1.lastCycles = now := by
    unfold transmit
    simp only
    split
    · split
      · exact ⟨rfl, rfl⟩
      · exact ⟨rfl, rfl⟩
    · exact ⟨rfl, rfl⟩
  obtain ⟨hscr, -, hlast, -⟩ := (s.transmit now).1.receive_transmitter
  exact ⟨hscr.trans hkept.1, hlast.trans hkept.2⟩

private theorem elapsed_toInt (hle : s.lastCycles ≤ now) (hnow : now.toNat < 2 ^ 63) :
    (s.elapsed now).toInt = now.toNat - s.lastCycles.toNat := by
  have hle' := UInt64.le_iff_toNat_le.1 hle
  have hsub : (now - s.lastCycles).toNat = now.toNat - s.lastCycles.toNat := UInt64.toNat_sub_of_le _ _ hle
  unfold elapsed
  rw [if_neg (UInt64.not_lt.2 hle), ← Int64.toInt_toBitVec, UInt64.toBitVec_toInt64, BitVec.toInt_eq_toNat_bmod,
    UInt64.toNat_toBitVec, hsub, Int.bmod_eq_of_le (by omega) (by omega)]
  omega

private theorem pos_iff (x : Int64) : 0 < x ↔ 0 < x.toInt := Int64.lt_iff_toInt_lt

namespace Sending

theorem running (h : s.Sending start) : 0 < s.timer := by
  have hlt := h.unfinished
  rw [pos_iff, h.timer]
  omega

/-- What is left of the byte time at a tick; it is negative if the tick is late. -/
theorem left (h : s.Sending start) (hle : s.lastCycles ≤ now) (hnow : now.toNat < 2 ^ 63) :
    (s.timer - s.elapsed now).toInt = start + 5120 - now.toNat := by
  have hle' := UInt64.le_iff_toNat_le.1 hle
  have hstarted := h.started
  rw [Int64.toInt_sub, elapsed_toInt hle hnow, h.timer, Int.bmod_eq_of_le (by omega) (by omega)]
  omega

/-- The transmitter alone lets a byte time run on, or begins the next one. -/
private theorem transmit (h : s.Sending start) (hle : s.lastCycles ≤ now) (hnow : now.toNat < 2 ^ 63) :
    (start + 5120 ≤ now.toNat →
        (s.transmit now).1.Sending now.toNat ∧ .interrupt s.transmitInterrupt ∈ (s.transmit now).2) ∧
      (now.toNat < start + 5120 →
        (s.transmit now).1.Sending start ∧ .interrupt s.transmitInterrupt ∉ (s.transmit now).2) := by
  have hle' := UInt64.le_iff_toNat_le.1 hle
  have hrunning := h.running
  have hleft := h.left hle hnow
  have henabled := h.enabled
  have hstarted := h.started
  refine ⟨fun hlate => ?_, fun hearly => ?_⟩
  · have hover : ¬0 < s.timer - s.elapsed now := by
      rw [pos_iff, hleft]
      omega
    have htransmit : (s.transmit now).1 = { s with timer := 5120, ssr := s.ssr ||| 0x84, lastCycles := now } := by
      unfold SerialChannel.transmit
      simp [hrunning, hover, byteCycles]
    refine ⟨?_, ?_⟩
    · rw [htransmit]
      refine ⟨henabled, ?_, Nat.le_refl _, Nat.lt_add_of_pos_right (by decide)⟩
      show (5120 : Int) = now.toNat + 5120 - now.toNat
      omega
    · unfold SerialChannel.transmit
      simp only [hrunning, hover, henabled, bne_iff_ne, ne_eq, not_false_eq_true, if_true, if_false]
      exact List.mem_append_left _ (List.mem_singleton.2 rfl)
  · have hstill : 0 < s.timer - s.elapsed now := by
      rw [pos_iff, hleft]
      omega
    have htransmit : s.transmit now = ({ s with timer := s.timer - s.elapsed now, lastCycles := now }, []) := by
      unfold SerialChannel.transmit
      simp only [hrunning, hstill, if_true]
    rw [htransmit]
    exact ⟨⟨henabled, hleft, Nat.le_trans hstarted hle', hearly⟩, List.not_mem_nil⟩

/-- A tick in the byte time lets it run on; the first one after it requests the interrupt, and begins the next byte time. -/
theorem tick (h : s.Sending start) (hle : s.lastCycles ≤ now) (hnow : now.toNat < 2 ^ 63) :
    (start + 5120 ≤ now.toNat → (s.tick now).1.Sending now.toNat ∧ .interrupt s.transmitInterrupt ∈ (s.tick now).2) ∧
      (now.toNat < start + 5120 → (s.tick now).1.Sending start ∧ .interrupt s.transmitInterrupt ∉ (s.tick now).2) := by
  obtain ⟨hscr, htimer, hlast, -, hother⟩ := (s.transmit now).1.receive_transmitter
  have hoff : (s.transmit now).1.irqOffset = s.irqOffset := congrArg Prod.fst (transmit_queues s now)
  have htick : s.tick now = ((s.transmit now).1.receive.1, (s.transmit now).2 ++ (s.transmit now).1.receive.2) := rfl
  have hsending : ∀ {at0}, (s.transmit now).1.Sending at0 → (s.tick now).1.Sending at0 := by
    rintro at0 ⟨h₁, h₂, h₃, h₄⟩
    rw [htick]
    exact ⟨hscr ▸ h₁, by rw [htimer, hlast]; exact h₂, hlast ▸ h₃, hlast ▸ h₄⟩
  have hmem : .interrupt s.transmitInterrupt ∈ (s.tick now).2 ↔ .interrupt s.transmitInterrupt ∈ (s.transmit now).2 := by
    have hnot : .interrupt s.transmitInterrupt ∉ (s.transmit now).1.receive.2 := by
      rw [transmitInterrupt, hoff] at hother
      exact hother
    rw [htick, List.mem_append, or_iff_left hnot]
  rw [hmem]
  obtain ⟨hover, hearly⟩ := h.transmit hle hnow
  exact ⟨fun hl => ⟨hsending (hover hl).1, (hover hl).2⟩, fun hl => ⟨hsending (hearly hl).1, (hearly hl).2⟩⟩

end Sending

/-! ### Ticks in a row -/

/-- The interrupt is requested at the first tick a byte time or more after the last request. -/
theorem transmissions_eq (h : s.Sending start) (times : List UInt64) (hsorted : (s.lastCycles :: times).IsChain (· ≤ ·))
    (hbound : ∀ t ∈ times, t.toNat < 2 ^ 63) : s.transmissions times = expiries start times := by
  induction times generalizing s start with
  | nil => rfl
  | cons now later ih =>
    obtain ⟨hle, hlater⟩ := List.isChain_cons_cons.1 hsorted
    obtain ⟨hnow, hbound⟩ := List.forall_mem_cons.1 hbound
    have hlast := (s.tick_kept now).2
    obtain ⟨hover, hearly⟩ := h.tick hle hnow
    rw [transmissions, expiries]
    by_cases hlate : start + 5120 ≤ now.toNat
    · obtain ⟨hsending, hmem⟩ := hover hlate
      rw [if_pos hmem, if_pos hlate, ih hsending (hlast.symm ▸ hlater) hbound]
    · obtain ⟨hsending, hmem⟩ := hearly (Nat.lt_of_not_le hlate)
      rw [if_neg hmem, if_neg hlate, ih hsending (hlast.symm ▸ hlater) hbound]

/-- The time that passes is made up of the byte times that were counted, the lost cycles, and a part of the next. -/
theorem expiries_balance (times : List UInt64) (t₀ : UInt64) (hsorted : (t₀ :: times).IsChain (· ≤ ·))
    (hstart : start ≤ t₀.toNat) (hlt : t₀.toNat < start + 5120) :
    let last := ((t₀ :: times).getLast (List.cons_ne_nil _ _)).toNat
    start + 5120 * (expiries start times).length + lost start times ≤ last ∧
      last < start + 5120 * (expiries start times).length + lost start times + 5120 := by
  induction times generalizing start t₀ with
  | nil => exact ⟨hstart, hlt⟩
  | cons now later ih =>
    obtain ⟨hle, hlater⟩ := List.isChain_cons_cons.1 hsorted
    have hle' := UInt64.le_iff_toNat_le.1 hle
    rw [List.getLast_cons (List.cons_ne_nil _ _), expiries, lost]
    by_cases hlate : start + 5120 ≤ now.toNat
    · obtain ⟨h₁, h₂⟩ := ih now hlater (Nat.le_refl _) (Nat.lt_add_of_pos_right (by decide))
      rw [if_pos hlate, if_pos hlate, List.length_cons]
      omega
    · obtain ⟨h₁, h₂⟩ := ih now hlater (Nat.le_trans hstart hle') (Nat.lt_of_not_le hlate)
      rw [if_neg hlate, if_neg hlate]
      omega

/-- A byte that is written right after a tick takes its time from that tick on. -/
theorem sending_write {addr : UInt32} (haddr : addr &&& 7 = 3) (value : UInt8) (htie : s.scr &&& 0x80 ≠ 0) (t₀ : UInt64) :
    ((s.tick t₀).1.write8 addr value).Sending t₀.toNat ∧ ((s.tick t₀).1.write8 addr value).lastCycles = t₀ := by
  obtain ⟨hscr, hlast⟩ := s.tick_kept t₀
  have hwrite : (s.tick t₀).1.write8 addr value = (s.tick t₀).1.writeData value := by
    unfold write8
    rw [(named_registers addr).1.1 haddr]
    rfl
  have hlast' : ((s.tick t₀).1.writeData value).lastCycles = t₀ := hlast
  rw [hwrite]
  refine ⟨⟨?_, ?_, ?_, ?_⟩, hlast'⟩
  · show (s.tick t₀).1.scr &&& 0x80 ≠ 0
    rw [hscr]
    exact htie
  · rw [hlast']
    show (5120 : Int) = t₀.toNat + 5120 - t₀.toNat
    omega
  · rw [hlast']
  · rw [hlast']
    exact Nat.lt_add_of_pos_right (by decide)

/-- Of the ticks after a byte was written, and with nothing else written, those request the interrupt that come a byte time
or more after the one before.  Their number is that of the byte times in the time that passed without the lost cycles, and so
that of all byte times passed exactly as long as the lost cycles and what is left over make no byte time. -/
theorem transmissions_paced (s : SerialChannel) {addr : UInt32} (haddr : addr &&& 7 = 3) (value : UInt8) {t₀ : UInt64}
    {times : List UInt64} (htie : s.scr &&& 0x80 ≠ 0) (hsorted : (t₀ :: times).IsChain (· ≤ ·))
    (hbound : ∀ t ∈ times, t.toNat < 2 ^ 63) :
    let requested := ((s.tick t₀).1.write8 addr value).transmissions times
    let time := ((t₀ :: times).getLast (List.cons_ne_nil _ _)).toNat - t₀.toNat
    let late := lost t₀.toNat times
    requested = expiries t₀.toNat times ∧ late ≤ time ∧ requested.length = (time - late) / 5120 ∧
      (requested.length = time / 5120 ↔ late + (time - late) % 5120 < 5120) := by
  intro requested time late
  obtain ⟨hsending, hlast⟩ := s.sending_write haddr value htie t₀
  have hrequested : requested = expiries t₀.toNat times := transmissions_eq hsending times (hlast.symm ▸ hsorted) hbound
  have hbalance := expiries_balance times t₀ hsorted (Nat.le_refl _) (Nat.lt_add_of_pos_right (by decide))
  rw [← hrequested] at hbalance
  obtain ⟨hle, hlt⟩ := hbalance
  refine ⟨hrequested, ?_, ?_, ?_⟩ <;> omega

/-- A channel with the interrupt of the empty transmitter enabled. -/
def interrupting : SerialChannel := { scr := 0x80 }

/-- Of three ticks the second is late by almost a byte time, and only this one requests the interrupt. -/
theorem transmissions_paced_late :
    ((0xFFFFB3 : UInt32) &&& 7 = 3 ∧ interrupting.scr &&& 0x80 ≠ 0 ∧
      ([0, 5119, 10238, 15357] : List UInt64).IsChain (· ≤ ·) ∧
      ∀ t ∈ ([5119, 10238, 15357] : List UInt64), t.toNat < 2 ^ 63) ∧
    ((interrupting.tick 0).1.write8 0xFFFFB3 0x90).transmissions [5119, 10238, 15357] = [10238] ∧
    lost 0 [5119, 10238, 15357] = 5118 := by
  have haddr : (0xFFFFB3 : UInt32) &&& 7 = 3 := by decide
  have htie : interrupting.scr &&& 0x80 ≠ 0 := by decide
  have hsorted : ([0, 5119, 10238, 15357] : List UInt64).IsChain (· ≤ ·) := by decide
  have hbound : ∀ t ∈ ([5119, 10238, 15357] : List UInt64), t.toNat < 2 ^ 63 := by simp
  obtain ⟨hrequested, -⟩ := transmissions_paced interrupting haddr 0x90 htie hsorted hbound
  exact ⟨⟨haddr, htie, hsorted, hbound⟩, hrequested.trans (by decide +kernel), by decide +kernel⟩

/-- Ticks that are less than a byte time apart, after which two byte times have passed and the interrupt was requested once. -/
theorem transmissions_fall_behind :
    interrupting.scr &&& 0x80 ≠ 0 ∧
    ([0, 5119, 10238, 15357] : List UInt64).IsChain (fun a b => a ≤ b ∧ b - a < 5120) ∧
    (∀ t ∈ ([5119, 10238, 15357] : List UInt64), t.toNat < 2 ^ 63) ∧
    (((interrupting.tick 0).1.write8 0xFFFFB3 0x90).transmissions [5119, 10238, 15357]).length ≠ (15357 - 0) / 5120 :=
  ⟨by decide, by decide, by simp, by decide +kernel⟩

end H8S.SerialChannel
