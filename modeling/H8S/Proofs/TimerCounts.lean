import H8S.Proofs.TickSlicing

/-!
# Counting channels

A channel that counts cycles runs modulo one more than its top: the register that clears it or, if none does, the last count
there is.  One count takes it to the next remainder (`TimerChannel.tcnt_count`), so `n` counts take it `n` remainders further,
and the flags they set are those of the values they started from (`TimerChannel.countTimes_eq`).

A tick of the unit makes the counts of all channels at once, and their interrupts are told apart by their numbers
(`TimerUnit.interruptOf_inj`).  So every channel is brought to its count and requests its own interrupts, whatever the
others do (`TimerUnit.counting_modular`).
-/

namespace H8S

namespace TimerChannel

/-- The count after which a channel begins anew: that of the register that clears it, or the last there is. -/
def top (c : TimerChannel) : Nat :=
  if c.tcr &&& 0x60 = 0x20 then c.gra.toNat
  else if c.tcr &&& 0x60 = 0x40 then c.grb.toNat
  else 0xFFFF

/-- Where a channel stands `j` counts later. -/
def ahead (c : TimerChannel) (j : Nat) : Nat := (c.tcnt.toNat + j) % (c.top + 1)

/-- What a flag of a channel waits for: the count of either register, or zero. -/
def awaited (c : TimerChannel) : Fin 3 → UInt16
  | 0 => c.gra
  | 1 => c.grb
  | 2 => 0

/-- One of the next `n` counts starts from the value that a flag waits for. -/
def Meets (c : TimerChannel) (n : Nat) (b : Fin 3) : Prop := ∃ j < n, c.ahead j = (c.awaited b).toNat

instance (c : TimerChannel) (n : Nat) (b : Fin 3) : Decidable (c.Meets n b) :=
  inferInstanceAs (Decidable (∃ j < n, _))

/-- The flags that the next `n` counts set. -/
def met (c : TimerChannel) (n : Nat) : UInt8 :=
  flag (c.Meets n 0) 0x01 ||| flag (c.Meets n 1) 0x02 ||| flag (c.Meets n 2) 0x04

variable {c : TimerChannel}

/-! ### Single counts -/

theorem top_lt (c : TimerChannel) : c.top < 65536 := by
  have ha := c.gra.toNat_lt
  have hb := c.grb.toNat_lt
  unfold top
  split
  · exact ha
  · split
    · exact hb
    · decide

@[simp] theorem top_count (c : TimerChannel) : c.count.top = c.top := rfl

/-- A channel is cleared at its top, unless that is the last count, which is followed by zero anyhow. -/
private theorem clears_iff (c : TimerChannel) :
    c.clears = true ↔ (c.tcr &&& 0x60 = 0x20 ∨ c.tcr &&& 0x60 = 0x40) ∧ c.tcnt.toNat = c.top := by
  unfold clears top
  by_cases ha : c.tcr &&& 0x60 = 0x20
  · simp [ha, UInt16.toNat_inj]
  · by_cases hb : c.tcr &&& 0x60 = 0x40
    · simp [hb, UInt16.toNat_inj]
    · simp [ha, hb]

private theorem top_of_free (h : ¬(c.tcr &&& 0x60 = 0x20 ∨ c.tcr &&& 0x60 = 0x40)) : c.top = 0xFFFF := by
  obtain ⟨ha, hb⟩ := not_or.1 h
  unfold top
  rw [if_neg ha, if_neg hb]

/-- After its top a channel begins anew. -/
theorem tcnt_count (h : c.tcnt.toNat ≤ c.top) : c.count.tcnt.toNat = c.ahead 1 := by
  have hlt := c.top_lt
  have hnext : c.count.tcnt.toNat = if c.clears then 0 else (c.tcnt.toNat + 1) % 65536 := by
    unfold count
    cases c.clears with
    | true => rfl
    | false => simp
  rw [hnext, ahead]
  by_cases htop : c.tcnt.toNat = c.top
  · rw [htop, Nat.mod_self]
    by_cases hsel : c.tcr &&& 0x60 = 0x20 ∨ c.tcr &&& 0x60 = 0x40
    · rw [if_pos (c.clears_iff.2 ⟨hsel, htop⟩)]
    · rw [top_of_free hsel]
      simp
  · have hno : ¬c.clears = true := fun hc => htop (c.clears_iff.1 hc).2
    rw [if_neg hno, Nat.mod_eq_of_lt (by omega), Nat.mod_eq_of_lt (by omega)]

/-! ### Counts in a row -/

theorem ahead_lt (c : TimerChannel) (j : Nat) : c.ahead j < c.top + 1 := Nat.mod_lt _ (Nat.succ_pos _)

theorem ahead_zero (h : c.tcnt.toNat ≤ c.top) : c.ahead 0 = c.tcnt.toNat := Nat.mod_eq_of_lt (Nat.lt_succ_of_le h)

/-- A count brings all that is ahead one count nearer. -/
theorem ahead_count (h : c.tcnt.toNat ≤ c.top) (j : Nat) : c.count.ahead j = c.ahead (j + 1) := by
  unfold ahead
  rw [tcnt_count h, ahead, top_count, Nat.mod_add_mod, Nat.add_assoc, Nat.add_comm 1 j]

theorem meets_succ (h : c.tcnt.toNat ≤ c.top) (n : Nat) (b : Fin 3) :
    c.Meets (n + 1) b ↔ c.tcnt = c.awaited b ∨ c.count.Meets n b := by
  have hfirst : c.ahead 0 = (c.awaited b).toNat ↔ c.tcnt = c.awaited b := by
    rw [ahead_zero h, UInt16.toNat_inj]
  have hlater : ∀ j, c.count.ahead j = (c.count.awaited b).toNat ↔ c.ahead (j + 1) = (c.awaited b).toNat := by
    intro j
    rw [ahead_count h]
    rfl
  unfold Meets
  simp only [hlater]
  rw [Nat.exists_lt_succ_left, hfirst]

private theorem flag_or (p q : Bool) (mask : UInt8) : flag (p || q) mask = flag p mask ||| flag q mask := by
  cases p <;> cases q <;> simp [flag]

theorem met_succ (h : c.tcnt.toNat ≤ c.top) (n : Nat) : c.met (n + 1) = c.hits ||| c.count.met n := by
  have hflag : ∀ b, decide (c.Meets (n + 1) b) = (c.tcnt == c.awaited b || decide (c.count.Meets n b)) := by
    intro b
    rw [Bool.eq_iff_iff]
    simp [meets_succ h]
  unfold met hits
  rw [hflag, hflag, hflag, flag_or, flag_or, flag_or]
  simp only [awaited]
  ac_rfl

/-- `n` counts leave a channel at the count ahead, with the flags of the values it met on the way. -/
theorem countTimes_eq (n : Nat) (h : c.tcnt.toNat ≤ c.top) :
    c.countTimes n 0 =
      ({ c with tcnt := (c.ahead n).toUInt16, tsr := c.tsr ||| c.met n }, c.met n &&& c.tier) := by
  induction n generalizing c with
  | zero =>
    have hnone : c.met 0 = 0 := by simp [met, Meets, flag]
    rw [hnone, ahead_zero h]
    simp [countTimes]
  | succ n ih =>
    have hle : c.count.tcnt.toNat ≤ c.count.top := by
      rw [tcnt_count h]
      exact Nat.le_of_lt_succ (c.ahead_lt 1)
    have hfirst : c.countTimes (n + 1) 0 = c.count.countTimes n (c.hits &&& c.tier) := by simp [countTimes]
    rw [hfirst, countTimes_requested, ih hle, ahead_count h, met_succ h]
    refine Prod.ext ?_ ?_
    · simp [count, UInt8.or_assoc]
    · apply UInt8.toBitVec_inj.1
      exact BitVec.and_or_distrib_right.symm

theorem testBit_met (c : TimerChannel) (n : Nat) (b : Fin 3) : (c.met n).toNat.testBit b = decide (c.Meets n b) := by
  have hbits : ∀ p q r : Bool, ∀ b : Fin 3,
      (flag p 0x01 ||| flag q 0x02 ||| flag r 0x04).toNat.testBit b = [p, q, r].getD b false := by
    decide
  unfold met
  rw [hbits]
  match b with
  | 0 => rfl
  | 1 => rfl
  | 2 => rfl

end TimerChannel

namespace TimerUnit

variable {t : TimerUnit}

/-! ### Which channels count -/

def channel (t : TimerUnit) (i : Fin 5) : TimerChannel := t.channels.get i

/-- A channel is started, not in PWM mode, and on the internal clock. -/
def Counts (t : TimerUnit) (i : Fin 5) : Prop :=
  t.tstr.toNat.testBit i = true ∧ t.tmdr.toNat.testBit i = false ∧ (t.channel i).tcr.toNat.testBit 2 = false

instance (t : TimerUnit) (i : Fin 5) : Decidable (t.Counts i) := inferInstanceAs (Decidable (_ ∧ _))

private theorem hasBit_eq (x : UInt8) (i : Fin 5) : hasBit x i = x.toNat.testBit i := by
  have hone : ∀ y : UInt8, (y &&& 1 != 0) = true ↔ y &&& 1 = 1 := by
    intro y
    rw [bne_iff_ne, ne_eq, ← UInt8.toNat_inj, ← UInt8.toNat_inj]
    simp
  have hi : i.val.toUInt8.toNat % 8 = i := by
    show i.val % 256 % 8 = i
    omega
  rw [Bool.eq_iff_iff, hasBit, hone, shifted_eq_one, hi]

theorem running_iff (t : TimerUnit) (i : Fin 5) : t.running i = true ↔ t.Counts i := by
  have hclock : ∀ x : UInt8, (x &&& 0x04 == 0) = !x.toNat.testBit 2 := by
    intro x
    have hbits : ∀ v : BitVec 8, (v &&& 0x04#8 == 0#8) = !v.getLsbD 2 := by decide
    have h := hbits x.toBitVec
    rw [← BitVec.testBit_toNat] at h
    rw [← UInt8.toNat_toBitVec, ← h, Bool.eq_iff_iff, beq_iff_eq, beq_iff_eq, ← UInt8.toBitVec_inj]
    rfl
  have hrunning : t.running i = (hasBit t.tstr i && !hasBit t.tmdr i && (t.channel i).tcr &&& 0x04 == 0) := rfl
  unfold Counts
  rw [hrunning, hasBit_eq, hasBit_eq, hclock]
  simp [and_assoc]

/-! ### Interrupts -/

/-- The interrupt of a flag of a channel. -/
def interruptOf (i : Fin 5) (b : Fin 3) : UInt8 := 24 + 4 * i.val.toUInt8 + b.val.toUInt8

theorem interruptOf_inj : ∀ {i k : Fin 5} {b d : Fin 3}, interruptOf i b = interruptOf k d → i = k ∧ b = d := by
  decide

theorem mem_requests_iff (i : Fin 5) (requested : UInt8) (r : TickRequest) :
    r ∈ requests i requested ↔ ∃ b : Fin 3, requested.toNat.testBit b = true ∧ r = .interrupt (interruptOf i b) := by
  have hbit : ∀ b : Fin 3, (requested >>> b.val.toUInt8) &&& 1 = 1 ↔ requested.toNat.testBit b = true := by
    intro b
    have hb : b.val.toUInt8.toNat % 8 = b := by
      show b.val % 256 % 8 = b
      omega
    rw [shifted_eq_one, hb]
  rw [mem_requests]
  constructor
  · rintro ⟨bit, hmem, hset, rfl⟩
    obtain ⟨b, rfl⟩ : ∃ b : Fin 3, bit = b.val.toUInt8 := by
      simp only [List.mem_cons, List.not_mem_nil, or_false] at hmem
      rcases hmem with rfl | rfl | rfl
      · exact ⟨0, rfl⟩
      · exact ⟨1, rfl⟩
      · exact ⟨2, rfl⟩
    exact ⟨b, (hbit b).1 hset, rfl⟩
  · rintro ⟨b, hset, rfl⟩
    refine ⟨b.val.toUInt8, ?_, (hbit b).2 hset, rfl⟩
    match b with
    | 0 => decide
    | 1 => decide
    | 2 => decide

theorem interrupt_mem_tick (t : TimerUnit) (now : UInt64) (i : Fin 5) (b : Fin 3) :
    .interrupt (interruptOf i b) ∈ (t.tick now).2 ↔ (t.advance now i).2.toNat.testBit b = true := by
  simp only [mem_tick, mem_requests_iff]
  constructor
  · rintro ⟨k, d, hset, he⟩
    obtain ⟨rfl, rfl⟩ := interruptOf_inj (TickRequest.interrupt.inj he)
    exact hset
  · exact fun hset => ⟨i, b, hset, rfl⟩

/-! ### Ticks -/

theorem advance_of_counts (now : UInt64) {i : Fin 5} (h : t.Counts i) (hle : (t.channel i).tcnt.toNat ≤ (t.channel i).top) :
    let c := t.channel i
    let n := (now.toNat >>> (c.tcr &&& 3).toNat) - (t.lastCycles.toNat >>> (c.tcr &&& 3).toNat)
    t.advance now i = ({ c with tcnt := (c.ahead n).toUInt16, tsr := c.tsr ||| c.met n }, c.met n &&& c.tier) := by
  intro c n
  have hn : countsBetween t.lastCycles now c.prescaler = n := by
    have hshift : c.prescaler.toNat % 64 = (c.tcr &&& 3).toNat := by
      have hle : (c.tcr &&& 3).toNat ≤ 3 := by
        rw [UInt8.toNat_and]
        exact Nat.and_le_right
      unfold TimerChannel.prescaler
      simp only [UInt8.toNat_toUInt64]
      omega
    unfold countsBetween
    rw [UInt64.toNat_shiftRight, UInt64.toNat_shiftRight, hshift]
  unfold advance
  rw [if_pos ((t.running_iff i).2 h)]
  show c.countTimes (countsBetween t.lastCycles now c.prescaler) 0 = _
  rw [hn, TimerChannel.countTimes_eq n hle]

theorem advance_of_not_counts (now : UInt64) {i : Fin 5} (h : ¬t.Counts i) : t.advance now i = (t.channel i, 0) := by
  unfold advance
  rw [if_neg (mt (t.running_iff i).1 h)]
  rfl

/-- A tick brings every channel that counts, from no further than its top, to the remainder of the counts that its divided
clock made since the last tick.  It sets the flags of the values met on the way and requests their interrupts as far as they
are enabled.  The other channels, and all other registers, stay as they are and request nothing. -/
theorem counting_modular (t : TimerUnit) (now : UInt64) :
    (t.tick now).1 = { t with channels := (t.tick now).1.channels, lastCycles := now } ∧
    (∀ r ∈ (t.tick now).2, ∃ i b, t.Counts i ∧ r = .interrupt (interruptOf i b)) ∧
    ∀ i : Fin 5,
      let c := t.channel i
      let n := (now.toNat >>> (c.tcr &&& 3).toNat) - (t.lastCycles.toNat >>> (c.tcr &&& 3).toNat)
      (t.Counts i → c.tcnt.toNat ≤ c.top →
        (t.tick now).1.channel i = { c with tcnt := (c.ahead n).toUInt16, tsr := c.tsr ||| c.met n } ∧
        ∀ b, .interrupt (interruptOf i b) ∈ (t.tick now).2 ↔ c.Meets n b ∧ c.tier.toNat.testBit b = true) ∧
      (¬t.Counts i → (t.tick now).1.channel i = c ∧ ∀ b, .interrupt (interruptOf i b) ∉ (t.tick now).2) := by
  refine ⟨rfl, fun r hr => ?_, fun i => ⟨fun hi hle => ?_, fun hi => ?_⟩⟩
  · obtain ⟨i, hi⟩ := (mem_tick t now r).1 hr
    obtain ⟨b, hset, rfl⟩ := (mem_requests_iff i _ r).1 hi
    refine ⟨i, b, Classical.byContradiction fun hno => ?_, rfl⟩
    rw [advance_of_not_counts now hno] at hset
    simp at hset
  · have hadv := advance_of_counts now hi hle
    refine ⟨(tick_channel t now i).trans (congrArg Prod.fst hadv), fun b => ?_⟩
    rw [interrupt_mem_tick, hadv, UInt8.toNat_and, Nat.testBit_and, TimerChannel.testBit_met]
    simp
  · have hadv := advance_of_not_counts now hi
    refine ⟨(tick_channel t now i).trans (congrArg Prod.fst hadv), fun b => ?_⟩
    rw [interrupt_mem_tick, hadv]
    simp

/-- The last channel runs freely, two counts before the last there is, and its interrupt of the first register is disabled. -/
def nearLast : TimerUnit where
  tstr := 0xD0
  channels := #v[{}, {}, {}, {}, { tcr := 0x83, tier := 0xFE, tcnt := 0xFFFE, gra := 0xFFFF, grb := 1 }]
  lastCycles := 5

/-- Four counts pass the last there is, and come by both registers and zero; the first channel stands still. -/
theorem counting_modular_nearLast :
    (nearLast.Counts 4 ∧ (nearLast.channel 4).tcnt.toNat ≤ (nearLast.channel 4).top ∧ ¬nearLast.Counts 0) ∧
    (nearLast.tick 37).1.channel 4 =
      { tcr := 0x83, tier := 0xFE, tsr := 0xFF, tcnt := 2, gra := 0xFFFF, grb := 1 } ∧
    .interrupt 40 ∉ (nearLast.tick 37).2 ∧ .interrupt 41 ∈ (nearLast.tick 37).2 ∧ .interrupt 42 ∈ (nearLast.tick 37).2 ∧
    (nearLast.tick 37).1.channel 0 = {} := by
  have hcounts : nearLast.Counts 4 := by decide +kernel
  have hle : (nearLast.channel 4).tcnt.toNat ≤ (nearLast.channel 4).top := by decide +kernel
  have hstopped : ¬nearLast.Counts 0 := by decide +kernel
  obtain ⟨-, -, hchannels⟩ := counting_modular nearLast 37
  obtain ⟨hchannel, hrequests⟩ := (hchannels 4).1 hcounts hle
  refine ⟨⟨hcounts, hle, hstopped⟩, hchannel.trans (by decide +kernel), fun h => ?_, (hrequests 1).2 (by decide +kernel),
    (hrequests 2).2 (by decide +kernel), ((hchannels 0).2 hstopped).1⟩
  exact absurd ((hrequests 0).1 h).2 (by decide +kernel)

end TimerUnit

end H8S
