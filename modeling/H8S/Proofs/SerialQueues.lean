import H8S.Peripheral.SerialChannel
import H8S.Proofs.TickSlicing

/-!
# The queues of a serial channel

Host, program and clock act on a channel in any order (`Event`).  What comes of an event is an `Outcome`, and a byte is
delivered when the interrupt of the receiver is requested.  Each event balances what enters a queue with what leaves it and
what stays (`step_input`, `step_output`), and so does a run by induction (`input_balance`, `output_balance`).  Deliveries are
the ticks that find the receiver empty and input waiting (`delivered?_isSome`); a full receiver is left alone until the
program empties it (`full_until_emptied`).  All this is `queues_lossless`.
-/

namespace H8S.SerialChannel

/-- What happens to a channel: the host provides bytes or takes the output, the program reads or writes a register, or
the channel is ticked. -/
inductive Event where
  | provide (bytes : List UInt8)
  | takeOutput
  | read (addr : UInt32)
  | write (addr : UInt32) (value : UInt8)
  | tick (now : UInt64)

/-- What comes of an event. -/
structure Outcome where
  channel : SerialChannel
  /-- What the program has read. -/
  answer : Option UInt8 := none
  /-- What the host has taken. -/
  taken : List UInt8 := []
  requests : List TickRequest := []

def step (s : SerialChannel) : Event → Outcome
  | .provide bytes => { channel := s.provide bytes }
  | .takeOutput => { channel := s.takeOutput.2, taken := s.takeOutput.1 }
  | .read addr => { channel := s, answer := some (ChipDevice.read8 s addr) }
  | .write addr value => { channel := ChipDevice.write8 s addr value }
  | .tick now => { channel := (ChipDevice.tick s now).1, requests := (ChipDevice.tick s now).2 }

/-- The byte that was delivered, if the interrupt of the receiver is requested. -/
def Outcome.delivered? (o : Outcome) : Option UInt8 :=
  if .interrupt o.channel.receiveInterrupt ∈ o.requests then some o.channel.rdr else none

def outcomes (s : SerialChannel) : List Event → List Outcome
  | [] => []
  | e :: es => s.step e :: outcomes (s.step e).channel es

/-- The channel after some events. -/
def after (s : SerialChannel) (es : List Event) : SerialChannel := es.foldl (fun s e => (s.step e).channel) s

/-- The bytes that were delivered to the receiver, in order. -/
def delivered (s : SerialChannel) (es : List Event) : List UInt8 := (s.outcomes es).filterMap Outcome.delivered?

/-- The bytes that the host has taken, in order. -/
def taken (s : SerialChannel) (es : List Event) : List UInt8 := (s.outcomes es).flatMap Outcome.taken

namespace Event

/-- The bytes that an event puts into the input. -/
def provided : Event → List UInt8
  | provide bytes => bytes
  | _ => []

/-- The byte that an event writes to the data register of the transmitter. -/
def sent : Event → List UInt8
  | write addr value => if addr &&& 7 = 3 then [value] else []
  | _ => []

end Event

/-! ### Registers -/

variable {s : SerialChannel} {now : UInt64} {e : Event}

/-- Whether the byte in the data register of the receiver was not taken yet. -/
def full (s : SerialChannel) : Bool := s.ssr &&& 0x40 != 0

/-- What a channel knows of its queues; the transmitter has no part in it. -/
def queues (s : SerialChannel) : UInt8 × List UInt8 × List UInt8 × UInt8 × Bool :=
  (s.irqOffset, s.input, s.output, s.rdr, s.full)

private theorem full_bits : ∀ v : BitVec 8, (v ||| 0x84) &&& 0x40 = v &&& 0x40 ∧ v &&& 0x7B &&& 0x40 = v &&& 0x40 ∧
    (v ||| 0x40) &&& 0x40 = 0x40 := by decide

private theorem full_masked (x : UInt8) : (x ||| 0x84) &&& 0x40 = x &&& 0x40 ∧ x &&& 0x7B &&& 0x40 = x &&& 0x40 ∧
    (x ||| 0x40) &&& 0x40 = 0x40 := by
  simpa [← UInt8.toBitVec_inj] using full_bits x.toBitVec

private theorem low_eq_iff (addr n : UInt32) (hn : n.toNat < 8) : addr &&& 7 = n ↔ register addr = ⟨n.toNat, hn⟩ := by
  rw [← UInt32.toNat_inj, UInt32.toNat_and, show (7 : UInt32).toNat = 2 ^ 3 - 1 from rfl, Nat.and_two_pow_sub_one_eq_mod,
    Fin.ext_iff]
  rfl

/-- The registers of the transmitted data, the status and the received data. -/
theorem named_registers (addr : UInt32) :
    (addr &&& 7 = 3 ↔ register addr = 3) ∧ (addr &&& 7 = 4 ↔ register addr = 4) ∧ (addr &&& 7 = 5 ↔ register addr = 5) :=
  ⟨low_eq_iff addr 3 (by decide), low_eq_iff addr 4 (by decide), low_eq_iff addr 5 (by decide)⟩

/-! ### Single events -/

theorem transmit_queues (s : SerialChannel) (now : UInt64) : (s.transmit now).1.queues = s.queues := by
  unfold transmit
  simp only
  split
  · split
    · rfl
    · simp [queues, full, full_masked]
  · rfl

/-- The transmitter requests its own interrupts only. -/
theorem mem_transmit_requests {r : TickRequest} (h : r ∈ (s.transmit now).2) :
    r = .interrupt s.transmitInterrupt ∨ r = .interrupt s.endInterrupt := by
  unfold transmit at h
  simp only at h
  split at h
  · split at h
    · cases h
    · simp only [List.mem_append] at h
      rcases h with h | h
      · split at h
        · exact .inl (List.mem_singleton.1 h)
        · cases h
      · split at h
        · exact .inr (List.mem_singleton.1 h)
        · cases h
  · cases h

theorem receive_of_ready {b : UInt8} {rest : List UInt8} (hfull : s.full = false) (hin : s.input = b :: rest) :
    s.receive =
      ({ s with input := rest, rdr := b, ssr := s.ssr ||| 0x40 }, [.interrupt s.receiveInterrupt]) := by
  have hclear : s.ssr &&& 0x40 = 0 := by simpa [full] using hfull
  unfold receive
  rw [if_pos hclear, hin]

theorem receive_of_not_ready (h : s.full = true ∨ s.input = []) : s.receive = (s, []) := by
  unfold receive
  rcases h with h | h
  · have hset : ¬s.ssr &&& 0x40 = 0 := by simpa [full] using h
    rw [if_neg hset]
  · split
    · rw [h]
    · rfl

private theorem queues_eq {s t : SerialChannel} (h : t.queues = s.queues) :
    t.irqOffset = s.irqOffset ∧ t.input = s.input ∧ t.output = s.output ∧ t.rdr = s.rdr ∧ t.full = s.full := by
  simpa [queues] using h

/-- A tick of a channel that is not full delivers the next byte. -/
theorem tick_of_ready {b : UInt8} {rest : List UInt8} (now : UInt64) (hfull : s.full = false) (hin : s.input = b :: rest) :
    (s.tick now).1.queues = (s.irqOffset, rest, s.output, b, true) ∧
      (s.tick now).2 = (s.transmit now).2 ++ [.interrupt s.receiveInterrupt] := by
  obtain ⟨hoff, hinput, houtput, -, hfull'⟩ := queues_eq (transmit_queues s now)
  have hr := receive_of_ready (hfull'.trans hfull) (hinput.trans hin)
  have htick : s.tick now = ((s.transmit now).1.receive.1, (s.transmit now).2 ++ (s.transmit now).1.receive.2) := rfl
  rw [htick, hr]
  refine ⟨?_, ?_⟩
  · simp [queues, full, full_masked, hoff, houtput]
  · rw [receiveInterrupt, hoff]
    rfl

/-- A tick of a channel that is full or has no input leaves its queues alone. -/
theorem tick_of_not_ready (now : UInt64) (h : s.full = true ∨ s.input = []) :
    (s.tick now).1.queues = s.queues ∧ (s.tick now).2 = (s.transmit now).2 := by
  obtain ⟨-, hinput, -, -, hfull'⟩ := queues_eq (transmit_queues s now)
  have hr := receive_of_not_ready (s := (s.transmit now).1) (by rwa [hinput, hfull'])
  have htick : s.tick now = ((s.transmit now).1.receive.1, (s.transmit now).2 ++ (s.transmit now).1.receive.2) := rfl
  rw [htick, hr]
  exact ⟨transmit_queues s now, List.append_nil _⟩

/-- What a write does to the queues. -/
theorem write_queues (s : SerialChannel) (addr : UInt32) (value : UInt8) :
    (s.write8 addr value).queues =
      (s.irqOffset, s.input, s.output ++ (Event.write addr value).sent.filter (· ≠ activeSensing), s.rdr,
        if addr &&& 7 = 4 then value &&& 0x40 != 0 else s.full) := by
  obtain ⟨h₃, h₄, -⟩ := named_registers addr
  simp only [Event.sent, h₃, h₄]
  unfold write8
  split
  case h_1 h => simp [h, queues, full, writeControl]
  case h_2 h =>
    by_cases hv : value = activeSensing
    · simp [h, hv, queues, full, writeData, full_masked]
    · simp [h, hv, queues, full, writeData, full_masked]
  case h_3 h => simp [h, queues, full]
  case h_4 h => simp [h, queues, full]
  case h_5 h₂ h₃ h₄ h₅ =>
    have n₃ : ¬register addr = 3 := h₃
    have n₄ : ¬register addr = 4 := h₄
    simp [n₃, n₄, queues, full]

theorem read_rdr (s : SerialChannel) {addr : UInt32} (h : addr &&& 7 = 5) : s.read8 addr = s.rdr := by
  have h₅ := (named_registers addr).2.2.1 h
  unfold read8
  rw [h₅]
  rfl

/-- The event delivers a byte: it is a tick that finds the receiver empty and input waiting. -/
def Delivers (s : SerialChannel) (e : Event) : Prop := (∃ now, e = .tick now) ∧ s.full = false ∧ s.input ≠ []

private theorem receiveInterrupt_eq {t : SerialChannel} (h : t.irqOffset = s.irqOffset) :
    t.receiveInterrupt = s.receiveInterrupt := congrArg (53 + ·) h

private theorem receive_not_sent : .interrupt s.receiveInterrupt ∉ (s.transmit now).2 := by
  have hne : ∀ m n : UInt8, m ≠ n → (TickRequest.interrupt (m + s.irqOffset)) ≠ .interrupt (n + s.irqOffset) :=
    fun m n hmn h => hmn (UInt8.add_left_inj s.irqOffset |>.1 (TickRequest.interrupt.inj h))
  intro h
  rcases mem_transmit_requests h with h | h
  · exact hne 53 54 (by decide) h
  · exact hne 53 55 (by decide) h

private theorem ready_or_not (s : SerialChannel) :
    (s.full = false ∧ ∃ b rest, s.input = b :: rest) ∨ (s.full = true ∨ s.input = []) := by
  cases hin : s.input with
  | nil => exact .inr (.inr rfl)
  | cons b rest =>
    cases hfull : s.full with
    | true => exact .inr (.inl rfl)
    | false => exact .inl ⟨rfl, b, rest, rfl⟩

/-- An event that delivers takes the first byte of the input to the receiver, which is full then. -/
theorem step_of_delivers (h : s.Delivers e) :
    ∃ b, (s.step e).delivered? = some b ∧ s.input = b :: (s.step e).channel.input ∧ (s.step e).channel.rdr = b ∧
      (s.step e).channel.full = true ∧ (s.step e).channel.irqOffset = s.irqOffset ∧ e.provided = [] := by
  obtain ⟨⟨now, rfl⟩, hfull, hin⟩ := h
  obtain ⟨b, rest, hb⟩ := List.exists_cons_of_ne_nil hin
  obtain ⟨hq, hr⟩ := tick_of_ready now hfull hb
  simp only [queues, Prod.mk.injEq] at hq
  obtain ⟨hoff, hinput, -, hrdr, hfull'⟩ := hq
  have hmem : .interrupt (s.tick now).1.receiveInterrupt ∈ (s.tick now).2 := by
    rw [hr, receiveInterrupt_eq hoff]
    exact List.mem_append_right _ (List.mem_singleton.2 rfl)
  have hd : (s.step (.tick now)).delivered? = some (s.tick now).1.rdr := if_pos hmem
  exact ⟨b, hd.trans (congrArg some hrdr), hb.trans (congrArg (b :: ·) hinput.symm), hrdr, hfull', hoff, rfl⟩

/-- Every other event leaves the data register of the receiver as it is, and the input but for what it provides. -/
theorem step_of_not_delivers (h : ¬s.Delivers e) :
    (s.step e).delivered? = none ∧ (s.step e).channel.input = s.input ++ e.provided ∧
      (s.step e).channel.rdr = s.rdr ∧ (s.step e).channel.irqOffset = s.irqOffset := by
  have hkept : s.input = s.input ++ [] := (List.append_nil _).symm
  cases e with
  | provide bytes => exact ⟨rfl, rfl, rfl, rfl⟩
  | takeOutput => exact ⟨rfl, hkept, rfl, rfl⟩
  | read addr => exact ⟨rfl, hkept, rfl, rfl⟩
  | write addr value =>
    have hq := write_queues s addr value
    simp only [queues, Prod.mk.injEq] at hq
    obtain ⟨hoff, hinput, -, hrdr, -⟩ := hq
    exact ⟨rfl, hinput.trans hkept, hrdr, hoff⟩
  | tick now =>
    have hnot : s.full = true ∨ s.input = [] := by
      rcases ready_or_not s with ⟨hfull, b, rest, hin⟩ | hnot
      · exact absurd ⟨⟨now, rfl⟩, hfull, by simp [hin]⟩ h
      · exact hnot
    obtain ⟨hq, hr⟩ := tick_of_not_ready now hnot
    obtain ⟨hoff, hinput, -, hrdr, -⟩ := queues_eq hq
    have hmem : .interrupt (s.tick now).1.receiveInterrupt ∉ (s.tick now).2 := by
      rw [hr, receiveInterrupt_eq hoff]
      exact receive_not_sent
    exact ⟨if_neg hmem, hinput.trans hkept, hrdr, hoff⟩

/-- What an event puts into the input is what it delivers and what is left. -/
theorem step_input (s : SerialChannel) (e : Event) :
    s.input ++ e.provided = (s.step e).delivered?.toList ++ (s.step e).channel.input := by
  by_cases h : s.Delivers e
  · obtain ⟨b, hb, hin, -, -, -, hp⟩ := step_of_delivers h
    rw [hb, hin, hp, List.append_nil]
    rfl
  · obtain ⟨hd, hin, -⟩ := step_of_not_delivers h
    rw [hd, hin]
    rfl

/-- What an event writes to the line is what the host takes with it and what is left. -/
theorem step_output (s : SerialChannel) (e : Event) :
    s.output ++ e.sent.filter (· ≠ activeSensing) = (s.step e).taken ++ (s.step e).channel.output := by
  cases e with
  | provide bytes => exact List.append_nil _
  | takeOutput => rfl
  | read addr => exact List.append_nil _
  | write addr value =>
    have hq := write_queues s addr value
    simp only [queues, Prod.mk.injEq] at hq
    exact hq.2.2.1.symm
  | tick now =>
    have hout : (s.tick now).1.output = s.output := by
      rcases ready_or_not s with ⟨hfull, b, rest, hin⟩ | hnot
      · exact congrArg (fun q => q.2.2.1) (tick_of_ready now hfull hin).1
      · exact (queues_eq (tick_of_not_ready now hnot).1).2.2.1
    exact (List.append_nil _).trans hout.symm

theorem step_irqOffset (s : SerialChannel) (e : Event) : (s.step e).channel.irqOffset = s.irqOffset := by
  by_cases h : s.Delivers e
  · obtain ⟨-, -, -, -, -, hoff, -⟩ := step_of_delivers h
    exact hoff
  · exact (step_of_not_delivers h).2.2.2

theorem delivered?_isSome : (s.step e).delivered?.isSome = true ↔ s.Delivers e := by
  by_cases h : s.Delivers e
  · obtain ⟨b, hb, -⟩ := step_of_delivers h
    simp [hb, h]
  · simp [(step_of_not_delivers h).1, h]

/-- The write takes back the mark of a full receiver. -/
def Event.empties : Event → Prop
  | write addr value => addr &&& 7 = 4 ∧ value &&& 0x40 = 0
  | _ => False

/-- Only the program says that a byte was taken. -/
theorem step_full (hfull : s.full = true) (h : ¬e.empties) : (s.step e).channel.full = true := by
  cases e with
  | provide bytes => exact hfull
  | takeOutput => exact hfull
  | read addr => exact hfull
  | write addr value =>
    have hq := write_queues s addr value
    simp only [queues, Prod.mk.injEq] at hq
    refine hq.2.2.2.2.trans ?_
    split
    · next h₄ => simpa [Event.empties, h₄] using h
    · exact hfull
  | tick now => exact (queues_eq (tick_of_not_ready now (.inl hfull)).1).2.2.2.2.trans hfull

/-! ### Runs -/

/-- The bytes that the host provides, in order. -/
def provided (es : List Event) : List UInt8 := es.flatMap Event.provided

/-- The bytes that the program writes to the data register of the transmitter, in order. -/
def sent (es : List Event) : List UInt8 := es.flatMap Event.sent

theorem delivered_cons (s : SerialChannel) (e : Event) (es : List Event) :
    s.delivered (e :: es) = (s.step e).delivered?.toList ++ (s.step e).channel.delivered es := by
  show (s.step e :: _).filterMap _ = _
  rw [List.filterMap_cons]
  cases (s.step e).delivered? <;> rfl

theorem input_balance (s : SerialChannel) (es : List Event) :
    s.input ++ provided es = s.delivered es ++ (s.after es).input := by
  induction es generalizing s with
  | nil => exact List.append_nil _
  | cons e es ih =>
    calc s.input ++ provided (e :: es)
      _ = s.input ++ e.provided ++ provided es := by rw [provided, List.flatMap_cons, List.append_assoc]; rfl
      _ = (s.step e).delivered?.toList ++ ((s.step e).channel.input ++ provided es) := by
        rw [step_input, List.append_assoc]
      _ = s.delivered (e :: es) ++ (s.after (e :: es)).input := by
        rw [ih, ← List.append_assoc, ← delivered_cons]
        rfl

theorem output_balance (s : SerialChannel) (es : List Event) :
    s.output ++ (sent es).filter (· ≠ activeSensing) = s.taken es ++ (s.after es).output := by
  induction es generalizing s with
  | nil => exact List.append_nil _
  | cons e es ih =>
    calc s.output ++ (sent (e :: es)).filter (· ≠ activeSensing)
      _ = s.output ++ e.sent.filter (· ≠ activeSensing) ++ (sent es).filter (· ≠ activeSensing) := by
        rw [sent, List.flatMap_cons, List.filter_append, List.append_assoc]; rfl
      _ = (s.step e).taken ++ ((s.step e).channel.output ++ (sent es).filter (· ≠ activeSensing)) := by
        rw [step_output, List.append_assoc]
      _ = s.taken (e :: es) ++ (s.after (e :: es)).output := by
        rw [ih, ← List.append_assoc]
        rfl

theorem after_irqOffset (s : SerialChannel) (es : List Event) : (s.after es).irqOffset = s.irqOffset := by
  induction es generalizing s with
  | nil => rfl
  | cons e es ih => exact (ih _).trans (step_irqOffset s e)

/-- As long as the program does not take the byte, the receiver stays as it is. -/
theorem full_until_emptied (es : List Event) (hfull : s.full = true) (h : ∀ e ∈ es, ¬e.empties) :
    s.delivered es = [] ∧ (s.after es).rdr = s.rdr ∧ (s.after es).full = true := by
  induction es generalizing s with
  | nil => exact ⟨rfl, rfl, hfull⟩
  | cons e es ih =>
    have hnot : ¬s.Delivers e := fun hd => by
      rw [hd.2.1] at hfull
      cases hfull
    obtain ⟨hnone, -, hrdr, -⟩ := step_of_not_delivers hnot
    have hfull' := step_full hfull (h e List.mem_cons_self)
    obtain ⟨hd, hr, hf⟩ := ih hfull' fun e' he' => h e' (List.mem_cons_of_mem _ he')
    refine ⟨?_, hr.trans hrdr, hf⟩
    rw [delivered_cons, hnone, hd]
    rfl

private theorem receiveInterrupt_lt (h : s.irqOffset ≤ 8) : s.receiveInterrupt < 64 := by
  have hle := UInt8.le_iff_toNat_le.1 h
  have h8 : (8 : UInt8).toNat = 8 := rfl
  have h53 : (53 : UInt8).toNat = 53 := rfl
  have h64 : (64 : UInt8).toNat = 64 := rfl
  rw [UInt8.lt_iff_toNat_lt, receiveInterrupt, UInt8.toNat_add]
  omega

private theorem full_iff : s.full = true ↔ s.ssr &&& 0x40 ≠ 0 := by simp [full]

private theorem interrupts_delivered (hoff : s.irqOffset ≤ 8) (e : Event) :
    (TickRequest.interrupts (s.step e).requests).contains s.receiveInterrupt = (s.step e).delivered?.isSome := by
  rw [Bool.eq_iff_iff, TickRequest.contains_interrupts (receiveInterrupt_lt hoff), Outcome.delivered?,
    receiveInterrupt_eq (step_irqOffset s e)]
  split <;> simp [*]

/-- A channel loses, doubles and reorders nothing, whatever happens to it and in whatever order.

What the host provided is what was delivered and what still waits; what the program sent, but for active sensing, is what the
host has taken and what still waits.  A byte is delivered by a tick that finds the receiver empty and input waiting, and
by nothing else; it is the first of the input, fills the receiver and requests the interrupt of the receiver, which no
other event requests.  The data register shows the byte that was delivered last, and keeps it as long as the program does
not write a status that marks the receiver as empty. -/
theorem queues_lossless (s : SerialChannel) (hoff : s.irqOffset ≤ 8) (es : List Event) :
    (s.input ++ provided es = s.delivered es ++ (s.after es).input ∧
      s.output ++ (sent es).filter (· ≠ 0xFE) = s.taken es ++ (s.after es).output) ∧
    (∀ e, let t := s.after es
      let o := t.step e
      (o.delivered?.isSome = true ↔ (∃ now, e = .tick now) ∧ t.ssr &&& 0x40 = 0 ∧ t.input ≠ []) ∧
      (∀ b, o.delivered? = some b → t.input = b :: o.channel.input ∧ o.channel.rdr = b ∧ o.channel.ssr &&& 0x40 ≠ 0) ∧
      (TickRequest.interrupts o.requests).contains (53 + s.irqOffset) = o.delivered?.isSome ∧
      (o.delivered? = none → o.channel.rdr = t.rdr) ∧
      ∀ addr, e = .read addr → addr &&& 7 = 5 → o.answer = some t.rdr) ∧
    ∀ later, (s.after es).ssr &&& 0x40 ≠ 0 →
      (∀ addr value, .write addr value ∈ later → addr &&& 7 = 4 → value &&& 0x40 ≠ 0) →
      (s.after es).delivered later = [] ∧ ((s.after es).after later).rdr = (s.after es).rdr := by
  refine ⟨⟨input_balance s es, output_balance s es⟩, fun e => ?_, fun later hfull hkept => ?_⟩
  · have hirq := after_irqOffset s es
    generalize s.after es = t at hirq
    have hempty : t.ssr &&& 0x40 = 0 ↔ t.full = false := by simp [full]
    refine ⟨?_, fun b hb => ?_, ?_, fun hnone => ?_, ?_⟩
    · rw [delivered?_isSome, Delivers, hempty]
    · obtain ⟨b', hb', hin, hrdr, hfull, -⟩ := step_of_delivers (delivered?_isSome.1 (by rw [hb]; rfl))
      cases hb.symm.trans hb'
      exact ⟨hin, hrdr, full_iff.1 hfull⟩
    · rw [← hirq] at hoff ⊢
      exact interrupts_delivered hoff e
    · refine (step_of_not_delivers fun hd => ?_).2.2.1
      rw [← delivered?_isSome, hnone] at hd
      cases hd
    · rintro addr rfl hreg
      exact congrArg some (read_rdr t hreg)
  · have h := full_until_emptied later (full_iff.2 hfull) fun e he hemp => ?_
    · exact ⟨h.1, h.2.1⟩
    · cases e with
      | write addr value => exact hkept addr value he hemp.1 hemp.2
      | _ => exact hemp

/-- Three bytes are provided, of which the program takes the first before the second is delivered; a byte is sent, and then
active sensing. -/
def exchange : List Event :=
  [.provide [0xF0, 0x41], .tick 0, .tick 10, .write 0xFFFF4C 0x80, .provide [0x10], .tick 20, .write 0xFFFF4B 0x90,
    .write 0xFFFF4B 0xFE, .takeOutput, .tick 5200]

theorem queues_lossless_exchange :
    let s : SerialChannel := { irqOffset := 8 }
    s.irqOffset ≤ 8 ∧ s.delivered exchange = [0xF0, 0x41] ∧ (s.after exchange).input = [0x10] ∧
      s.taken exchange = [0x90] ∧ provided exchange = [0xF0, 0x41, 0x10] ∧ (s.after exchange).rdr = 0x41 ∧
      ((s.after exchange).after [.tick 5300, .write 0xFFFF4C 0xFF, .tick 10400]).rdr = 0x41 := by
  intro s
  have hoff : s.irqOffset ≤ 8 := by decide
  obtain ⟨⟨hin, -⟩, -, hkept⟩ := queues_lossless s hoff exchange
  have hd : s.delivered exchange = [0xF0, 0x41] := by decide +kernel
  have hleft : (s.after exchange).input = [0x10] := by decide +kernel
  have hrdr : (s.after exchange).rdr = 0x41 := by decide +kernel
  rw [hd, hleft] at hin
  refine ⟨hoff, hd, hleft, by decide +kernel, hin, hrdr, ?_⟩
  rw [(hkept _ (by decide +kernel) ?_).2, hrdr]
  intro addr value h _
  simp only [List.mem_cons, List.not_mem_nil, reduceCtorEq, or_false, false_or, Event.write.injEq] at h
  rw [h.2]
  decide

end H8S.SerialChannel
