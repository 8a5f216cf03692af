import H8S.Proofs.Encodings
import H8S.Proofs.Faults

/-!
# Fetching

The decoder fetches through the byte reads of the core.  `Fetches config s start bytes t` says that reading the
addresses from `start` on gives the bytes in turn, each read charged and answered by the bus or, at its address, by
the status register; it leads from `s` to `t` and does nothing else.  A decoding that is run this way fetches exactly
the bytes it reports, whether it ends in a result or in the verdict of an illegal instruction (`run_ok`, `run_error`).
-/

namespace H8S.CpuM

variable {β α : Type} [Bus β] {config : Config} {s t u : System β} {e : Fault} {start : UInt32} {bytes : List UInt8}

/-- The byte that a read at an address gives and the bus after it; the status register is read without the bus. -/
def Answers (config : Config) (s : System β) (addr : UInt32) (b : UInt8) (bus : β) : Prop :=
  if config.isrAddress = some addr then b = s.cpu.pending.status ∧ bus = s.bus
  else Bus.read8 addr s.bus = .ok b bus

theorem load8_ok {addr : UInt32} {b : UInt8} :
    load8 addr config s = .ok b t ↔ ∃ bus, Answers config s addr b bus ∧ t = { s with bus := bus } := by
  unfold load8 Answers
  rw [bind_of_ok run_read]
  by_cases hc : config.isrAddress = some addr
  · simp only [if_pos hc]
    constructor
    · rintro ⟨⟩
      exact ⟨s.bus, ⟨rfl, rfl⟩, rfl⟩
    · rintro ⟨_, ⟨rfl, rfl⟩, rfl⟩
      rfl
  · simp only [if_neg hc]
    exact onBus_ok

theorem read8_ok {addr : UInt32} {b : UInt8} :
    read8 addr config s = .ok b t ↔
      ∃ bus, Answers config s addr b bus ∧ t = { s with cpu := s.cpu.charged .read addr, bus := bus } := by
  unfold read8
  rw [bind_of_ok (run_charge .read addr)]
  exact load8_ok

/-- Reading the addresses from `start` on gives these bytes. -/
inductive Fetches (config : Config) (s : System β) (start : UInt32) : List UInt8 → System β → Prop where
  | nil : Fetches config s start [] s
  | snoc {bytes : List UInt8} {t : System β} (b : UInt8) (bus : β) : Fetches config s start bytes t →
      Answers config t (start + bytes.length.toUInt32) b bus →
      Fetches config s start (bytes ++ [b])
        { t with cpu := t.cpu.charged .read (start + bytes.length.toUInt32), bus := bus }

/-- Only the cycle counter and the timer of the core know that bytes were fetched. -/
theorem Fetches.cpu (h : Fetches config s start bytes t) :
    t.cpu = { s.cpu with cycles := t.cpu.cycles, timer := t.cpu.timer } := by
  induction h with
  | nil => rfl
  | snoc b bus _ _ ih =>
    rw [ih]
    rfl

theorem Fetches.trace (h : Fetches config s start bytes t) : t.trace = s.trace := by
  induction h with
  | nil => rfl
  | snoc b bus _ _ ih => exact ih

private theorem Fetches.read (h : Fetches config s start bytes t) {b : UInt8}
    (hr : read8 (start + bytes.length.toUInt32) config t = .ok b u) : Fetches config s start (bytes ++ [b]) u := by
  obtain ⟨bus, ha, rfl⟩ := read8_ok.1 hr
  exact .snoc b bus h ha

/-! ### Decodings -/

theorem run_ok {P : Nat → α → Prop} {d : Decoding α} {a : α} {consumed : List UInt8}
    (hd : d.Ends P consumed.length) (hf : Fetches config s start consumed t)
    (h : d.run read8 start consumed config t = .ok (a, bytes) u) :
    Fetches config s start bytes u ∧ P bytes.length a := by
  induction d generalizing consumed t with
  | done a =>
    cases h
    exact ⟨hf, hd⟩
  | illegal => cases h
  | byte next ih =>
    obtain ⟨b, v, hr, h⟩ := bind_ok.1 h
    have hd' : (next b).Ends P (consumed ++ [b]).length := by
      rw [List.length_append]
      exact hd b
    exact ih b hd' (hf.read hr) h

/-- A decoding that fails ends in a verdict on what it fetched, or in a fetch that failed. -/
theorem run_error {P : Nat → α → Prop} {d : Decoding α} {consumed : List UInt8} (hd : d.Ends P consumed.length)
    (hf : Fetches config s start consumed t) (h : d.run read8 start consumed config t = .error e u) :
    (∃ bytes, e = .illegalInstruction start bytes ∧ bytes.length ≤ 10 ∧ Fetches config s start bytes u) ∨
    (∃ bytes v, Fetches config s start bytes v ∧ read8 (start + bytes.length.toUInt32) config v = .error e u) := by
  induction d generalizing consumed t with
  | done a => cases h
  | illegal =>
    cases h
    exact .inl ⟨consumed, rfl, hd, hf⟩
  | byte next ih =>
    -- the byte is refused, or it joins those that were fetched
    rcases bind_error.1 h with hr | ⟨b, v, hr, h⟩
    · exact .inr ⟨consumed, t, hf, hr⟩
    · have hd' : (next b).Ends P (consumed ++ [b]).length := by
        rw [List.length_append]
        exact hd b
      exact ih b hd' (hf.read hr) h

/-- After bytes that can be fetched, a decoding goes on with what they leave of it. -/
private theorem run_of_fetches {d d' : Decoding α} (hf : Fetches config s start bytes t) (hd : d.feed bytes = some d') :
    d.run read8 start [] config s = d'.run read8 start bytes config t := by
  induction hf generalizing d' with
  | nil =>
    cases hd
    rfl
  | @snoc bytes t b bus hf ha ih =>
    unfold Decoding.feed at hd
    rw [List.foldlM_append] at hd
    obtain ⟨d₁, hd₁, hb⟩ := Option.bind_eq_some_iff.1 hd
    have hb : d₁.take b = some d' := by simpa using hb
    cases d₁ with
    | done a => cases hb
    | illegal => cases hb
    | byte next =>
      cases hb
      rw [ih hd₁]
      exact bind_of_ok (read8_ok.2 ⟨bus, ha, rfl⟩)

/-- Bytes that can be fetched and make an operation are decoded. -/
theorem decode_of_fetches {pc : UInt32} {op : Operation} (hf : Fetches config s (Address.even pc) bytes t)
    (hd : (Decoding.operation (Address.even pc)).feed bytes = some (.done op)) :
    Instruction.decode read8 pc config s = .ok ⟨Address.even pc, op, bytes⟩ t := by
  unfold Instruction.decode
  have hr := run_of_fetches hf hd
  exact bind_ok.2 ⟨_, _, hr, rfl⟩

/-- A decoded instruction lies at the even address and carries the bytes that were fetched. -/
theorem decode_ok {pc : UInt32} {i : Instruction} (h : Instruction.decode read8 pc config s = .ok i t) :
    i.addr = Address.even pc ∧ Decoding.Whole i.bytes.length i.op ∧ Fetches config s i.addr i.bytes t := by
  obtain ⟨⟨op, bytes⟩, u, hr, h⟩ := bind_ok.1 h
  cases h
  obtain ⟨hf, hw⟩ := run_ok (Decoding.operation_ends _) .nil hr
  exact ⟨rfl, hw, hf⟩

theorem decode_error {pc : UInt32} (h : Instruction.decode read8 pc config s = .error e t) :
    (∃ bytes, e = .illegalInstruction (Address.even pc) bytes ∧ bytes.length ≤ 10 ∧
      Fetches config s (Address.even pc) bytes t) ∨
    (∃ bytes u, Fetches config s (Address.even pc) bytes u ∧
      read8 (Address.even pc + bytes.length.toUInt32) config u = .error e t) := by
  rcases bind_error.1 h with hr | ⟨_, _, _, h⟩
  · exact run_error (Decoding.operation_ends _) .nil hr
  · cases h

end H8S.CpuM
