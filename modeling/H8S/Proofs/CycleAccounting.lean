import H8S.Proofs.CheckedExecution
import H8S.Proofs.Coalescing
import H8S.Proofs.StepCosts

/-!
# Cycle accounting

A step reports the cycles that it took, and they are the price of its byte accesses with the cycles inside the core
(`step_cycles`).  The report has 32 bits, which is enough: of the operations that are encoded a block move has the most
accesses, and its counter has 16 bits.

Instructions are fetched from even addresses, and their encodings are whole words.  So a fetch is a block, which costs the same
whatever the timer remembers (`cost_fetch`).
-/

namespace H8S

/-! ### Fetches -/

namespace AccessTimer

/-- A fetch of whole words in one class costs the same after every access. -/
theorem cost_fetch (t : AccessTimer) {start : UInt32} (heven : start.toNat % 2 = 0) {kind : AccessClass} {m : Nat}
    (hkind : ∀ k < 2 * m, AccessClass.ofAddress (start + k.toUInt32) = kind) :
    t.cost (CpuM.fetchesFrom start (2 * m)) = m * kind.wordCycles := by
  have hmem : ∀ a ∈ CpuM.fetchesFrom start (2 * m), ∃ k < 2 * m, BusAccess.read (start + k.toUInt32) = a := by
    intro a ha
    obtain ⟨k, hk, rfl⟩ := List.mem_map.1 ha
    exact ⟨k, List.mem_range.1 hk, rfl⟩
  have hblock : Block kind .read start (CpuM.fetchesFrom start (2 * m)) :=
    { direction := fun a ha => by
        obtain ⟨k, -, rfl⟩ := hmem a ha
        rfl
      addr := fun k hk => by simp [CpuM.fetchesFrom, BusAccess.addr]
      kind := fun a ha => by
        obtain ⟨k, hk, rfl⟩ := hmem a ha
        exact hkind k hk }
  exact t.cost_block hblock heven (CpuM.length_fetchesFrom start (2 * m))

end AccessTimer

namespace CpuM

variable {β : Type} [Bus β] {config : Config} {s u : System β}

/-! ### Steps -/

/-- No operation that is encoded accesses more bytes than the longest block move. -/
private theorem mostAccesses_le {op : Operation} (h : op.WellFormed) : mostAccesses op ≤ 2 * 65535 := by
  unfold mostAccesses
  split
  · next width =>
    cases width with
    | byte => decide
    | word => decide
    | long => exact absurd rfl h
  · decide

/-- The share of a step that an account shows is no longer than the longest block move. -/
private theorem account_le {made : List BusAccess} {own : Nat}
    (hkind : (∃ number, s.cpu.dueInterrupt? = some number ∧ made.length ≤ 9 ∧ own = 4) ∨
      (s.cpu.dueInterrupt? = none ∧ s.cpu.sleeping = true ∧ made = [] ∧ own = 2) ∨
      ∃ i rest, CarriesOut config i s u ∧ made = fetchesFrom i.addr i.bytes.length ++ rest ∧
        rest.length ≤ mostAccesses i.op ∧ own = i.op.internalCycles.toNat) :
    s.cpu.timer.cost made + own < 2 ^ 20 := by
  have hcost := s.cpu.timer.cost_le made
  rcases hkind with ⟨number, -, hlen, rfl⟩ | ⟨-, -, rfl, rfl⟩ | ⟨i, rest, hi, rfl, hlen, rfl⟩
  · omega
  · rw [List.length_nil] at hcost
    omega
  · obtain ⟨-, -, t, v, hd, -, -⟩ := carriesOut_iff.1 hi
    obtain ⟨-, ⟨-, -, hlong⟩, -⟩ := decode_ok hd
    have hmost := mostAccesses_le hi.wellFormed
    have hinternal := i.op.internalCycles_le
    rw [List.length_append, length_fetchesFrom] at hcost
    omega

/-- A step that ends reports by how much the cycle counter has grown, if that is not near its last count.  The growth is the
price of the byte accesses that the step makes, in their order, with four cycles for an interrupt entry, two for an idle
period and the internal ones of an instruction.  The bytes of an instruction are fetched before any other access, and if they
lie in one class a fetch of `m` words costs `3 * m`, `m`, `2 * m` or `6 * m` cycles, whatever was accessed before. -/
theorem step_cycles {c : UInt32} (h : step config s = .ok c u) (hroom : s.cpu.cycles.toNat + 2 ^ 20 ≤ 2 ^ 64) :
    u.cpu.cycles.toNat = s.cpu.cycles.toNat + c.toNat ∧
    ∃ made own, Accounts config made own s u ∧ c.toNat = s.cpu.timer.cost made + own ∧
      ((∃ number, s.cpu.dueInterrupt? = some number ∧ own = 4) ∨
      (s.cpu.dueInterrupt? = none ∧ s.cpu.sleeping = true ∧ made = [] ∧ own = 2) ∨
      ∃ i rest, CarriesOut config i s u ∧ made = fetchesFrom i.addr i.bytes.length ++ rest ∧
        own = i.op.internalCycles.toNat ∧
        ∀ kind m, i.bytes.length = 2 * m → (∀ k < 2 * m, AccessClass.ofAddress (i.addr + k.toUInt32) = kind) →
          ∀ t : AccessTimer, t.cost (fetchesFrom i.addr i.bytes.length) = m * kind.wordCycles) := by
  obtain ⟨made, own, ha, hkind⟩ := step_accounts h
  have hsmall := account_le hkind
  have hgrown : u.cpu.cycles.toNat = s.cpu.cycles.toNat + (s.cpu.timer.cost made + own) := ha.elapsed.toNat (by omega)
  -- the report is the difference of the counters, and neither the difference nor the report wraps
  have hreport : c.toNat = s.cpu.timer.cost made + own := by
    have hle : s.cpu.cycles ≤ u.cpu.cycles := by
      rw [UInt64.le_iff_toNat_le]
      omega
    rw [(step_ok.1 h).2, UInt64.toNat_toUInt32, UInt64.toNat_sub_of_le _ _ hle, hgrown, Nat.add_sub_cancel_left]
    exact Nat.mod_eq_of_lt (by omega)
  refine ⟨by omega, made, own, ha, hreport, ?_⟩
  rcases hkind with ⟨number, hdue, -, hown⟩ | hidle | ⟨i, rest, hi, hmade, -, hown⟩
  · exact .inl ⟨number, hdue, hown⟩
  · exact .inr (.inl hidle)
  · obtain ⟨-, -, t, v, hd, -, -⟩ := carriesOut_iff.1 hi
    obtain ⟨haddr, -, -⟩ := decode_ok hd
    have heven : i.addr.toNat % 2 = 0 := haddr ▸ Address.even_mod_two _
    refine .inr (.inr ⟨i, rest, hi, hmade, hown, ?_⟩)
    intro kind m hm hclass t
    rw [hm]
    exact t.cost_fetch heven hclass

/-- `MOV.B @ER6,R0L` on a bus of which every byte is `68`: one word is fetched and one byte is read. -/
theorem step_cycles_of_load :
    ∃ u : System (Recorder Tied), step { isrAddress := none } { bus := ⟨⟨0x68⟩, #[]⟩ } = .ok 6 u ∧
      u.cpu.cycles.toNat = 0 + 6 ∧
      ∃ made own, made = [.read 0, .read 1, .read 0] ∧ u.bus.log.toList = made ∧ 6 = ({} : AccessTimer).cost made + own := by
  have h : step { isrAddress := none } ({ bus := ⟨⟨0x68⟩, #[]⟩ } : System (Recorder Tied)) = .ok 6
      { cpu := { regs := ({ pc := 2 } : Registers).writeByte 8 0x68, cycles := 6, timer := { lastRead := some 0 } }
        bus := ⟨⟨0x68⟩, #[.read 0, .read 1, .read 0]⟩ } := rfl
  obtain ⟨hcycles, made, own, ha, hcost, -⟩ := step_cycles h (by decide)
  have hall : made.filter (reachesBus { isrAddress := none }) = made := List.filter_eq_self.2 fun a _ => by simp [reachesBus]
  have hlog := ha.noted _ Recorder.notes
  rw [hall] at hlog
  exact ⟨_, h, hcycles, made, own, hlog.symm, hlog, hcost⟩

end CpuM

end H8S
