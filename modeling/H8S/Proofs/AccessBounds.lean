import H8S.Proofs.FlatMemory
import H8S.Proofs.StatusAccesses

/-!
# Accesses at the end of memory

An access of one, two or four bytes never wraps around.  It succeeds exactly if all its bytes lie in memory; otherwise it
fails at the first byte that does not (`Memory.edge`), and reports the width of the whole access, however deep inside it the
byte was met.  A read that fails has changed nothing but the clock of the core, and a write that fails has stored the bytes
before the edge, which stay (`accesses_end_at_edge`).

A memory behind devices is accessed like a plain one wherever no device is mapped: what an action does with the memory it
does with the bus that holds it (`Mirrors`).
-/

namespace H8S

/-! ### The clock -/

/-- Nothing but the cycle counter and the timer of the accesses differs. -/
def Cpu.Ticked (c d : Cpu) : Prop := d = { c with cycles := d.cycles, timer := d.timer }

namespace Cpu.Ticked

theorem charged (c : Cpu) (direction : Direction) (addr : UInt32) : c.Ticked (c.charged direction addr) := rfl

theorem trans {c d e : Cpu} (h : c.Ticked d) (k : d.Ticked e) : c.Ticked e := by
  unfold Cpu.Ticked at h k ⊢
  rw [k, h]

theorem twice (c : Cpu) (direction : Direction) (a b : UInt32) :
    c.Ticked ((c.charged direction a).charged direction b) :=
  (charged c direction a).trans (charged _ direction b)

theorem chargedSized (c : Cpu) (direction : Direction) (width : Width) (addr : UInt32) :
    c.Ticked (c.chargedSized direction width addr) := by
  cases width with
  | byte => exact charged c direction addr
  | word => exact twice c direction addr (addr + 1)
  | long => exact (twice c direction addr (addr + 1)).trans (twice _ direction (addr + 2) (addr + 3))

end Cpu.Ticked

/-! ### The edge of a memory -/

namespace Memory

variable {m : Memory} {addr : UInt32}

/-- The first address from `addr` on that lies outside the memory. -/
def edge (m : Memory) (addr : UInt32) : UInt32 := (max addr.toNat m.size).toUInt32

theorem edge_of_le (h : m.size ≤ addr.toNat) : m.edge addr = addr := by
  rw [edge, Nat.max_eq_left h]
  exact UInt32.ofNat_toNat

/-- Bytes that lie in memory are passed over. -/
theorem edge_add {k : Nat} (h : addr.toNat + k ≤ m.size) (hroom : addr.toNat + k < 2 ^ 32) :
    m.edge (addr + k.toUInt32) = m.edge addr := by
  rw [edge, edge, toNat_add_of_lt hroom, Nat.max_eq_right h, Nat.max_eq_right (by omega)]

theorem storeAll_append (m : Memory) (addr : UInt32) (xs ys : List UInt8) :
    m.storeAll addr (xs ++ ys) = (m.storeAll addr xs).storeAll (addr + xs.length.toUInt32) ys := by
  induction xs generalizing m addr with
  | nil =>
    have e : addr + ([] : List UInt8).length.toUInt32 = addr := UInt32.add_zero addr
    rw [e]
    rfl
  | cons x xs ih =>
    have e : addr + (x :: xs).length.toUInt32 = addr + 1 + xs.length.toUInt32 := by
      apply UInt32.toNat_inj.1
      simp
      omega
    rw [e]
    exact ih (m.store addr x) (addr + 1)

theorem storeSized_eq (m : Memory) (width : Width) (addr value : UInt32) :
    m.storeSized width addr value = m.storeAll addr (width.toBytes value) := by
  cases width with
  | byte => rfl
  | word => rw [Width.toBytes, Encoding.wordBytes_halves]; rfl
  | long => rfl

theorem edge_congr {m' : Memory} (h : m'.size = m.size) : m'.edge addr = m.edge addr := by
  rw [edge, h, edge]

/-! ### Accesses of the memory that fail -/

theorem busRead_error {e : Fault} {m' : Memory} :
    busRead addr m = .error e m' ↔ m.size ≤ addr.toNat ∧ e = .outOfRange addr ⟨.read, 8⟩ ∧ m' = m := by
  unfold busRead read? contains
  by_cases h : addr.toNat < m.size
  · simp [h]
  · simp [h, eq_comm]
    omega

theorem busWrite_error {e : Fault} {m' : Memory} {value : UInt8} :
    busWrite addr value m = .error e m' ↔ m.size ≤ addr.toNat ∧ e = .outOfRange addr ⟨.write, 8⟩ ∧ m' = m := by
  unfold busWrite contains
  by_cases h : addr.toNat < m.size
  · simp [h]
  · simp [h, eq_comm]
    omega

/-- Of a word that ends beyond the memory, the first byte lies outside, or the second does. -/
private theorem word_edge (h : m.size < addr.toNat + 2) (ha : addr.toNat + 2 ≤ 2 ^ 32) :
    (m.size ≤ addr.toNat ∧ m.edge addr = addr) ∨
      (addr.toNat < m.size ∧ m.size = (addr + 1).toNat ∧ m.edge addr = addr + 1) := by
  have e : (addr + 1).toNat = addr.toNat + 1 := toNat_add_of_lt (k := 1) (by omega)
  rcases Nat.lt_or_ge addr.toNat m.size with hlt | hge
  · right
    have hedge : m.edge (addr + 1) = m.edge addr := edge_add (k := 1) (by omega) (by omega)
    have hend : m.edge (addr + 1) = addr + 1 := edge_of_le (by omega)
    exact ⟨hlt, by omega, hedge.symm.trans hend⟩
  · exact .inl ⟨hge, edge_of_le hge⟩

theorem read16_beyond (h : m.size < addr.toNat + 2) (ha : addr.toNat + 2 ≤ 2 ^ 32) :
    (Bus.read16 addr : BusM Memory UInt16) m = .error (.outOfRange (m.edge addr) ⟨.read, 8⟩) m := by
  change (busRead addr >>= fun hi => busRead (addressAfter addr) >>= fun lo => pure (wordOf hi lo)) m = _
  rw [addressAfter_eq ha]
  rcases word_edge h ha with ⟨hout, hedge⟩ | ⟨hin, hsize, hedge⟩
  · rw [hedge]
    exact BusM.bind_error.2 (.inl (busRead_error.2 ⟨hout, rfl, rfl⟩))
  · rw [hedge, BusM.bind_of_ok (busRead_ok.2 ⟨hin, rfl, rfl⟩)]
    exact BusM.bind_error.2 (.inl (busRead_error.2 ⟨Nat.le_of_eq hsize, rfl, rfl⟩))

theorem write16_beyond (h : m.size < addr.toNat + 2) (ha : addr.toNat + 2 ≤ 2 ^ 32) (value : UInt16) :
    (Bus.write16 addr value : BusM Memory Unit) m = .error (.outOfRange (m.edge addr) ⟨.write, 8⟩)
      (m.storeAll addr ([highByte value, value.toUInt8].take (m.size - addr.toNat))) := by
  change (busWrite addr (highByte value) >>= fun _ => busWrite (addressAfter addr) value.toUInt8) m = _
  have e : (addr + 1).toNat = addr.toNat + 1 := toNat_add_of_lt (k := 1) (by omega)
  rw [addressAfter_eq ha]
  rcases word_edge h ha with ⟨hout, hedge⟩ | ⟨hin, hsize, hedge⟩
  · have hnone : m.size - addr.toNat = 0 := by omega
    rw [hedge, hnone]
    exact BusM.bind_error.2 (.inl (busWrite_error.2 ⟨hout, rfl, rfl⟩))
  · have hone : m.size - addr.toNat = 1 := by omega
    rw [hedge, hone, BusM.bind_of_ok (busWrite_ok.2 ⟨hin, rfl⟩)]
    exact busWrite_error.2 ⟨Nat.le_of_eq hsize, rfl, rfl⟩

end Memory

namespace CpuM

variable {α β γ δ : Type} {config : Config} {addr : UInt32}

/-! ### Accesses of the core that fail -/

section Beyond

variable {s : System Memory}

theorem read8_beyond (hc : coversStatus config addr 1 = false) (h : s.bus.size ≤ addr.toNat) :
    read8 addr config s = .error (.outOfRange addr ⟨.read, 8⟩) { s with cpu := s.cpu.charged .read addr } := by
  unfold read8 load8
  rw [bind_of_ok (run_charge .read addr), bind_of_ok run_read, if_neg (not_status hc), onBus_error]
  exact ⟨_, Memory.busRead_error.2 ⟨h, rfl, rfl⟩, rfl⟩

theorem write8_beyond (hc : coversStatus config addr 1 = false) (h : s.bus.size ≤ addr.toNat) (value : UInt8) :
    write8 addr value config s =
      .error (.outOfRange addr ⟨.write, 8⟩) { s with cpu := s.cpu.charged .write addr } := by
  unfold write8 store8
  rw [bind_of_ok (run_charge .write addr), bind_of_ok run_read, if_neg (not_status hc), onBus_error]
  exact ⟨_, Memory.busWrite_error.2 ⟨h, rfl, rfl⟩, rfl⟩

private theorem read16_beyond (hc : coversStatus config addr 2 = false) (ha : addr.toNat + 2 ≤ 2 ^ 32)
    (h : s.bus.size < addr.toNat + 2) :
    read16 addr config s = .error (.outOfRange (s.bus.edge addr) ⟨.read, 16⟩)
      { s with cpu := (s.cpu.charged .read addr).charged .read (addr + 1) } := by
  unfold read16 load16
  rw [bind_of_ok (run_charge .read addr), bind_of_ok (run_charge .read (addr + 1)), bind_of_ok run_read]
  simp only [hc, Bool.false_eq_true, if_false]
  exact widening_error.2 ⟨_, onBus_error.2 ⟨_, Memory.read16_beyond h ha, rfl⟩, rfl⟩

private theorem write16_beyond (hc : coversStatus config addr 2 = false) (ha : addr.toNat + 2 ≤ 2 ^ 32)
    (h : s.bus.size < addr.toNat + 2) (value : UInt32) :
    write16 addr value.toUInt16 config s = .error (.outOfRange (s.bus.edge addr) ⟨.write, 16⟩)
      { s with
        cpu := (s.cpu.charged .write addr).charged .write (addr + 1)
        bus := s.bus.storeAll addr ((Encoding.wordBytes value).take (s.bus.size - addr.toNat)) } := by
  unfold write16 store16
  rw [bind_of_ok (run_charge .write addr), bind_of_ok (run_charge .write (addr + 1)), Encoding.wordBytes_halves,
    widening_error]
  refine ⟨.outOfRange (s.bus.edge addr) ⟨.write, 8⟩, ?_, rfl⟩
  rw [bind_of_ok run_read]
  simp only [hc, Bool.false_eq_true, if_false]
  exact onBus_error.2 ⟨_, Memory.write16_beyond h ha value.toUInt16, rfl⟩

/-- The first word of a long ends beyond the memory, or the second does, which has the same edge. -/
private theorem long_edge (hc : coversStatus config addr 4 = false) (ha : addr.toNat + 4 ≤ 2 ^ 32)
    (h : s.bus.size < addr.toNat + 4) (hge : addr.toNat + 2 ≤ s.bus.size) :
    coversStatus config (addr + 2) 2 = false ∧ (addr + 2).toNat = addr.toNat + 2 ∧
      s.bus.size < (addr + 2).toNat + 2 ∧ s.bus.edge (addr + 2) = s.bus.edge addr := by
  obtain ⟨-, c₂, e₂, -⟩ := halves hc ha
  exact ⟨c₂, e₂, by omega, Memory.edge_add (k := 2) hge (by omega)⟩

private theorem read32_beyond (hc : coversStatus config addr 4 = false) (ha : addr.toNat + 4 ≤ 2 ^ 32)
    (h : s.bus.size < addr.toNat + 4) :
    ∃ c, s.cpu.Ticked c ∧
      read32 addr config s = .error (.outOfRange (s.bus.edge addr) ⟨.read, 32⟩) { s with cpu := c } := by
  have c₁ := (halves hc ha).1
  unfold read32
  rcases Nat.lt_or_ge s.bus.size (addr.toNat + 2) with hlt | hge
  · exact ⟨_, .twice s.cpu .read addr (addr + 1),
      widening_error.2 ⟨_, bind_error.2 (.inl (read16_beyond c₁ (by omega) hlt)), rfl⟩⟩
  · obtain ⟨c₂, e₂, hlt, hedge⟩ := long_edge hc ha h hge
    have hfirst := (read16_memory (s := s) c₁ (by omega)).2 ⟨hge, rfl, rfl⟩
    have hsecond := read16_beyond
      (s := { s with cpu := (s.cpu.charged .read addr).charged .read (addr + 1) }) c₂ (by omega) hlt
    rw [← hedge]
    exact ⟨_, (Cpu.Ticked.twice s.cpu .read addr (addr + 1)).trans (.twice _ .read (addr + 2) (addr + 2 + 1)),
      widening_error.2 ⟨_, bind_error.2 (.inr ⟨_, _, hfirst, bind_error.2 (.inl hsecond)⟩), rfl⟩⟩

private theorem write32_beyond (hc : coversStatus config addr 4 = false) (ha : addr.toNat + 4 ≤ 2 ^ 32)
    (h : s.bus.size < addr.toNat + 4) (value : UInt32) :
    ∃ c, s.cpu.Ticked c ∧
      write32 addr value config s = .error (.outOfRange (s.bus.edge addr) ⟨.write, 32⟩)
        { s with cpu := c, bus := s.bus.storeAll addr ((Encoding.longBytes value).take (s.bus.size - addr.toNat)) } := by
  have c₁ := (halves hc ha).1
  unfold write32
  rw [Encoding.longBytes_words, List.take_append]
  rcases Nat.lt_or_ge s.bus.size (addr.toNat + 2) with hlt | hge
  · have hnone : s.bus.size - addr.toNat - (Encoding.wordBytes (value >>> 16)).length = 0 :=
      Nat.sub_eq_zero_of_le (show s.bus.size - addr.toNat ≤ 2 by omega)
    rw [hnone, List.take_zero, List.append_nil]
    exact ⟨_, .twice s.cpu .write addr (addr + 1),
      widening_error.2 ⟨_, bind_error.2 (.inl (write16_beyond c₁ (by omega) hlt (value >>> 16))), rfl⟩⟩
  · obtain ⟨c₂, e₂, hlt, hedge⟩ := long_edge hc ha h hge
    let u : System Memory := { s with
      cpu := (s.cpu.charged .write addr).charged .write (addr + 1)
      bus := s.bus.storeAll addr (Encoding.wordBytes (value >>> 16)) }
    have hu : u.bus = s.bus.storeSized .word addr (value >>> 16) :=
      (Memory.storeSized_eq s.bus .word addr (value >>> 16)).symm
    have hfirst : write16 addr (value >>> 16).toUInt16 config s = .ok () u :=
      (write16_memory c₁ (by omega)).2 ⟨hge, congrArg (fun bus => { u with bus := bus }) hu⟩
    have hsize : u.bus.size = s.bus.size := Memory.size_storeAll ..
    have hsecond := write16_beyond (s := u) c₂ (by omega) (by rwa [hsize]) value
    rw [hsize, Memory.edge_congr hsize] at hsecond
    have hall : (Encoding.wordBytes (value >>> 16)).take (s.bus.size - addr.toNat) = Encoding.wordBytes (value >>> 16) :=
      List.take_of_length_le (show 2 ≤ s.bus.size - addr.toNat by omega)
    have hrest : s.bus.size - addr.toNat - (Encoding.wordBytes (value >>> 16)).length = s.bus.size - (addr + 2).toNat := by
      rw [e₂]
      exact Nat.sub_sub _ _ _
    rw [hall, hrest, Memory.storeAll_append, ← hedge]
    exact ⟨_, (Cpu.Ticked.twice s.cpu .write addr (addr + 1)).trans (.twice _ .write (addr + 2) (addr + 2 + 1)),
      widening_error.2 ⟨_, bind_error.2 (.inr ⟨_, _, hfirst, hsecond⟩), rfl⟩⟩

/-- A read that ends beyond the memory fails at the edge, and changes nothing but the clock. -/
theorem readSized_beyond {width : Width} (hc : coversStatus config addr width.bytes = false)
    (ha : addr.toNat + 4 ≤ 2 ^ 32) (h : s.bus.size < addr.toNat + width.bytes.toNat) :
    ∃ c, s.cpu.Ticked c ∧ readSized width addr config s =
      .error (.outOfRange (s.bus.edge addr) ⟨.read, 8 * width.bytes.toNat⟩) { s with cpu := c } := by
  cases width with
  | byte =>
    have hle : s.bus.size ≤ addr.toNat := Nat.le_of_lt_succ h
    refine ⟨_, .charged s.cpu .read addr, bind_error.2 (.inl ?_)⟩
    rw [Memory.edge_of_le hle]
    exact read8_beyond hc hle
  | word => exact ⟨_, .twice s.cpu .read addr (addr + 1), bind_error.2 (.inl (read16_beyond hc (by omega) h))⟩
  | long => exact read32_beyond hc ha h

/-- A write that ends beyond the memory fails at the edge, and the bytes before the edge are stored. -/
theorem writeSized_beyond {width : Width} (hc : coversStatus config addr width.bytes = false)
    (ha : addr.toNat + 4 ≤ 2 ^ 32) (h : s.bus.size < addr.toNat + width.bytes.toNat) (value : UInt32) :
    ∃ c, s.cpu.Ticked c ∧ writeSized width addr value config s =
      .error (.outOfRange (s.bus.edge addr) ⟨.write, 8 * width.bytes.toNat⟩)
        { s with cpu := c, bus := s.bus.storeAll addr ((width.toBytes value).take (s.bus.size - addr.toNat)) } := by
  cases width with
  | byte =>
    have hle : s.bus.size ≤ addr.toNat := Nat.le_of_lt_succ h
    rw [Memory.edge_of_le hle, Nat.sub_eq_zero_of_le hle]
    exact ⟨_, .charged s.cpu .write addr, write8_beyond hc hle value.toUInt8⟩
  | word => exact ⟨_, .twice s.cpu .write addr (addr + 1), write16_beyond hc (by omega) h value⟩
  | long => exact write32_beyond hc ha h value

end Beyond

end CpuM

/-! ### A memory behind a bus -/

namespace BusM

variable {α γ σ τ : Type} {put : σ → τ}

/-- What came of an action on a part, as it is for the whole that holds the part. -/
def held (put : σ → τ) : EStateM.Result Fault σ α → EStateM.Result Fault τ α
  | .ok a t => .ok a (put t)
  | .error e t => .error e (put t)

theorem held_bind {m : BusM τ α} {m' : BusM σ α} {f : α → BusM τ γ} {f' : α → BusM σ γ}
    (hm : ∀ x, m (put x) = held put (m' x)) (hf : ∀ a x, f a (put x) = held put (f' a x)) (x : σ) :
    (m >>= f : BusM τ γ) (put x) = held put ((m' >>= f' : BusM σ γ) x) := by
  show EStateM.bind m f (put x) = held put (EStateM.bind m' f' x)
  unfold EStateM.bind
  rw [hm x]
  cases m' x with
  | ok a y => exact hf a y
  | error e y => rfl

end BusM

namespace CpuM

open BusM (held)

variable {α β γ : Type} {config : Config} {put : Memory → β}

/-- The system with the bus that holds the memory. -/
def behind (put : Memory → β) (s : System Memory) : System β := { s with bus := put s.bus }

/-- The action does with a bus what another does with the memory that the bus holds. -/
def Mirrors (config : Config) (put : Memory → β) (m : CpuM β α) (m' : CpuM Memory α) : Prop :=
  ∀ s, m config (behind put s) = held (behind put) (m' config s)

namespace Mirrors

theorem pure (a : α) : Mirrors config put (pure a) (pure a) := fun _ => rfl

theorem bind {m : CpuM β α} {m' : CpuM Memory α} {f : α → CpuM β γ} {f' : α → CpuM Memory γ}
    (hm : Mirrors config put m m') (hf : ∀ a, Mirrors config put (f a) (f' a)) :
    Mirrors config put (m >>= f) (m' >>= f') :=
  BusM.held_bind hm hf

theorem widening (width : Nat) {m : CpuM β α} {m' : CpuM Memory α} (hm : Mirrors config put m m') :
    Mirrors config put (widening width m) (widening width m') := by
  intro s
  unfold CpuM.widening
  rw [hm s]
  cases m' config s <;> rfl

theorem charge (direction : Direction) (a : UInt32) :
    Mirrors config put (charge direction a) (charge direction a) := fun _ => rfl

theorem onBus {m : BusM β α} {m' : BusM Memory α} (hm : ∀ mem, m (put mem) = held put (m' mem)) :
    Mirrors config put (onBus m) (onBus m') := by
  intro s
  have h : m (behind put s).bus = held put (m' s.bus) := hm s.bus
  rw [run_onBus, run_onBus, h]
  cases m' s.bus <;> rfl

/-- What is done may depend on the configuration. -/
theorem reading {f : Config → CpuM β α} {f' : Config → CpuM Memory α} (h : Mirrors config put (f config) (f' config)) :
    Mirrors config put (read >>= f) (read >>= f') := h

end Mirrors

end CpuM

/-! ### The memory behind devices -/

namespace DeviceBus

open BusM (held held_bind)

variable {δ : Type} {bus : DeviceBus δ} {addr : UInt32}

/-- The bus with another memory. -/
def withMemory (bus : DeviceBus δ) (m : Memory) : DeviceBus δ := { bus with memory := m }

variable [Device δ]

theorem read8_withMemory (h : bus.mapping? addr = none) (m : Memory) :
    read8 addr (bus.withMemory m) = held bus.withMemory (Memory.busRead addr m) := by
  have hm : (bus.withMemory m).mapping? addr = none := h
  have hr : (bus.withMemory m).memory.read? addr = m.read? addr := rfl
  unfold read8 Memory.busRead
  simp only [hm, hr]
  cases m.read? addr <;> rfl

theorem write8_withMemory (h : bus.mapping? addr = none) (value : UInt8) (m : Memory) :
    write8 addr value (bus.withMemory m) = held bus.withMemory (Memory.busWrite addr value m) := by
  have hm : (bus.withMemory m).mapping? addr = none := h
  unfold write8 Memory.busWrite
  rw [hm]
  show (if m.contains addr then _ else _) = held _ (if m.contains addr then _ else _)
  split <;> rfl

omit [Device δ] in
/-- A word that begins beside all devices is two bytes. -/
private theorem wordMapping?_withMemory (h : bus.mapping? addr = none) (m : Memory) :
    (bus.withMemory m).wordMapping? addr = none := by
  unfold wordMapping?
  rw [show (bus.withMemory m).mapping? addr = none from h]

theorem read16_withMemory (h : bus.mapping? addr = none) (h' : bus.mapping? (addressAfter addr) = none) (m : Memory) :
    read16 addr (bus.withMemory m) = held bus.withMemory ((Bus.read16 addr : BusM Memory UInt16) m) := by
  unfold read16
  rw [wordMapping?_withMemory h]
  exact held_bind (read8_withMemory h) (fun hi => held_bind (read8_withMemory h') fun lo _ => rfl) m

theorem write16_withMemory (h : bus.mapping? addr = none) (h' : bus.mapping? (addressAfter addr) = none)
    (value : UInt16) (m : Memory) :
    write16 addr value (bus.withMemory m) =
      held bus.withMemory ((Bus.write16 addr value : BusM Memory Unit) m) := by
  unfold write16
  rw [wordMapping?_withMemory h]
  exact held_bind (write8_withMemory h _) (fun _ => write8_withMemory h' _) m

end DeviceBus

namespace CpuM

section Devices

variable {δ : Type} [Device δ] {bus : DeviceBus δ} {config : Config} {addr : UInt32}

private theorem read8_mirrors (hc : coversStatus config addr 1 = false) (h : bus.mapping? addr = none) :
    Mirrors config bus.withMemory (read8 addr) (read8 addr) := by
  refine .bind (.charge .read addr) fun _ => .reading ?_
  rw [if_neg (not_status hc), if_neg (not_status hc)]
  exact .onBus (DeviceBus.read8_withMemory h)

private theorem write8_mirrors (hc : coversStatus config addr 1 = false) (h : bus.mapping? addr = none) (value : UInt8) :
    Mirrors config bus.withMemory (write8 addr value) (write8 addr value) := by
  refine .bind (.charge .write addr) fun _ => .reading ?_
  rw [if_neg (not_status hc), if_neg (not_status hc)]
  exact .onBus (DeviceBus.write8_withMemory h value)

private theorem read16_mirrors (hc : coversStatus config addr 2 = false) (h : bus.mapping? addr = none)
    (h' : bus.mapping? (addressAfter addr) = none) : Mirrors config bus.withMemory (read16 addr) (read16 addr) := by
  refine .bind (.charge .read addr) fun _ => .bind (.charge .read (addr + 1)) fun _ => .reading ?_
  simp only [hc, Bool.false_eq_true, if_false]
  exact .widening 16 (.onBus (DeviceBus.read16_withMemory h h'))

private theorem write16_mirrors (hc : coversStatus config addr 2 = false) (h : bus.mapping? addr = none)
    (h' : bus.mapping? (addressAfter addr) = none) (value : UInt16) :
    Mirrors config bus.withMemory (write16 addr value) (write16 addr value) := by
  refine .bind (.charge .write addr) fun _ => .bind (.charge .write (addr + 1)) fun _ => .widening 16 (.reading ?_)
  simp only [hc, Bool.false_eq_true, if_false]
  exact .onBus (DeviceBus.write16_withMemory h h' value)

omit [Device δ] in
/-- The bytes of a long are those of its words. -/
private theorem second_word (ha : addr.toNat + 4 ≤ 2 ^ 32) (h : ∀ k < 4, bus.mapping? (addr + k.toUInt32) = none) :
    bus.mapping? addr = none ∧ bus.mapping? (addressAfter addr) = none ∧
      bus.mapping? (addr + 2) = none ∧ bus.mapping? (addressAfter (addr + 2)) = none := by
  have e₂ : (addr + 2).toNat = addr.toNat + 2 := Memory.toNat_add_of_lt (k := 2) (by omega)
  have e₃ : addr + 2 + 1 = addr + (3 : Nat).toUInt32 := UInt32.add_assoc addr 2 1
  rw [Memory.addressAfter_eq (by omega), Memory.addressAfter_eq (by omega), e₃]
  have h₀ := h 0 (by omega)
  rw [show addr + (0 : Nat).toUInt32 = addr from UInt32.add_zero addr] at h₀
  exact ⟨h₀, h 1 (by omega), h 2 (by omega), h 3 (by omega)⟩

/-- Beside the devices a value is read from the memory behind them. -/
theorem readSized_mirrors {width : Width} (hc : coversStatus config addr width.bytes = false)
    (ha : addr.toNat + 4 ≤ 2 ^ 32) (h : ∀ k < width.bytes.toNat, bus.mapping? (addr + k.toUInt32) = none) :
    Mirrors config bus.withMemory (readSized width addr) (readSized width addr) := by
  have h₀ : bus.mapping? addr = none := by
    have := h 0 (by cases width <;> decide)
    rwa [show addr + (0 : Nat).toUInt32 = addr from UInt32.add_zero addr] at this
  cases width with
  | byte => exact .bind (read8_mirrors hc h₀) fun b => .pure _
  | word =>
    have h₁ := h 1 (by decide)
    exact .bind (read16_mirrors hc h₀ (by rwa [Memory.addressAfter_eq (by omega)])) fun v => .pure _
  | long =>
    obtain ⟨c₁, c₂, -, -⟩ := halves hc ha
    obtain ⟨-, h₁, h₂, h₃⟩ := second_word ha h
    exact .widening 32 (.bind (read16_mirrors c₁ h₀ h₁) fun hi => .bind (read16_mirrors c₂ h₂ h₃) fun lo => .pure _)

/-- Beside the devices a value is written to the memory behind them. -/
theorem writeSized_mirrors {width : Width} (hc : coversStatus config addr width.bytes = false)
    (ha : addr.toNat + 4 ≤ 2 ^ 32) (h : ∀ k < width.bytes.toNat, bus.mapping? (addr + k.toUInt32) = none)
    (value : UInt32) : Mirrors config bus.withMemory (writeSized width addr value) (writeSized width addr value) := by
  have h₀ : bus.mapping? addr = none := by
    have := h 0 (by cases width <;> decide)
    rwa [show addr + (0 : Nat).toUInt32 = addr from UInt32.add_zero addr] at this
  cases width with
  | byte => exact write8_mirrors hc h₀ _
  | word =>
    have h₁ := h 1 (by decide)
    exact write16_mirrors hc h₀ (by rwa [Memory.addressAfter_eq (by omega)]) _
  | long =>
    obtain ⟨c₁, c₂, -, -⟩ := halves hc ha
    obtain ⟨-, h₁, h₂, h₃⟩ := second_word ha h
    exact .widening 32 (.bind (write16_mirrors c₁ h₀ h₁ _) fun _ => write16_mirrors c₂ h₂ h₃ _)

end Devices

/-! ### Accesses of every width -/

variable {β : Type} {config : Config} {put : Memory → β}

/-- What comes of the accesses of a width at an address, on a bus that holds a memory: they succeed if they end in the
memory, and fail at its edge otherwise.  With another memory the bus is what `put` makes of it. -/
structure EndAtEdge [Bus β] (config : Config) (width : Width) (addr : UInt32) (s : System β) (m : Memory)
    (put : Memory → β) : Prop where
  read : addr.toNat + width.bytes.toNat ≤ m.size → ∃ c, s.cpu.Ticked c ∧
    readSized width addr config s = .ok (m.sizedAt width addr) { s with cpu := c }
  write : addr.toNat + width.bytes.toNat ≤ m.size → ∀ value, ∃ c, s.cpu.Ticked c ∧
    writeSized width addr value config s =
      .ok () { s with cpu := c, bus := put (m.storeAll addr (width.toBytes value)) }
  readBeyond : m.size < addr.toNat + width.bytes.toNat → ∃ c, s.cpu.Ticked c ∧
    readSized width addr config s =
      .error (.outOfRange (max addr.toNat m.size).toUInt32 ⟨.read, 8 * width.bytes.toNat⟩) { s with cpu := c }
  writeBeyond : m.size < addr.toNat + width.bytes.toNat → ∀ value, ∃ c, s.cpu.Ticked c ∧
    writeSized width addr value config s =
      .error (.outOfRange (max addr.toNat m.size).toUInt32 ⟨.write, 8 * width.bytes.toNat⟩)
        { s with cpu := c, bus := put (m.storeAll addr ((width.toBytes value).take (m.size - addr.toNat))) }

/-- What holds of a memory holds of a bus that mirrors it. -/
private theorem endAtEdge_of_mirrors [Bus β] {width : Width} {addr : UInt32} (s : System Memory)
    (hc : coversStatus config addr width.bytes = false) (ha : addr.toNat + 4 ≤ 2 ^ 32)
    (hr : Mirrors config put (readSized width addr) (readSized width addr))
    (hw : ∀ value, Mirrors config put (writeSized width addr value) (writeSized width addr value)) :
    EndAtEdge config width addr (behind put s) s.bus put where
  read hin := by
    refine ⟨_, .chargedSized s.cpu .read width addr, ?_⟩
    rw [hr s, (readSized_memory hc ha).2 ⟨hin, rfl, rfl⟩]
    rfl
  write hin value := by
    refine ⟨_, .chargedSized s.cpu .write width addr, ?_⟩
    rw [hw value s, (writeSized_memory hc ha).2 ⟨hin, rfl⟩, Memory.storeSized_eq]
    rfl
  readBeyond hout := by
    obtain ⟨c, ht, h⟩ := readSized_beyond hc ha hout
    refine ⟨c, ht, ?_⟩
    rw [hr s, h]
    rfl
  writeBeyond hout value := by
    obtain ⟨c, ht, h⟩ := writeSized_beyond hc ha hout value
    refine ⟨c, ht, ?_⟩
    rw [hw value s, h]
    rfl

/-- Accesses beside the status register never wrap around: on a plain memory, and on the memory behind devices where no
device is mapped, they succeed exactly if they end in the memory, and otherwise fail at its edge with their own width. -/
theorem accesses_end_at_edge {δ : Type} [Device δ] {config : Config} {width : Width} {addr : UInt32}
    (ha : addr.toNat < Address.spaceSize) (hc : coversStatus config addr width.bytes = false) :
    (∀ s : System Memory, EndAtEdge config width addr s s.bus id) ∧
      ∀ s : System (DeviceBus δ), (∀ k < width.bytes.toNat, s.bus.mapping? (addr + k.toUInt32) = none) →
        EndAtEdge config width addr s s.bus.memory s.bus.withMemory := by
  have hroom : addr.toNat + 4 ≤ 2 ^ 32 := by
    unfold Address.spaceSize at ha
    omega
  have same {α : Type} (m : CpuM Memory α) : Mirrors config id m m := fun s => by
    show m config s = BusM.held id (m config s)
    cases m config s <;> rfl
  refine ⟨fun s => endAtEdge_of_mirrors s hc hroom (same _) fun _ => same _, fun s h => ?_⟩
  have behindDevices : EndAtEdge config width addr (behind s.bus.withMemory { s with bus := s.bus.memory }) s.bus.memory
      s.bus.withMemory :=
    endAtEdge_of_mirrors _ hc hroom (readSized_mirrors hc hroom h) (writeSized_mirrors hc hroom h)
  exact behindDevices

/-- Of a long that is written two bytes before the end of a memory of a hundred bytes, the first two bytes are stored and
the third is reported. -/
theorem long_write_ends_at_edge :
    (98 : UInt32).toNat < Address.spaceSize ∧ coversStatus {} 98 4 = false ∧
      ∃ t, write32 98 0x11223344 {} ({ bus := { size := 100 } } : System Memory) =
          .error (.outOfRange 100 ⟨.write, 32⟩) t ∧
        t.bus.get 98 = 0x11 ∧ t.bus.get 99 = 0x22 ∧ t.bus.get 100 = 0 := by
  refine ⟨by decide, by decide, ?_⟩
  have ends := (@accesses_end_at_edge Peripheral _ {} .long 98 (by decide) (by decide)).1 { bus := { size := 100 } }
  obtain ⟨c, -, h⟩ := ends.writeBeyond (by decide) 0x11223344
  have hempty : ({ size := 100 } : Memory).get 100 = 0 := by simp [Memory.get]
  refine ⟨_, h, ?_⟩
  show ((Memory.store _ 98 0x11).store 99 0x22).get 98 = 0x11 ∧ ((Memory.store _ 98 0x11).store 99 0x22).get 99 = 0x22 ∧
    ((Memory.store { size := 100 } 98 0x11).store 99 0x22).get 100 = 0
  simp [Memory.get_store, hempty]

end CpuM

end H8S
