import H8S.Peripheral
import H8S.Proofs.FlatMemory
import Mathlib.Data.List.Basic
import Mathlib.Data.List.Induction
import Mathlib.Tactic.Ring

/-!
# Wide accesses by their bytes

A word or a long is the sequence of its bytes, the highest first at the lowest address.  On the bus this is so by definition
except where one device serves a word in one piece; if its words are bytes in turn (`Device.Bytewise`), the device it leaves
is that after two bytes (`DeviceBus.bytewise`).  In the core all bytes of a word are charged before any of them moves, but
charging touches only the cycle counter and the timer, which no byte looks at (`read16_ok`, `write16_ok`).  So a wide access
ends in the same system as its bytes do (`wide_accesses_by_bytes`), whatever it covers: borders between ranges, closed
ranges, or the status register.
-/

namespace H8S

/-- Words of these devices are two bytes. -/
structure Device.Bytewise (δ : Type) [Device δ] : Prop where
  read16 : ∀ (d : Active δ) (addr : UInt32), Device.read16 d addr =
    (wordOf (Device.read8 d addr).1 (Device.read8 (Device.read8 d addr).2 (addressAfter addr)).1,
      (Device.read8 (Device.read8 d addr).2 (addressAfter addr)).2)
  write16 : ∀ (d : Active δ) (addr : UInt32) (value : UInt16), Device.write16 d addr value =
    Device.write8 (Device.write8 d addr (highByte value)) (addressAfter addr) value.toUInt8

/-- Words on such a bus are two bytes, the high byte first. -/
structure Bus.Bytewise (β : Type) [Bus β] : Prop where
  read16 : ∀ addr : UInt32, (Bus.read16 addr : BusM β UInt16) =
    Bus.read8 addr >>= fun hi => Bus.read8 (addressAfter addr) >>= fun lo => pure (wordOf hi lo)
  write16 : ∀ (addr : UInt32) (value : UInt16), (Bus.write16 addr value : BusM β Unit) =
    Bus.write8 addr (highByte value) >>= fun _ => Bus.write8 (addressAfter addr) value.toUInt8

/-- The devices on the chip have no words of their own. -/
theorem ChipDevice.bytewise {δ : Type} [ChipDevice δ] : Device.Bytewise δ := ⟨fun _ _ => rfl, fun _ _ _ => rfl⟩

/-! ### Words on a bus with devices -/

namespace DeviceBus

variable {δ : Type} {bus : DeviceBus δ} {m : Mapping} {d : Active δ} {addr : UInt32}

/-- A device that was at work serves its range as it is then. -/
private theorem serving?_served (hs : bus.serving? m = some d) (d' : Active δ) :
    (bus.served m.device d').serving? m = some d' := by
  unfold serving? at hs
  split at hs
  · cases hs
  · next hb =>
    obtain ⟨e, he, -⟩ := Option.map_eq_some_iff.1 hs
    have hlt : m.device < bus.devices.size := (Array.getElem?_eq_some_iff.1 he).1
    refine (if_neg hb).trans ?_
    simp [served, setDevice, device?, hlt, active]

private theorem served_served (number : Nat) (d d' : Active δ) :
    (bus.served number d).served number d' = bus.served number d' := by
  simp [served, setDevice]

theorem wordMapping?_some (h : bus.wordMapping? addr = some m) :
    bus.mapping? addr = some m ∧ bus.mapping? (addressAfter addr) = some m := by
  unfold wordMapping? at h
  split at h
  · split at h
    · next hm hafter =>
      cases h
      exact ⟨hm, hafter⟩
    · cases h
  · cases h

variable [Device δ]

theorem read8_of_closed (hm : bus.mapping? addr = some m) (hs : bus.serving? m = none) :
    read8 addr bus = .ok 0xFF bus := by
  unfold read8
  simp only [hm, hs]

theorem read8_of_serving (hm : bus.mapping? addr = some m) (hs : bus.serving? m = some d) :
    read8 addr bus = .ok (Device.read8 d addr).1 (bus.served m.device (Device.read8 d addr).2) := by
  unfold read8
  simp only [hm, hs]

theorem write8_of_closed (hm : bus.mapping? addr = some m) (hs : bus.serving? m = none) (value : UInt8) :
    write8 addr value bus = .ok () bus := by
  unfold write8
  simp only [hm, hs]

theorem write8_of_serving (hm : bus.mapping? addr = some m) (hs : bus.serving? m = some d) (value : UInt8) :
    write8 addr value bus = .ok () (bus.served m.device (Device.write8 d addr value)) := by
  unfold write8
  simp only [hm, hs]

/-- Devices whose words are bytes make a bus whose words are bytes. -/
theorem bytewise (hδ : Device.Bytewise δ) : Bus.Bytewise (DeviceBus δ) where
  read16 addr := by
    funext bus
    show read16 addr bus = _
    unfold read16
    split
    · next m hw =>
      obtain ⟨hm, hm'⟩ := wordMapping?_some hw
      cases hs : bus.serving? m with
      | none =>
        refine (BusM.bind_ok.2 ⟨_, _, read8_of_closed hm hs, BusM.bind_ok.2 ⟨_, _, read8_of_closed hm' hs, ?_⟩⟩).symm
        rfl
      | some d =>
        -- the device that the first byte leaves serves the second
        have hs' := serving?_served hs (Device.read8 d addr).2
        have h₁ := read8_of_serving hm hs
        have h₂ := read8_of_serving (show (bus.served _ _).mapping? _ = some m from hm') hs'
        rw [served_served] at h₂
        show EStateM.Result.ok (Device.read16 d addr).1 (bus.served m.device (Device.read16 d addr).2) = _
        rw [hδ.read16]
        refine (BusM.bind_ok.2 ⟨_, _, h₁, BusM.bind_ok.2 ⟨_, _, h₂, ?_⟩⟩).symm
        rfl
    · rfl
  write16 addr value := by
    funext bus
    show write16 addr value bus = _
    unfold write16
    split
    · next m hw =>
      obtain ⟨hm, hm'⟩ := wordMapping?_some hw
      cases hs : bus.serving? m with
      | none => exact (BusM.bind_ok.2 ⟨_, _, write8_of_closed hm hs _, write8_of_closed hm' hs _⟩).symm
      | some d =>
        have hs' := serving?_served hs (Device.write8 d addr (highByte value))
        have h₂ := write8_of_serving (show (bus.served _ _).mapping? _ = some m from hm') hs' value.toUInt8
        rw [served_served, ← hδ.write16] at h₂
        exact (BusM.bind_ok.2 ⟨_, _, write8_of_serving hm hs _, h₂⟩).symm
    · rfl

end DeviceBus

/-! ### Numbers by their bytes -/

/-- The number with these bytes, the highest first. -/
def bigEndian (bytes : List UInt8) : Nat := bytes.foldl (fun n b => n * 256 + b.toNat) 0

theorem bigEndian_concat (bytes : List UInt8) (b : UInt8) : bigEndian (bytes ++ [b]) = bigEndian bytes * 256 + b.toNat := by
  unfold bigEndian
  rw [List.foldl_append]
  rfl

theorem bigEndian_append (xs ys : List UInt8) :
    bigEndian (xs ++ ys) = bigEndian xs * 256 ^ ys.length + bigEndian ys := by
  induction ys using List.reverseRecOn with
  | nil => simp [bigEndian]
  | append_singleton ys y ih =>
    rw [← List.append_assoc, bigEndian_concat, bigEndian_concat, ih, List.length_append, List.length_singleton, pow_succ]
    ring

theorem bigEndian_lt (bytes : List UInt8) : bigEndian bytes < 256 ^ bytes.length := by
  induction bytes using List.reverseRecOn with
  | nil => decide
  | append_singleton bytes b ih =>
    have hb : b.toNat < 256 := b.toNat_lt
    rw [bigEndian_concat, List.length_append, List.length_singleton, pow_succ]
    omega

theorem bigEndian_pair (hi lo : UInt8) : bigEndian [hi, lo] = (wordOf hi lo).toNat := by
  rw [Memory.wordOf_toNat]
  simp [bigEndian]

/-- The bytes of a word are its high and its low byte. -/
theorem bigEndian_eq_word {bytes : List UInt8} {value : UInt16} (hlen : bytes.length = 2) :
    bigEndian bytes = value.toNat ↔ bytes = [highByte value, value.toUInt8] := by
  have hv := value.toNat_lt
  have hhi : (highByte value).toNat = value.toNat / 256 := by
    simp [highByte]
    omega
  have hlo : value.toUInt8.toNat = value.toNat % 256 := by simp
  obtain ⟨a, b, rfl⟩ := List.length_eq_two.1 hlen
  have hb : b.toNat < 256 := b.toNat_lt
  rw [bigEndian_pair, Memory.wordOf_toNat]
  constructor
  · intro h
    have ea : a = highByte value := UInt8.toNat_inj.1 (by omega)
    have eb : b = value.toUInt8 := UInt8.toNat_inj.1 (by omega)
    rw [ea, eb]
  · intro h
    simp only [List.cons.injEq, and_true] at h
    rw [h.1, h.2]
    omega

/-- The bytes of a long are those of its halves. -/
theorem bigEndian_append_eq_long {xs ys : List UInt8} {value : UInt32} (hys : ys.length = 2) :
    bigEndian (xs ++ ys) = value.toNat ↔
      bigEndian xs = (value >>> 16).toUInt16.toNat ∧ bigEndian ys = value.toUInt16.toNat := by
  have hv := value.toNat_lt
  have hlt := bigEndian_lt ys
  have hhi : (value >>> 16).toUInt16.toNat = value.toNat / 65536 := by
    simp
    omega
  have hlo : value.toUInt16.toNat = value.toNat % 65536 := by simp
  rw [hys] at hlt
  rw [bigEndian_append, hys, hhi, hlo]
  omega

namespace CpuM

variable {β : Type} [Bus β] {config : Config} {s t u : System β} {addr : UInt32}

/-! ### Sequences of bytes -/

/-- Reads so many bytes from an address on, one after the other. -/
def readBytes (addr : UInt32) : Nat → CpuM β (List UInt8)
  | 0 => pure []
  | n + 1 => do
    let b ← read8 addr
    let bytes ← readBytes (addr + 1) n
    return b :: bytes

/-- Writes bytes from an address on, one after the other. -/
def writeBytes (addr : UInt32) : List UInt8 → CpuM β Unit
  | [] => pure ()
  | b :: bytes => do
    write8 addr b
    writeBytes (addr + 1) bytes

private theorem add_succ (addr : UInt32) (n : Nat) : addr + (n + 1).toUInt32 = addr + 1 + n.toUInt32 := by
  rw [UInt32.add_assoc]
  congr 1
  apply UInt32.toNat_inj.1
  simp
  omega

theorem readBytes_succ_ok {n : Nat} {bytes : List UInt8} :
    readBytes addr (n + 1) config s = .ok bytes t ↔
      ∃ b u rest, read8 addr config s = .ok b u ∧ readBytes (addr + 1) n config u = .ok rest t ∧ bytes = b :: rest := by
  constructor
  · intro h
    obtain ⟨b, u, hb, h⟩ := bind_ok.1 h
    obtain ⟨rest, v, hr, h⟩ := bind_ok.1 h
    cases h
    exact ⟨b, u, rest, hb, hr, rfl⟩
  · rintro ⟨b, u, rest, hb, hr, rfl⟩
    exact bind_ok.2 ⟨b, u, hb, bind_ok.2 ⟨rest, t, hr, rfl⟩⟩

theorem readBytes_add_ok {m n : Nat} {bytes : List UInt8} :
    readBytes addr (m + n) config s = .ok bytes t ↔
      ∃ xs u ys, readBytes addr m config s = .ok xs u ∧ readBytes (addr + m.toUInt32) n config u = .ok ys t ∧
        bytes = xs ++ ys := by
  induction m generalizing addr s bytes with
  | zero =>
    have e : addr + (0 : Nat).toUInt32 = addr := UInt32.add_zero addr
    rw [Nat.zero_add, e]
    constructor
    · intro h
      exact ⟨[], s, bytes, rfl, h, rfl⟩
    · rintro ⟨_, _, ys, ⟨⟩, h, rfl⟩
      exact h
  | succ m ih =>
    have e := add_succ addr m
    rw [Nat.add_right_comm, readBytes_succ_ok]
    constructor
    · rintro ⟨b, u, rest, hb, hr, rfl⟩
      obtain ⟨xs, v, ys, hx, hy, rfl⟩ := ih.1 hr
      exact ⟨b :: xs, v, ys, readBytes_succ_ok.2 ⟨b, u, xs, hb, hx, rfl⟩, e ▸ hy, rfl⟩
    · rintro ⟨_, v, ys, hx, hy, rfl⟩
      obtain ⟨b, u, xs, hb, hrest, rfl⟩ := readBytes_succ_ok.1 hx
      exact ⟨b, u, xs ++ ys, hb, ih.2 ⟨xs, v, ys, hrest, e ▸ hy, rfl⟩, rfl⟩

theorem writeBytes_append_ok {xs ys : List UInt8} :
    writeBytes addr (xs ++ ys) config s = .ok () t ↔
      ∃ u, writeBytes addr xs config s = .ok () u ∧ writeBytes (addr + xs.length.toUInt32) ys config u = .ok () t := by
  induction xs generalizing addr s with
  | nil =>
    have e : addr + ([] : List UInt8).length.toUInt32 = addr := UInt32.add_zero addr
    rw [List.nil_append, e]
    constructor
    · intro h
      exact ⟨s, rfl, h⟩
    · rintro ⟨_, ⟨⟩, h⟩
      exact h
  | cons x xs ih =>
    have e := add_succ addr xs.length
    constructor
    · intro h
      obtain ⟨_, v, hx, h⟩ := bind_ok.1 h
      obtain ⟨u, hxs, hys⟩ := ih.1 h
      exact ⟨u, bind_ok.2 ⟨(), v, hx, hxs⟩, e ▸ hys⟩
    · rintro ⟨u, h, hys⟩
      obtain ⟨_, v, hx, hxs⟩ := bind_ok.1 h
      exact bind_ok.2 ⟨(), v, hx, ih.2 ⟨u, hxs, e ▸ hys⟩⟩

theorem length_readBytes {n : Nat} {bytes : List UInt8} (h : readBytes addr n config s = .ok bytes t) :
    bytes.length = n := by
  induction n generalizing addr s bytes with
  | zero =>
    cases h
    rfl
  | succ n ih =>
    obtain ⟨b, u, rest, -, hr, rfl⟩ := readBytes_succ_ok.1 h
    rw [List.length_cons, ih hr]

/-! ### Words -/

/-- What a byte that is written leaves pending, and the bus after it; the status register is written without the bus. -/
def Takes (config : Config) (s : System β) (addr : UInt32) (b : UInt8) (pending : InterruptSet) (bus : β) : Prop :=
  if config.isrAddress = some addr then pending = s.cpu.pending.acknowledge b ∧ bus = s.bus
  else pending = s.cpu.pending ∧ Bus.write8 addr b s.bus = .ok () bus

theorem store8_ok {b : UInt8} :
    store8 addr b config s = .ok () t ↔ ∃ pending bus, Takes config s addr b pending bus ∧
      t = { s with cpu := { s.cpu with pending := pending }, bus := bus } := by
  unfold store8 Takes
  rw [bind_of_ok run_read]
  by_cases hc : config.isrAddress = some addr
  · simp only [if_pos hc]
    constructor
    · rintro ⟨⟩
      exact ⟨_, _, ⟨rfl, rfl⟩, rfl⟩
    · rintro ⟨_, _, ⟨rfl, rfl⟩, rfl⟩
      rfl
  · simp only [if_neg hc, onBus_ok]
    constructor
    · rintro ⟨bus, h, rfl⟩
      exact ⟨_, bus, ⟨rfl, h⟩, rfl⟩
    · rintro ⟨_, bus, ⟨rfl, h⟩, rfl⟩
      exact ⟨bus, h, rfl⟩

theorem write8_ok {b : UInt8} :
    write8 addr b config s = .ok () t ↔ ∃ pending bus, Takes config s addr b pending bus ∧
      t = { s with cpu := { s.cpu.charged .write addr with pending := pending }, bus := bus } := by
  unfold write8
  rw [bind_of_ok (run_charge .write addr)]
  exact store8_ok

theorem aside_of_not_covers (hc : coversStatus config addr 2 = false) (ha : addr.toNat + 2 ≤ 2 ^ 32) :
    config.isrAddress ≠ some addr ∧ config.isrAddress ≠ some (addr + 1) := by
  have e : (addr + 1).toNat = addr.toNat + 1 := Memory.toNat_add_of_lt (k := 1) (by omega)
  have hlen : (2 : UInt32).toNat = 2 := rfl
  constructor
  all_goals
    intro h
    rw [coversStatus_iff.2 ⟨_, h, by omega, by omega⟩] at hc
    cases hc

/-- A word that is loaded is two bytes that are loaded. -/
private theorem load16_ok {v : UInt16} (hβ : Bus.Bytewise β) (ha : addr.toNat + 2 ≤ 2 ^ 32) :
    load16 addr config s = .ok v t ↔
      ∃ hi u lo, load8 addr config s = .ok hi u ∧ load8 (addr + 1) config u = .ok lo t ∧ v = wordOf hi lo := by
  unfold load16
  rw [bind_of_ok run_read]
  cases hc : coversStatus config addr 2 with
  | true =>
    constructor
    · intro h
      obtain ⟨hi, u, h₁, h⟩ := bind_ok.1 h
      obtain ⟨lo, w, h₂, h⟩ := bind_ok.1 h
      cases h
      exact ⟨hi, u, lo, h₁, h₂, rfl⟩
    · rintro ⟨hi, u, lo, h₁, h₂, rfl⟩
      exact bind_ok.2 ⟨hi, u, h₁, bind_ok.2 ⟨lo, t, h₂, rfl⟩⟩
  | false =>
    obtain ⟨h₀, h₁⟩ := aside_of_not_covers hc ha
    have hword := hβ.read16 addr
    rw [Memory.addressAfter_eq ha] at hword
    simp only [Bool.false_eq_true, if_false, widening_ok, onBus_ok, hword, load8_ok, Answers, if_neg h₀, if_neg h₁]
    constructor
    · rintro ⟨bus, h, rfl⟩
      obtain ⟨hi, next, h₁, h⟩ := BusM.bind_ok.1 h
      obtain ⟨lo, last, h₂, h⟩ := BusM.bind_ok.1 h
      cases h
      exact ⟨hi, _, lo, ⟨next, h₁, rfl⟩, ⟨bus, h₂, rfl⟩, rfl⟩
    · rintro ⟨hi, _, lo, ⟨next, h₁, rfl⟩, ⟨bus, h₂, rfl⟩, rfl⟩
      exact ⟨bus, BusM.bind_ok.2 ⟨hi, next, h₁, BusM.bind_ok.2 ⟨lo, bus, h₂, rfl⟩⟩, rfl⟩

/-- A word that is stored is two bytes that are stored. -/
private theorem store16_ok {v : UInt16} (hβ : Bus.Bytewise β) (ha : addr.toNat + 2 ≤ 2 ^ 32) :
    store16 addr v config s = .ok () t ↔
      ∃ u, store8 addr (highByte v) config s = .ok () u ∧ store8 (addr + 1) v.toUInt8 config u = .ok () t := by
  unfold store16
  rw [widening_ok, bind_of_ok run_read]
  cases hc : coversStatus config addr 2 with
  | true =>
    constructor
    · intro h
      obtain ⟨_, u, h₁, h₂⟩ := bind_ok.1 h
      exact ⟨u, h₁, h₂⟩
    · rintro ⟨u, h₁, h₂⟩
      exact bind_ok.2 ⟨(), u, h₁, h₂⟩
  | false =>
    obtain ⟨h₀, h₁⟩ := aside_of_not_covers hc ha
    have hword := hβ.write16 addr v
    rw [Memory.addressAfter_eq ha] at hword
    simp only [Bool.false_eq_true, if_false, onBus_ok, hword, store8_ok, Takes, if_neg h₀, if_neg h₁]
    constructor
    · rintro ⟨bus, h, rfl⟩
      obtain ⟨_, next, h₁, h₂⟩ := BusM.bind_ok.1 h
      exact ⟨_, ⟨_, next, ⟨rfl, h₁⟩, rfl⟩, _, bus, ⟨rfl, h₂⟩, rfl⟩
    · rintro ⟨_, ⟨_, next, ⟨rfl, h₁⟩, rfl⟩, _, bus, ⟨rfl, h₂⟩, rfl⟩
      exact ⟨bus, BusM.bind_ok.2 ⟨(), next, h₁, h₂⟩, rfl⟩

/-- A word that is read is two bytes that are read. -/
theorem read16_ok {v : UInt16} (hβ : Bus.Bytewise β) (ha : addr.toNat + 2 ≤ 2 ^ 32) :
    read16 addr config s = .ok v t ↔
      ∃ hi u lo, read8 addr config s = .ok hi u ∧ read8 (addr + 1) config u = .ok lo t ∧ v = wordOf hi lo := by
  unfold read16
  rw [bind_of_ok (run_charge .read addr), bind_of_ok (run_charge .read (addr + 1)), load16_ok hβ ha]
  simp only [load8_ok, read8_ok]
  -- the second byte may be charged before the first one is loaded
  constructor
  · rintro ⟨hi, _, lo, ⟨bus, h₁, rfl⟩, ⟨bus', h₂, rfl⟩, rfl⟩
    exact ⟨hi, _, lo, ⟨bus, h₁, rfl⟩, ⟨bus', h₂, rfl⟩, rfl⟩
  · rintro ⟨hi, _, lo, ⟨bus, h₁, rfl⟩, ⟨bus', h₂, rfl⟩, rfl⟩
    exact ⟨hi, _, lo, ⟨bus, h₁, rfl⟩, ⟨bus', h₂, rfl⟩, rfl⟩

/-- A word that is written is two bytes that are written. -/
theorem write16_ok {v : UInt16} (hβ : Bus.Bytewise β) (ha : addr.toNat + 2 ≤ 2 ^ 32) :
    write16 addr v config s = .ok () t ↔
      ∃ u, write8 addr (highByte v) config s = .ok () u ∧ write8 (addr + 1) v.toUInt8 config u = .ok () t := by
  unfold write16
  rw [bind_of_ok (run_charge .write addr), bind_of_ok (run_charge .write (addr + 1)), store16_ok hβ ha]
  simp only [store8_ok, write8_ok]
  constructor
  · rintro ⟨_, ⟨p, bus, h₁, rfl⟩, p', bus', h₂, rfl⟩
    exact ⟨_, ⟨p, bus, h₁, rfl⟩, p', bus', h₂, rfl⟩
  · rintro ⟨_, ⟨p, bus, h₁, rfl⟩, p', bus', h₂, rfl⟩
    exact ⟨_, ⟨p, bus, h₁, rfl⟩, p', bus', h₂, rfl⟩

theorem read16_iff_readBytes {v : UInt16} (hβ : Bus.Bytewise β) (ha : addr.toNat + 2 ≤ 2 ^ 32) :
    read16 addr config s = .ok v t ↔ ∃ bytes, readBytes addr 2 config s = .ok bytes t ∧ bigEndian bytes = v.toNat := by
  rw [read16_ok hβ ha]
  constructor
  · rintro ⟨hi, u, lo, h₁, h₂, rfl⟩
    have hlast : readBytes (addr + 1) 1 config u = .ok [lo] t := readBytes_succ_ok.2 ⟨lo, t, [], h₂, rfl, rfl⟩
    exact ⟨[hi, lo], readBytes_succ_ok.2 ⟨hi, u, [lo], h₁, hlast, rfl⟩, bigEndian_pair hi lo⟩
  · rintro ⟨bytes, h, hv⟩
    obtain ⟨hi, u, rest, h₁, hrest, rfl⟩ := readBytes_succ_ok.1 h
    obtain ⟨lo, _, _, h₂, hnil, rfl⟩ := readBytes_succ_ok.1 hrest
    cases hnil
    exact ⟨hi, u, lo, h₁, h₂, UInt16.toNat_inj.1 (hv.symm.trans (bigEndian_pair hi lo))⟩

theorem write16_iff_writeBytes {v : UInt16} (hβ : Bus.Bytewise β) (ha : addr.toNat + 2 ≤ 2 ^ 32) :
    write16 addr v config s = .ok () t ↔
      ∃ bytes, bytes.length = 2 ∧ bigEndian bytes = v.toNat ∧ writeBytes addr bytes config s = .ok () t := by
  rw [write16_ok hβ ha]
  constructor
  · rintro ⟨u, h₁, h₂⟩
    refine ⟨[highByte v, v.toUInt8], rfl, (bigEndian_eq_word rfl).2 rfl, ?_⟩
    exact bind_ok.2 ⟨(), u, h₁, bind_ok.2 ⟨(), t, h₂, rfl⟩⟩
  · rintro ⟨bytes, hlen, hv, h⟩
    obtain rfl := (bigEndian_eq_word hlen).1 hv
    obtain ⟨_, u, h₁, h⟩ := bind_ok.1 h
    obtain ⟨_, _, h₂, ⟨⟩⟩ := bind_ok.1 h
    exact ⟨u, h₁, h₂⟩

/-! ### Longs -/

theorem read32_iff_readBytes {v : UInt32} (hβ : Bus.Bytewise β) (ha : addr.toNat + 4 ≤ 2 ^ 32) :
    read32 addr config s = .ok v t ↔ ∃ bytes, readBytes addr 4 config s = .ok bytes t ∧ bigEndian bytes = v.toNat := by
  have e : (addr + 2).toNat = addr.toNat + 2 := Memory.toNat_add_of_lt (k := 2) (by omega)
  unfold read32
  rw [widening_ok]
  constructor
  · intro h
    obtain ⟨hi, u, h₁, h⟩ := bind_ok.1 h
    obtain ⟨lo, _, h₂, ⟨⟩⟩ := bind_ok.1 h
    obtain ⟨xs, hx, ex⟩ := (read16_iff_readBytes hβ (by omega)).1 h₁
    obtain ⟨ys, hy, ey⟩ := (read16_iff_readBytes hβ (by omega)).1 h₂
    refine ⟨xs ++ ys, readBytes_add_ok (m := 2) (n := 2) |>.2 ⟨xs, u, ys, hx, hy, rfl⟩, ?_⟩
    rw [bigEndian_append, ex, ey, length_readBytes hy, Memory.longOf_toNat]
    rfl
  · rintro ⟨bytes, h, hv⟩
    obtain ⟨xs, u, ys, hx, hy, rfl⟩ := readBytes_add_ok (m := 2) (n := 2) |>.1 h
    obtain ⟨ex, ey⟩ := (bigEndian_append_eq_long (length_readBytes hy)).1 hv
    have h₁ := (read16_iff_readBytes hβ (by omega)).2 ⟨xs, hx, ex⟩
    have h₂ := (read16_iff_readBytes hβ (show (addr + 2).toNat + 2 ≤ 2 ^ 32 by omega)).2 ⟨ys, hy, ey⟩
    have hlong : (v >>> 16).toUInt16.toUInt32 <<< 16 ||| v.toUInt16.toUInt32 = v := by
      apply UInt32.toNat_inj.1
      rw [Memory.longOf_toNat, ← ex, ← ey, ← hv, bigEndian_append, length_readBytes hy]
      rfl
    refine bind_ok.2 ⟨_, u, h₁, bind_ok.2 ⟨_, t, h₂, ?_⟩⟩
    rw [hlong]
    rfl

theorem write32_iff_writeBytes {v : UInt32} (hβ : Bus.Bytewise β) (ha : addr.toNat + 4 ≤ 2 ^ 32) :
    write32 addr v config s = .ok () t ↔
      ∃ bytes, bytes.length = 4 ∧ bigEndian bytes = v.toNat ∧ writeBytes addr bytes config s = .ok () t := by
  have e : (addr + 2).toNat = addr.toNat + 2 := Memory.toNat_add_of_lt (k := 2) (by omega)
  unfold write32
  rw [widening_ok]
  constructor
  · intro h
    obtain ⟨_, u, h₁, h₂⟩ := bind_ok.1 h
    obtain ⟨xs, hxs, ex, hx⟩ := (write16_iff_writeBytes hβ (by omega)).1 h₁
    obtain ⟨ys, hys, ey, hy⟩ := (write16_iff_writeBytes hβ (by omega)).1 h₂
    refine ⟨xs ++ ys, ?_, (bigEndian_append_eq_long hys).2 ⟨ex, ey⟩, writeBytes_append_ok.2 ⟨u, hx, ?_⟩⟩
    · rw [List.length_append, hxs, hys]
    · rw [hxs]
      exact hy
  · rintro ⟨bytes, hlen, hv, h⟩
    -- the bytes of the two words
    obtain ⟨xs, ys, rfl, hxs⟩ : ∃ xs ys, bytes = xs ++ ys ∧ xs.length = 2 :=
      ⟨bytes.take 2, bytes.drop 2, (List.take_append_drop 2 bytes).symm, by simp [hlen]⟩
    have hys : ys.length = 2 := by
      rw [List.length_append] at hlen
      omega
    obtain ⟨ex, ey⟩ := (bigEndian_append_eq_long hys).1 hv
    obtain ⟨u, hx, hy⟩ := writeBytes_append_ok.1 h
    rw [hxs] at hy
    have h₁ := (write16_iff_writeBytes hβ (by omega)).2 ⟨xs, hxs, ex, hx⟩
    have h₂ := (write16_iff_writeBytes hβ (show (addr + 2).toNat + 2 ≤ 2 ^ 32 by omega)).2 ⟨ys, hys, ey, hy⟩
    exact bind_ok.2 ⟨(), u, h₁, h₂⟩

/-! ### Accesses over devices -/

/-- The devices on the chip have no words of their own, and on a bus with such devices every wide access that starts in
the address space ends exactly as its bytes do, in the order of their addresses: with the same number, and in the same
system, whatever devices the bytes belong to and even where one of them is the status register. -/
theorem wide_accesses_by_bytes :
    Device.Bytewise Peripheral ∧
    ∀ {δ : Type} [Device δ], Device.Bytewise δ →
      ∀ (config : Config) (s t : System (DeviceBus δ)) (addr : UInt32), addr.toNat < Address.spaceSize →
        (∀ v : UInt16, read16 addr config s = .ok v t ↔
          ∃ bytes, readBytes addr 2 config s = .ok bytes t ∧ bigEndian bytes = v.toNat) ∧
        (∀ v : UInt32, read32 addr config s = .ok v t ↔
          ∃ bytes, readBytes addr 4 config s = .ok bytes t ∧ bigEndian bytes = v.toNat) ∧
        (∀ v : UInt16, write16 addr v config s = .ok () t ↔
          ∃ bytes, bytes.length = 2 ∧ bigEndian bytes = v.toNat ∧ writeBytes addr bytes config s = .ok () t) ∧
        (∀ v : UInt32, write32 addr v config s = .ok () t ↔
          ∃ bytes, bytes.length = 4 ∧ bigEndian bytes = v.toNat ∧ writeBytes addr bytes config s = .ok () t) := by
  refine ⟨ChipDevice.bytewise, fun {δ} _ hδ config s t addr haddr => ?_⟩
  have hβ := DeviceBus.bytewise hδ
  have h₂ : addr.toNat + 2 ≤ 2 ^ 32 := by
    unfold Address.spaceSize at haddr
    omega
  have h₄ : addr.toNat + 4 ≤ 2 ^ 32 := by
    unfold Address.spaceSize at haddr
    omega
  exact ⟨fun _ => read16_iff_readBytes hβ h₂, fun _ => read32_iff_readBytes hβ h₄,
    fun _ => write16_iff_writeBytes hβ h₂, fun _ => write32_iff_writeBytes hβ h₄⟩

/-- Two pending interrupts, and a device of one byte just below the status register. -/
def beforeStatus : System (DeviceBus Peripheral) where
  cpu := { pending := ⟨0x3000⟩ }
  bus :=
    { memory := { size := 0 }
      mappings := [⟨0xFFFFF5, 0xFFFFF6, 0⟩]
      devices := #[.enableRegister 7] }

/-- A word may be half a device and half the status register. -/
theorem wide_accesses_before_status :
    Device.Bytewise Peripheral ∧ (0xFFFFF5 : UInt32).toNat < Address.spaceSize ∧
      ∃ t, read16 0xFFFFF5 {} beforeStatus = .ok 0x0703 t := by
  obtain ⟨hδ, wide⟩ := wide_accesses_by_bytes
  have hm : beforeStatus.bus.mapping? 0xFFFFF5 = some ⟨0xFFFFF5, 0xFFFFF6, 0⟩ := by decide +kernel
  have hd := DeviceBus.read8_of_serving hm (show _ = some ⟨.enableRegister 7, false⟩ from rfl)
  have hi : Answers {} beforeStatus 0xFFFFF5 7 _ := hd
  obtain ⟨u, h₁, hu⟩ : ∃ u, read8 0xFFFFF5 {} beforeStatus = .ok 7 u ∧ u.cpu.pending = ⟨0x3000⟩ :=
    ⟨_, read8_ok.2 ⟨_, hi, rfl⟩, rfl⟩
  have lo : Answers {} u 0xFFFFF6 3 u.bus := ⟨by rw [hu]; decide, rfl⟩
  have h₂ := read8_ok.2 ⟨_, lo, rfl⟩
  have h := readBytes_succ_ok (n := 1).2 ⟨_, _, _, h₁, readBytes_succ_ok (n := 0).2 ⟨_, _, _, h₂, rfl, rfl⟩, rfl⟩
  exact ⟨hδ, by decide, _, ((wide hδ {} beforeStatus _ 0xFFFFF5 (by decide)).1 0x0703).2 ⟨_, h, by decide⟩⟩

end CpuM

end H8S
