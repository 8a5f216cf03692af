import H8S.Proofs.BusViews

/-!
# Values in a flat memory

On a plain memory a long is four bytes, the highest first.  `Memory.storeLong` and `Memory.longAt` say so byte by
byte, and are inverse to each other (`longAt_storeLong`); a long that is stored beside another leaves it alone
(`longAt_storeLong_of_apart`). The long accesses of the core are these two functions wherever they lie beside the
status register (`read32_memory`, `write32_memory`), pushes and pops move them to and from the stack, and reads leave
the memory as it is.  Bytes and words are stored and read in the same way (`readSized_memory`, `writeSized_memory`).  Code that lies in memory is carried out by its bytes (`carriesOut_of_code`).
-/

namespace H8S

namespace Memory

/-- The long at an address, the highest byte first. -/
def longAt (m : Memory) (addr : UInt32) : UInt32 :=
  (wordOf (m.get addr) (m.get (addr + 1))).toUInt32 <<< 16 ||| (wordOf (m.get (addr + 2)) (m.get (addr + 3))).toUInt32

/-- The memory with a long at an address, the highest byte first. -/
def storeLong (m : Memory) (addr value : UInt32) : Memory :=
  m.storeAll addr [(value >>> 24).toUInt8, (value >>> 16).toUInt8, (value >>> 8).toUInt8, value.toUInt8]

/-- Two longs share no byte. -/
def Apart (a b : UInt32) : Prop := a.toNat + 4 ≤ b.toNat ∨ b.toNat + 4 ≤ a.toNat

theorem wordOf_toNat (hi lo : UInt8) : (wordOf hi lo).toNat = hi.toNat * 256 + lo.toNat := by
  have hhi : hi.toNat < 256 := hi.toNat_lt
  have hlo : lo.toNat < 2 ^ 8 := lo.toNat_lt
  have hs : hi.toNat <<< 8 = hi.toNat * 256 := Nat.shiftLeft_eq _ 8
  have e : (wordOf hi lo).toNat = hi.toNat <<< 8 % 2 ^ 16 ||| lo.toNat := by
    unfold wordOf
    rw [UInt16.toNat_or, UInt16.toNat_shiftLeft, UInt8.toNat_toUInt16, UInt8.toNat_toUInt16]
    rfl
  rw [e, Nat.mod_eq_of_lt (by omega), ← Nat.shiftLeft_add_eq_or_of_lt hlo, hs]

theorem longOf_toNat (hi lo : UInt16) :
    (hi.toUInt32 <<< 16 ||| lo.toUInt32).toNat = hi.toNat * 65536 + lo.toNat := by
  have hhi : hi.toNat < 65536 := hi.toNat_lt
  have hlo : lo.toNat < 2 ^ 16 := lo.toNat_lt
  have hs : hi.toNat <<< 16 = hi.toNat * 65536 := Nat.shiftLeft_eq _ 16
  have e : (hi.toUInt32 <<< 16 ||| lo.toUInt32).toNat = hi.toNat <<< 16 % 2 ^ 32 ||| lo.toNat := by
    rw [UInt32.toNat_or, UInt32.toNat_shiftLeft, UInt16.toNat_toUInt32, UInt16.toNat_toUInt32]
    rfl
  -- the halves share no bit, so that their union is their sum
  rw [e, Nat.mod_eq_of_lt (by omega), ← Nat.shiftLeft_add_eq_or_of_lt hlo, hs]

theorem longAt_toNat (m : Memory) (addr : UInt32) :
    (m.longAt addr).toNat =
      (((m.get addr).toNat * 256 + (m.get (addr + 1)).toNat) * 256 + (m.get (addr + 2)).toNat) * 256 +
        (m.get (addr + 3)).toNat := by
  unfold longAt
  rw [longOf_toNat, wordOf_toNat, wordOf_toNat]
  omega

theorem get_storeLong (m : Memory) (addr value a : UInt32) :
    (m.storeLong addr value).get a =
      if addr + 3 = a then value.toUInt8
      else if addr + 2 = a then (value >>> 8).toUInt8
      else if addr + 1 = a then (value >>> 16).toUInt8
      else if addr = a then (value >>> 24).toUInt8 else m.get a := by
  have e₂ : addr + 1 + 1 = addr + 2 := by rw [UInt32.add_assoc]; rfl
  have e₃ : addr + 2 + 1 = addr + 3 := by rw [UInt32.add_assoc]; rfl
  simp only [storeLong, storeAll, get_store, e₂, e₃]

theorem longAt_storeLong (m : Memory) (addr value : UInt32) : (m.storeLong addr value).longAt addr = value := by
  have hv := value.toNat_lt
  apply UInt32.toNat_inj.1
  rw [longAt_toNat]
  simp [get_storeLong]
  omega

/-- The value of a width at an address, the highest byte first. -/
def sizedAt (m : Memory) (width : Width) (addr : UInt32) : UInt32 :=
  match width with
  | .byte => (m.get addr).toUInt32
  | .word => (wordOf (m.get addr) (m.get (addr + 1))).toUInt32
  | .long => m.longAt addr

/-- The memory with a value of a width at an address. -/
def storeSized (m : Memory) (width : Width) (addr value : UInt32) : Memory :=
  match width with
  | .byte => m.store addr value.toUInt8
  | .word => (m.store addr (highByte value.toUInt16)).store (addr + 1) value.toUInt16.toUInt8
  | .long => m.storeLong addr value

/-- As much of a value as has its place is there after it was stored. -/
theorem sizedAt_storeSized (m : Memory) (width : Width) (addr value : UInt32) :
    (m.storeSized width addr value).sizedAt width addr = value &&& width.mask := by
  apply UInt32.toNat_inj.1
  rw [UInt32.toNat_and]
  cases width with
  | byte =>
    simp only [sizedAt, storeSized, get_store, if_true, UInt8.toNat_toUInt32, UInt32.toNat_toUInt8]
    exact (Nat.and_two_pow_sub_one_eq_mod value.toNat 8).symm
  | word =>
    have hne : addr + 1 ≠ addr := fun h => by simp at h
    have hword : (wordOf (highByte value.toUInt16) value.toUInt16.toUInt8).toNat = value.toNat % 2 ^ 16 := by
      rw [wordOf_toNat]
      simp [highByte]
      omega
    simp only [sizedAt, storeSized, get_store, if_true, if_neg hne, UInt16.toNat_toUInt32, hword]
    exact (Nat.and_two_pow_sub_one_eq_mod value.toNat 16).symm
  | long =>
    rw [sizedAt, storeSized, longAt_storeLong]
    exact ((Nat.and_two_pow_sub_one_eq_mod value.toNat 32).trans (Nat.mod_eq_of_lt value.toNat_lt)).symm

theorem toNat_add_of_lt {a : UInt32} {k : Nat} (h : a.toNat + k < 2 ^ 32) :
    (a + k.toUInt32).toNat = a.toNat + k := by
  have hk : k.toUInt32.toNat = k := by simp; omega
  rw [UInt32.toNat_add, hk]
  exact Nat.mod_eq_of_lt h

theorem get_storeLong_of_outside {m : Memory} {addr a : UInt32} (value : UInt32) (ha : addr.toNat + 4 ≤ 2 ^ 32)
    (h : a.toNat < addr.toNat ∨ addr.toNat + 4 ≤ a.toNat) : (m.storeLong addr value).get a = m.get a := by
  have e₁ : (addr + 1).toNat = addr.toNat + 1 := toNat_add_of_lt (k := 1) (by omega)
  have e₂ : (addr + 2).toNat = addr.toNat + 2 := toNat_add_of_lt (k := 2) (by omega)
  have e₃ : (addr + 3).toNat = addr.toNat + 3 := toNat_add_of_lt (k := 3) (by omega)
  rw [get_storeLong, if_neg, if_neg, if_neg, if_neg]
  all_goals
    intro he
    have := congrArg UInt32.toNat he
    omega

theorem longAt_storeLong_of_apart {m : Memory} {addr a : UInt32} (value : UInt32) (haddr : addr.toNat + 4 ≤ 2 ^ 32)
    (ha : a.toNat + 4 ≤ 2 ^ 32) (h : Apart addr a) : (m.storeLong addr value).longAt a = m.longAt a := by
  have e₁ : (a + 1).toNat = a.toNat + 1 := toNat_add_of_lt (k := 1) (by omega)
  have e₂ : (a + 2).toNat = a.toNat + 2 := toNat_add_of_lt (k := 2) (by omega)
  have e₃ : (a + 3).toNat = a.toNat + 3 := toNat_add_of_lt (k := 3) (by omega)
  unfold Apart at h
  unfold longAt
  rw [get_storeLong_of_outside value haddr (by omega), get_storeLong_of_outside value haddr (by omega),
    get_storeLong_of_outside value haddr (by omega), get_storeLong_of_outside value haddr (by omega)]

private theorem get_storeAll_of_lt {m : Memory} {start a : UInt32} (bytes : List UInt8)
    (hfit : start.toNat + bytes.length ≤ 2 ^ 32) (h : a.toNat < start.toNat) :
    (m.storeAll start bytes).get a = m.get a := by
  induction bytes generalizing m start with
  | nil => rfl
  | cons b bs ih =>
    have hne : start ≠ a := fun e => by
      rw [e] at h
      omega
    simp only [List.length_cons] at hfit
    show ((m.store start b).storeAll (start + 1) bs).get a = _
    rcases Nat.eq_zero_or_pos bs.length with hnil | hlen
    · rw [List.length_eq_zero_iff.1 hnil]
      exact (get_store _ _ _ _).trans (if_neg hne)
    · have e : (start + 1).toNat = start.toNat + 1 := toNat_add_of_lt (k := 1) (by omega)
      rw [ih (by omega) (by omega), get_store, if_neg hne]

/-- What was stored is there. -/
theorem get_storeAll {m : Memory} {start : UInt32} (bytes : List UInt8) (hfit : start.toNat + bytes.length ≤ 2 ^ 32)
    (k : Nat) (hk : k < bytes.length) : (m.storeAll start bytes).get (start + k.toUInt32) = bytes[k] := by
  induction bytes generalizing m start k with
  | nil => cases hk
  | cons b bs ih =>
    simp only [List.length_cons] at hfit hk
    show ((m.store start b).storeAll (start + 1) bs).get _ = _
    cases k with
    | zero =>
      have e₀ : start + (0 : Nat).toUInt32 = start := UInt32.add_zero start
      rw [e₀]
      rcases Nat.eq_zero_or_pos bs.length with hnil | hlen
      · obtain rfl := List.length_eq_zero_iff.1 hnil
        exact (get_store _ _ _ _).trans (if_pos rfl)
      · have e : (start + 1).toNat = start.toNat + 1 := toNat_add_of_lt (k := 1) (by omega)
        rw [get_storeAll_of_lt bs (by omega) (by omega), get_store, if_pos rfl]
        rfl
    | succ k =>
      have e : (start + 1).toNat = start.toNat + 1 := toNat_add_of_lt (k := 1) (by omega)
      have ek : start + (k + 1).toUInt32 = start + 1 + k.toUInt32 := by
        have h : (k + 1).toUInt32 = 1 + k.toUInt32 := by
          apply UInt32.toNat_inj.1
          simp
          omega
        rw [h, UInt32.add_assoc]
      rw [ek]
      exact ih (by omega) k (by omega)

@[simp] theorem size_storeAll (m : Memory) (start : UInt32) (bytes : List UInt8) :
    (m.storeAll start bytes).size = m.size := by
  induction bytes generalizing m start with
  | nil => rfl
  | cons b bs ih => exact ih _ _

@[simp] theorem size_storeSized (m : Memory) (width : Width) (addr value : UInt32) :
    (m.storeSized width addr value).size = m.size := by
  cases width <;> rfl

@[simp] theorem size_storeLong (m : Memory) (addr value : UInt32) : (m.storeLong addr value).size = m.size := rfl

/-! ### Accesses -/

theorem busRead_ok {m m' : Memory} {addr : UInt32} {b : UInt8} :
    busRead addr m = .ok b m' ↔ addr.toNat < m.size ∧ b = m.get addr ∧ m' = m := by
  unfold busRead read? contains
  by_cases h : addr.toNat < m.size
  · simp [h, eq_comm]
  · simp [h]

theorem busWrite_ok {m m' : Memory} {addr : UInt32} {value : UInt8} :
    busWrite addr value m = .ok () m' ↔ addr.toNat < m.size ∧ m' = m.store addr value := by
  unfold busWrite contains
  by_cases h : addr.toNat < m.size
  · simp [h, eq_comm]
  · simp [h]

theorem addressAfter_eq {addr : UInt32} (h : addr.toNat + 2 ≤ 2 ^ 32) : addressAfter addr = addr + 1 := by
  refine if_neg fun he => ?_
  rw [he] at h
  exact absurd h (by decide)

private theorem busRead16_ok {m m' : Memory} {addr : UInt32} {v : UInt16} (ha : addr.toNat + 2 ≤ 2 ^ 32) :
    (Bus.read16 addr : BusM Memory UInt16) m = .ok v m' ↔
      addr.toNat + 2 ≤ m.size ∧ v = wordOf (m.get addr) (m.get (addr + 1)) ∧ m' = m := by
  have e : (addr + 1).toNat = addr.toNat + 1 := toNat_add_of_lt (k := 1) (by omega)
  change (busRead addr >>= fun hi => busRead (addressAfter addr) >>= fun lo => pure (wordOf hi lo)) m = .ok v m' ↔ _
  rw [addressAfter_eq ha]
  constructor
  · intro h
    obtain ⟨hi, m₁, h₁, h⟩ := BusM.bind_ok.1 h
    obtain ⟨lo, m₂, h₂, h⟩ := BusM.bind_ok.1 h
    obtain ⟨-, rfl, rfl⟩ := busRead_ok.1 h₁
    obtain ⟨hlt, rfl, rfl⟩ := busRead_ok.1 h₂
    cases h
    exact ⟨by omega, rfl, rfl⟩
  · rintro ⟨hs, rfl, rfl⟩
    have h₁ := busRead_ok.2 ⟨show addr.toNat < m'.size by omega, rfl, rfl⟩
    have h₂ := busRead_ok.2 ⟨show (addr + 1).toNat < m'.size by omega, rfl, rfl⟩
    exact BusM.bind_ok.2 ⟨_, _, h₁, BusM.bind_ok.2 ⟨_, _, h₂, rfl⟩⟩

private theorem busWrite16_ok {m m' : Memory} {addr : UInt32} {v : UInt16} (ha : addr.toNat + 2 ≤ 2 ^ 32) :
    (Bus.write16 addr v : BusM Memory Unit) m = .ok () m' ↔
      addr.toNat + 2 ≤ m.size ∧ m' = (m.store addr (highByte v)).store (addr + 1) v.toUInt8 := by
  have e : (addr + 1).toNat = addr.toNat + 1 := toNat_add_of_lt (k := 1) (by omega)
  change (busWrite addr (highByte v) >>= fun _ => busWrite (addressAfter addr) v.toUInt8) m = .ok () m' ↔ _
  rw [addressAfter_eq ha]
  constructor
  · intro h
    obtain ⟨_, m₁, h₁, h₂⟩ := BusM.bind_ok.1 h
    obtain ⟨-, rfl⟩ := busWrite_ok.1 h₁
    obtain ⟨hlt, rfl⟩ := busWrite_ok.1 h₂
    have hs : (m.store addr (highByte v)).size = m.size := rfl
    exact ⟨by omega, rfl⟩
  · rintro ⟨hs, rfl⟩
    refine BusM.bind_ok.2 ⟨(), m.store addr (highByte v), busWrite_ok.2 ⟨by omega, rfl⟩, busWrite_ok.2 ⟨?_, rfl⟩⟩
    show (addr + 1).toNat < m.size
    omega

end Memory

/-- The core after the four bytes of a long were charged. -/
def Cpu.chargedLong (c : Cpu) (direction : Direction) (addr : UInt32) : Cpu :=
  (((c.charged direction addr).charged direction (addr + 1)).charged direction (addr + 2)).charged direction
    (addr + 3)

/-- The core after the bytes of an access of a width were charged. -/
def Cpu.chargedSized (c : Cpu) (direction : Direction) (width : Width) (addr : UInt32) : Cpu :=
  match width with
  | .byte => c.charged direction addr
  | .word => (c.charged direction addr).charged direction (addr + 1)
  | .long => c.chargedLong direction addr

@[simp] theorem Cpu.chargedSized_regs (c : Cpu) (direction : Direction) (width : Width) (addr : UInt32) :
    (c.chargedSized direction width addr).regs = c.regs := by
  cases width <;> rfl

namespace CpuM

variable {config : Config} {s t : System Memory} {addr : UInt32}

private theorem not_covers {a len len' : UInt32} (hc : coversStatus config addr len = false)
    (hlo : addr.toNat ≤ a.toNat) (hhi : a.toNat + len'.toNat ≤ addr.toNat + len.toNat) :
    coversStatus config a len' = false := by
  cases h : coversStatus config a len' with
  | false => rfl
  | true =>
    obtain ⟨isr, hi, h₁, h₂⟩ := coversStatus_iff.1 h
    rw [coversStatus_iff.2 ⟨isr, hi, by omega, by omega⟩] at hc
    cases hc

theorem read16_memory {v : UInt16} (hc : coversStatus config addr 2 = false) (ha : addr.toNat + 2 ≤ 2 ^ 32) :
    read16 addr config s = .ok v t ↔ addr.toNat + 2 ≤ s.bus.size ∧ v = wordOf (s.bus.get addr) (s.bus.get (addr + 1)) ∧
      t = { s with cpu := (s.cpu.charged .read addr).charged .read (addr + 1) } := by
  unfold read16 load16
  rw [bind_of_ok (run_charge .read addr), bind_of_ok (run_charge .read (addr + 1)), bind_of_ok run_read]
  simp only [hc, Bool.false_eq_true, if_false, widening_ok, onBus_ok, Memory.busRead16_ok ha]
  constructor
  · rintro ⟨_, ⟨hs, rfl, rfl⟩, rfl⟩
    exact ⟨hs, rfl, rfl⟩
  · rintro ⟨hs, rfl, rfl⟩
    exact ⟨_, ⟨hs, rfl, rfl⟩, rfl⟩

theorem write16_memory {value : UInt16} (hc : coversStatus config addr 2 = false) (ha : addr.toNat + 2 ≤ 2 ^ 32) :
    write16 addr value config s = .ok () t ↔ addr.toNat + 2 ≤ s.bus.size ∧
      t = { s with
        cpu := (s.cpu.charged .write addr).charged .write (addr + 1)
        bus := (s.bus.store addr (highByte value)).store (addr + 1) value.toUInt8 } := by
  unfold write16 store16
  rw [bind_of_ok (run_charge .write addr), bind_of_ok (run_charge .write (addr + 1)), widening_ok, bind_of_ok run_read]
  simp only [hc, Bool.false_eq_true, if_false, onBus_ok, Memory.busWrite16_ok ha]
  constructor
  · rintro ⟨_, ⟨hs, rfl⟩, rfl⟩
    exact ⟨hs, rfl⟩
  · rintro ⟨hs, rfl⟩
    exact ⟨_, ⟨hs, rfl⟩, rfl⟩

theorem halves (hc : coversStatus config addr 4 = false) (ha : addr.toNat + 4 ≤ 2 ^ 32) :
    coversStatus config addr 2 = false ∧ coversStatus config (addr + 2) 2 = false ∧
      (addr + 2).toNat = addr.toNat + 2 ∧ addr + 2 + 1 = addr + 3 := by
  have e₂ : (addr + 2).toNat = addr.toNat + 2 := Memory.toNat_add_of_lt (k := 2) (by omega)
  have hl₂ : (2 : UInt32).toNat = 2 := rfl
  have hl₄ : (4 : UInt32).toNat = 4 := rfl
  exact ⟨not_covers hc (by omega) (by omega), not_covers hc (by omega) (by omega), e₂, UInt32.add_assoc addr 2 1⟩

/-- A long beside the status register is read as it lies in memory. -/
theorem read32_memory {v : UInt32} (hc : coversStatus config addr 4 = false) (ha : addr.toNat + 4 ≤ 2 ^ 32) :
    read32 addr config s = .ok v t ↔ addr.toNat + 4 ≤ s.bus.size ∧ v = s.bus.longAt addr ∧
      t = { s with cpu := s.cpu.chargedLong .read addr } := by
  obtain ⟨c₁, c₂, e₂, e₃⟩ := halves hc ha
  unfold read32
  rw [widening_ok, bind_ok]
  constructor
  · rintro ⟨hi, u, h₁, h⟩
    obtain ⟨lo, w, h₂, h⟩ := bind_ok.1 h
    cases h
    obtain ⟨-, rfl, rfl⟩ := (read16_memory c₁ (by omega)).1 h₁
    obtain ⟨hs, rfl, rfl⟩ := (read16_memory c₂ (by omega)).1 h₂
    rw [e₂] at hs
    rw [e₃]
    exact ⟨hs, rfl, rfl⟩
  · rintro ⟨hs, rfl, rfl⟩
    refine ⟨_, _, (read16_memory c₁ (by omega)).2 ⟨by omega, rfl, rfl⟩, ?_⟩
    refine bind_ok.2 ⟨_, _, (read16_memory c₂ (by omega)).2 ⟨?_, rfl, rfl⟩, ?_⟩
    · rw [e₂]
      exact hs
    · rw [e₃]
      exact run_pure _

private theorem storeLong_eq (m : Memory) (value : UInt32) :
    (((m.store addr (highByte (value >>> 16).toUInt16)).store (addr + 1) (value >>> 16).toUInt16.toUInt8).store (addr + 2)
      (highByte value.toUInt16)).store (addr + 2 + 1) value.toUInt16.toUInt8 = m.storeLong addr value := by
  have hv := value.toNat_lt
  have b₀ : highByte (value >>> 16).toUInt16 = (value >>> 24).toUInt8 := by
    apply UInt8.toNat_inj.1
    simp [highByte]
    omega
  have b₁ : (value >>> 16).toUInt16.toUInt8 = (value >>> 16).toUInt8 := by simp
  have b₂ : highByte value.toUInt16 = (value >>> 8).toUInt8 := by
    apply UInt8.toNat_inj.1
    simp [highByte]
    omega
  have b₃ : value.toUInt16.toUInt8 = value.toUInt8 := by simp
  have e : addr + 1 + 1 = addr + 2 := UInt32.add_assoc addr 1 1
  rw [b₀, b₁, b₂, b₃]
  simp only [Memory.storeLong, Memory.storeAll, e]

/-- A long beside the status register is written as four bytes, and nothing else is. -/
theorem write32_memory {value : UInt32} (hc : coversStatus config addr 4 = false) (ha : addr.toNat + 4 ≤ 2 ^ 32) :
    write32 addr value config s = .ok () t ↔ addr.toNat + 4 ≤ s.bus.size ∧
      t = { s with cpu := s.cpu.chargedLong .write addr, bus := s.bus.storeLong addr value } := by
  obtain ⟨c₁, c₂, e₂, e₃⟩ := halves hc ha
  have hsize : ∀ a b, (s.bus.store a b).size = s.bus.size := fun _ _ => rfl
  unfold write32
  rw [widening_ok, bind_ok]
  constructor
  · rintro ⟨_, u, h₁, h₂⟩
    obtain ⟨-, rfl⟩ := (write16_memory c₁ (by omega)).1 h₁
    obtain ⟨hs, rfl⟩ := (write16_memory c₂ (by omega)).1 h₂
    refine ⟨?_, ?_⟩
    · rw [e₂] at hs
      exact hs
    · rw [← storeLong_eq, e₃]
      rfl
  · rintro ⟨hs, rfl⟩
    refine ⟨_, _, (write16_memory c₁ (by omega)).2 ⟨by omega, rfl⟩, (write16_memory c₂ (by omega)).2 ⟨?_, ?_⟩⟩
    · rw [e₂]
      exact hs
    · rw [← storeLong_eq, e₃]
      rfl

/-! ### Accesses of every width -/

theorem not_status (hc : coversStatus config addr 1 = false) : config.isrAddress ≠ some addr := fun hisr => by
  rw [coversStatus_iff.2 ⟨addr, hisr, Nat.le_refl _, Nat.lt_succ_self _⟩] at hc
  cases hc

theorem read8_memory {v : UInt8} (hc : coversStatus config addr 1 = false) :
    read8 addr config s = .ok v t ↔ addr.toNat + 1 ≤ s.bus.size ∧ v = s.bus.get addr ∧
      t = { s with cpu := s.cpu.charged .read addr } := by
  unfold read8 load8
  rw [bind_of_ok (run_charge .read addr), bind_of_ok run_read, if_neg (not_status hc), onBus_ok]
  constructor
  · rintro ⟨_, h, rfl⟩
    obtain ⟨hs, rfl, rfl⟩ := Memory.busRead_ok.1 h
    exact ⟨hs, rfl, rfl⟩
  · rintro ⟨hs, rfl, rfl⟩
    exact ⟨_, Memory.busRead_ok.2 ⟨hs, rfl, rfl⟩, rfl⟩

theorem write8_memory {value : UInt8} (hc : coversStatus config addr 1 = false) :
    write8 addr value config s = .ok () t ↔ addr.toNat + 1 ≤ s.bus.size ∧
      t = { s with cpu := s.cpu.charged .write addr, bus := s.bus.store addr value } := by
  unfold write8 store8
  rw [bind_of_ok (run_charge .write addr), bind_of_ok run_read, if_neg (not_status hc), onBus_ok]
  constructor
  · rintro ⟨_, h, rfl⟩
    obtain ⟨hs, rfl⟩ := Memory.busWrite_ok.1 h
    exact ⟨hs, rfl⟩
  · rintro ⟨hs, rfl⟩
    exact ⟨_, Memory.busWrite_ok.2 ⟨hs, rfl⟩, rfl⟩

/-- A value beside the status register is read as it lies in memory. -/
theorem readSized_memory {width : Width} {v : UInt32} (hc : coversStatus config addr width.bytes = false)
    (ha : addr.toNat + 4 ≤ 2 ^ 32) :
    readSized width addr config s = .ok v t ↔ addr.toNat + width.bytes.toNat ≤ s.bus.size ∧ v = s.bus.sizedAt width addr ∧
      t = { s with cpu := s.cpu.chargedSized .read width addr } := by
  cases width with
  | byte =>
    unfold readSized
    rw [bind_ok]
    constructor
    · rintro ⟨b, u, h, h'⟩
      cases h'
      obtain ⟨hs, rfl, rfl⟩ := (read8_memory hc).1 h
      exact ⟨hs, rfl, rfl⟩
    · rintro ⟨hs, rfl, rfl⟩
      exact ⟨_, _, (read8_memory hc).2 ⟨hs, rfl, rfl⟩, rfl⟩
  | word =>
    unfold readSized
    rw [bind_ok]
    constructor
    · rintro ⟨b, u, h, h'⟩
      cases h'
      obtain ⟨hs, rfl, rfl⟩ := (read16_memory hc (by omega)).1 h
      exact ⟨hs, rfl, rfl⟩
    · rintro ⟨hs, rfl, rfl⟩
      exact ⟨_, _, (read16_memory hc (by omega)).2 ⟨hs, rfl, rfl⟩, rfl⟩
  | long => exact read32_memory hc ha

/-- A value beside the status register is written as its bytes, and nothing else is. -/
theorem writeSized_memory {width : Width} {value : UInt32} (hc : coversStatus config addr width.bytes = false)
    (ha : addr.toNat + 4 ≤ 2 ^ 32) :
    writeSized width addr value config s = .ok () t ↔ addr.toNat + width.bytes.toNat ≤ s.bus.size ∧
      t = { s with cpu := s.cpu.chargedSized .write width addr, bus := s.bus.storeSized width addr value } := by
  cases width with
  | byte => exact write8_memory hc
  | word => exact write16_memory hc (by omega)
  | long => exact write32_memory hc ha

/-! ### The stack -/

theorem push32_memory {value : UInt32} (hc : coversStatus config (Address.trunc (s.cpu.regs.sp - 4)) 4 = false) :
    push32 value config s = .ok () t ↔ (Address.trunc (s.cpu.regs.sp - 4)).toNat + 4 ≤ s.bus.size ∧
      t = { s with
        cpu := { s.cpu with regs := s.cpu.regs.setSp (s.cpu.regs.sp - 4) }.chargedLong .write
          (Address.trunc (s.cpu.regs.sp - 4))
        bus := s.bus.storeLong (Address.trunc (s.cpu.regs.sp - 4)) value } := by
  have ha := Address.trunc_lt (s.cpu.regs.sp - 4)
  unfold push32
  rw [bind_of_ok run_getRegs, bind_of_ok (run_modifyRegs _)]
  exact write32_memory hc (by unfold Address.spaceSize at ha; omega)

theorem pop32_memory {v : UInt32} (hc : coversStatus config (Address.trunc s.cpu.regs.sp) 4 = false) :
    pop32 config s = .ok v t ↔ (Address.trunc s.cpu.regs.sp).toNat + 4 ≤ s.bus.size ∧
      v = s.bus.longAt (Address.trunc s.cpu.regs.sp) ∧
      t = { s with
        cpu := { s.cpu.chargedLong .read (Address.trunc s.cpu.regs.sp) with
          regs := s.cpu.regs.setSp (s.cpu.regs.sp + 4) } } := by
  have ha := Address.trunc_lt s.cpu.regs.sp
  have hr := fun {v t} => read32_memory (s := s) (t := t) (v := v) hc (by unfold Address.spaceSize at ha; omega)
  unfold pop32
  rw [bind_of_ok run_getRegs, bind_ok]
  constructor
  · rintro ⟨v', u, h, k⟩
    obtain ⟨hs, rfl, rfl⟩ := hr.1 h
    cases k
    exact ⟨hs, rfl, rfl⟩
  · rintro ⟨hs, rfl, rfl⟩
    exact ⟨_, _, hr.2 ⟨hs, rfl, rfl⟩, rfl⟩

/-! ### Reads -/

private theorem busRead_keeps (addr : UInt32) : BusM.Keeps id (Memory.busRead addr) where
  ok h := (Memory.busRead_ok.1 h).2.2
  error h := by
    unfold Memory.busRead at h
    split at h
    · cases h
    · cases h
      rfl

theorem keptByReads_memory : Bus.KeptByReads (id : Memory → Memory) where
  read8 := busRead_keeps
  read16 addr := (busRead_keeps addr).bind fun _ => (busRead_keeps _).bind fun _ => .pure _

theorem read8_keeps_memory (addr : UInt32) : Keeps System.bus (read8 addr : CpuM Memory UInt8) :=
  read8_keepsBus keptByReads_memory addr

theorem read32_keeps_memory (addr : UInt32) : Keeps System.bus (read32 addr : CpuM Memory UInt32) :=
  read32_keepsBus keptByReads_memory addr

theorem Fetches.memory {start : UInt32} {bytes : List UInt8} (h : Fetches config s start bytes t) : t.bus = s.bus :=
  h.busView keptByReads_memory

/-! ### Code -/

/-- The bytes lie in memory from `start` on, beside the status register. -/
def Code (config : Config) (m : Memory) (start : UInt32) (bytes : List UInt8) : Prop :=
  ∀ k (h : k < bytes.length), (start + k.toUInt32).toNat < m.size ∧ m.get (start + k.toUInt32) = bytes[k] ∧
    config.isrAddress ≠ some (start + k.toUInt32)

/-- Code that was stored lies in memory. -/
theorem code_storeAll {m : Memory} {start : UInt32} {bytes : List UInt8} (hfit : start.toNat + bytes.length ≤ 2 ^ 32)
    (hin : start.toNat + bytes.length ≤ m.size) (hisr : ∀ isr, config.isrAddress = some isr →
      isr.toNat < start.toNat ∨ start.toNat + bytes.length ≤ isr.toNat) :
    Code config (m.storeAll start bytes) start bytes := by
  intro k hk
  have e : (start + k.toUInt32).toNat = start.toNat + k := Memory.toNat_add_of_lt (by omega)
  refine ⟨?_, Memory.get_storeAll bytes hfit k hk, ?_⟩
  · rw [Memory.size_storeAll]
    omega
  · intro h
    have := hisr _ h
    omega

theorem Code.part {m : Memory} {start a : UInt32} {all bytes : List UInt8} (h : Code config m start all)
    (pre post : List UInt8) (hall : all = pre ++ bytes ++ post) (ha : a = start + pre.length.toUInt32) :
    Code config m a bytes := by
  subst hall ha
  intro k hk
  have hk' : pre.length + k < (pre ++ bytes ++ post).length := by
    simp only [List.length_append]
    omega
  have e : start + (pre.length + k).toUInt32 = start + pre.length.toUInt32 + k.toUInt32 := by
    rw [UInt32.add_assoc]
    congr 1
    apply UInt32.toNat_inj.1
    simp
  obtain ⟨hin, hget, hisr⟩ := h (pre.length + k) hk'
  rw [e] at hin hget hisr
  refine ⟨hin, hget.trans ?_, hisr⟩
  rw [List.getElem_append_left (by simp; omega), List.getElem_append_right (by omega)]
  simp

/-- A long beside the code leaves it alone. -/
theorem Code.storeLong {m : Memory} {start : UInt32} {bytes : List UInt8} (h : Code config m start bytes)
    (addr value : UInt32) (hfit : start.toNat + bytes.length ≤ 2 ^ 32) (haddr : addr.toNat + 4 ≤ 2 ^ 32)
    (hbeside : start.toNat + bytes.length ≤ addr.toNat ∨ addr.toNat + 4 ≤ start.toNat) :
    Code config (m.storeLong addr value) start bytes := by
  intro k hk
  obtain ⟨hin, hget, hisr⟩ := h k hk
  have e : (start + k.toUInt32).toNat = start.toNat + k := Memory.toNat_add_of_lt (by omega)
  exact ⟨hin, (Memory.get_storeLong_of_outside value haddr (by omega)).trans hget, hisr⟩

/-- Code in memory can be fetched. -/
theorem fetches_of_code {start : UInt32} {bytes : List UInt8} (h : Code config s.bus start bytes) :
    ∃ t, Fetches config s start bytes t := by
  have prefixes : ∀ n, n ≤ bytes.length → ∃ t, Fetches config s start (bytes.take n) t := by
    intro n hn
    induction n with
    | zero => exact ⟨s, .nil⟩
    | succ n ih =>
      obtain ⟨t, hf⟩ := ih (by omega)
      obtain ⟨hlt, hget, hisr⟩ := h n hn
      have hlen : (bytes.take n).length = n := by simp; omega
      have ha : Answers config t (start + (bytes.take n).length.toUInt32) bytes[n] s.bus := by
        unfold Answers
        rw [hlen, if_neg hisr, hf.memory]
        exact Memory.busRead_ok.2 ⟨hlt, hget.symm, rfl⟩
      rw [List.take_succ_eq_append_getElem hn]
      exact ⟨_, .snoc _ _ hf ha⟩
  have h := prefixes bytes.length (Nat.le_refl _)
  rw [List.take_length] at h
  exact h

/-- What there is of a system besides its clock and its trace. -/
def still (s : System Memory) : Registers × InterruptSet × Bool × Int × Memory :=
  (s.cpu.regs, s.cpu.pending, s.cpu.sleeping, s.cpu.depth, s.bus)

theorem dueInterrupt?_of_still {r : Registers} {d : Int} {m : Memory} (h : still s = (r, {}, false, d, m)) :
    s.cpu.dueInterrupt? = none := by
  have hp : s.cpu.pending = {} := congrArg (fun v => v.2.1) h
  unfold Cpu.dueInterrupt?
  rw [hp]
  split <;> rfl

/-- Code in memory is carried out, if its operation ends. -/
theorem carriesOut_of_code {op : Operation} {bytes : List UInt8} {r : Registers} {p : InterruptSet} {d : Int} {m : Memory}
    (state : Registers × InterruptSet × Bool × Int × Memory) (hs : still s = (r, p, false, d, m))
    (hq : s.cpu.dueInterrupt? = none) (hcode : Code config m (Address.even r.pc) bytes)
    (hop : (Decoding.operation (Address.even r.pc)).feed bytes = some (.done op))
    (hp : ∀ b : System Memory,
      still b = ({ r with pc := Instruction.nextPc ⟨Address.even r.pc, op, bytes⟩ }, p, false, d, m) →
        ∃ v, perform op config b = .ok () v ∧ still v = state) :
    ∃ t, CarriesOut config ⟨Address.even r.pc, op, bytes⟩ s t ∧ still t = state := by
  unfold still at hs
  simp only [Prod.mk.injEq] at hs
  obtain ⟨rfl, rfl, ha, rfl, rfl⟩ := hs
  obtain ⟨f, hf⟩ := fetches_of_code hcode
  have hd := decode_of_fetches hf hop
  obtain ⟨v, hv, hstate⟩ := hp (f.begun config ⟨Address.even s.cpu.regs.pc, op, bytes⟩) (by
    unfold still
    rw [System.begun_bus, System.begun_cpu, hf.memory, hf.cpu, ha])
  exact ⟨_, carriesOut_iff.2 ⟨ha, hq, f, v, hd, hv, rfl⟩, hstate⟩

/-- Code in memory that changes registers alone is carried out, and leaves them so. -/
theorem carriesOut_registers_of_code {a : UInt32} {op : Operation} {bytes : List UInt8} {r : Registers} {d : Int}
    {m : Memory} (g : Registers → Registers) (hs : still s = (r, {}, false, d, m)) (ha : Address.even r.pc = a)
    (hcode : Code config m a bytes) (hop : (Decoding.operation a).feed bytes = some (.done op))
    (hp : ∀ b : System Memory, perform op config b = .ok () { b with cpu := { b.cpu with regs := g b.cpu.regs } }) :
    ∃ t, CarriesOut config ⟨a, op, bytes⟩ s t ∧
      still t = (g { r with pc := Instruction.nextPc ⟨a, op, bytes⟩ }, {}, false, d, m) := by
  subst ha
  refine carriesOut_of_code _ hs (dueInterrupt?_of_still hs) hcode hop fun b hb => ⟨_, hp b, ?_⟩
  unfold still at hb
  simp only [Prod.mk.injEq] at hb
  obtain ⟨hr, hpending, hawake, hdepth, hm⟩ := hb
  show (g b.cpu.regs, b.cpu.pending, b.cpu.sleeping, b.cpu.depth, b.bus) = _
  rw [hr, hpending, hawake, hdepth, hm]

end CpuM

end H8S
