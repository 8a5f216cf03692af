import H8S.Machine
import H8S.Proofs.FlatMemory

/-!
# Ranges on a bus with devices

The host fixes the size of the memory and the ranges of the devices; accesses and ticks change neither (`kept_layout`,
`tick_keepsLayout`).  An access stores a byte or goes to the device of one range, so a property that both leave alone is an
invariant of all accesses (`Steady`); a tick runs the programs of the devices one by one, so what these keep is an invariant
of ticks (`tick_preserves`).

The host can map no range beyond the address space, so if the memory ends with it too, the bus is `Inside` it for good, and
no read answers from above (`Inside.not_answered`).
-/

namespace H8S

namespace DeviceBus

variable {δ : Type} {bus bus' : DeviceBus δ}

/-- What the host has laid out. -/
def layout (bus : DeviceBus δ) : Nat × List Mapping := (bus.memory.size, bus.mappings)

/-- The memory and the ranges of the devices end with the address space at the latest. -/
structure Inside (bus : DeviceBus δ) : Prop where
  memory : bus.memory.size ≤ Address.spaceSize
  mappings : ∀ m ∈ bus.mappings, m.stop.toNat ≤ Address.spaceSize

theorem Inside.of_layout (h : bus.Inside) (hl : bus'.layout = bus.layout) : bus'.Inside := by
  simp only [layout, Prod.mk.injEq] at hl
  obtain ⟨hsize, hmappings⟩ := hl
  refine ⟨?_, ?_⟩
  · rw [hsize]
    exact h.memory
  · rw [hmappings]
    exact h.mappings

/-! ### The host -/

private theorem freeRange_ok {base len stop : UInt32} (h : bus.freeRange base len = .ok stop) :
    stop.toNat ≤ Address.spaceSize := by
  unfold freeRange at h
  split at h
  · cases h
  · split at h
    · cases h
    · next hfit =>
      split at h
      · cases h
      · cases h
        rw [UInt32.toNat_add]
        unfold Address.spaceSize at *
        omega

theorem Inside.attach (h : bus.Inside) (d : δ) : (bus.attach d).2.Inside := ⟨h.memory, h.mappings⟩

/-- The host maps ranges only inside the address space. -/
theorem Inside.map (h : bus.Inside) {base len : UInt32} {number : Nat} (hm : bus.map base len number = .ok bus') :
    bus'.Inside := by
  unfold DeviceBus.map at hm
  cases hf : bus.freeRange base len with
  | error e =>
    rw [hf] at hm
    cases hm
  | ok stop =>
    rw [hf] at hm
    cases hm
    refine ⟨h.memory, fun m hm => ?_⟩
    rcases (List.mem_insertIdx partitionPoint_le).1 hm with rfl | hm
    · exact freeRange_ok hf
    · exact h.mappings m hm

/-! ### Invariants of accesses and ticks -/

variable [Device δ]

/-- A property of a bus is kept when a byte is stored, and when the device that serves a range is accessed. -/
structure Steady (I : DeviceBus δ → Prop) : Prop where
  store : ∀ {bus : DeviceBus δ} addr b, I bus → I { bus with memory := bus.memory.store addr b }
  read8 : ∀ {bus : DeviceBus δ} {m d} addr, bus.serving? m = some d → I bus →
    I (bus.served m.device (Device.read8 d addr).2)
  write8 : ∀ {bus : DeviceBus δ} {m d} addr value, bus.serving? m = some d → I bus →
    I (bus.served m.device (Device.write8 d addr value))
  read16 : ∀ {bus : DeviceBus δ} {m d} addr, bus.serving? m = some d → I bus →
    I (bus.served m.device (Device.read16 d addr).2)
  write16 : ∀ {bus : DeviceBus δ} {m d} addr value, bus.serving? m = some d → I bus →
    I (bus.served m.device (Device.write16 d addr value))

namespace Steady

variable {I : DeviceBus δ → Prop} (hI : Steady I)
include hI

theorem byteRead (addr : UInt32) : BusM.Preserves I (DeviceBus.read8 addr) := by
  refine .of_outcome fun bus h => ?_
  unfold DeviceBus.read8
  split
  · split
    · exact h
    · exact h
  · split
    · exact h
    · next hs => exact hI.read8 addr hs h

theorem byteWrite (addr : UInt32) (value : UInt8) : BusM.Preserves I (DeviceBus.write8 addr value) := by
  refine .of_outcome fun bus h => ?_
  unfold DeviceBus.write8
  split
  · split
    · exact hI.store addr value h
    · exact h
  · split
    · exact h
    · next hs => exact hI.write8 addr value hs h

theorem wordRead (addr : UInt32) : BusM.Preserves I (DeviceBus.read16 addr) := by
  refine .of_outcome fun bus h => ?_
  unfold DeviceBus.read16
  split
  · split
    · exact h
    · next hs => exact hI.read16 addr hs h
  · have bytes := (hI.byteRead addr).bind fun hi => (hI.byteRead (addressAfter addr)).bind fun lo => .pure (wordOf hi lo)
    exact bytes.outcome h

theorem wordWrite (addr : UInt32) (value : UInt16) : BusM.Preserves I (DeviceBus.write16 addr value) := by
  refine .of_outcome fun bus h => ?_
  unfold DeviceBus.write16
  split
  · split
    · exact h
    · next hs => exact hI.write16 addr value hs h
  · have bytes := (hI.byteWrite addr (highByte value)).bind fun _ => hI.byteWrite (addressAfter addr) value.toUInt8
    exact bytes.outcome h

end Steady

section Ticks

variable {I : DeviceBus δ → Prop} {now : UInt64}
  (hI : ∀ {bus : DeviceBus δ} {m : Mapping} {d : δ}, I bus → bus.device? m.device = some d →
    I (outcome (perform m (Device.tick d now) {} { bus with busy := some m.base })))
include hI

private theorem tickMapping_preserves (m : Mapping) : BusM.Preserves I (tickMapping now m) := by
  refine .of_outcome fun bus h => ?_
  unfold tickMapping
  split
  · exact h
  · next hd => exact hI h hd

private theorem tickMappings_preserves (ms : List Mapping) (raised : InterruptSet) :
    BusM.Preserves I (tickMappings now ms raised) := by
  induction ms generalizing raised with
  | nil => exact .pure raised
  | cons m ms ih => exact (tickMapping_preserves hI m).bind fun _ => ih _

/-- What the programs of all devices keep, a tick keeps. -/
theorem tick_preserves : BusM.Preserves I (tick now) :=
  .of_outcome fun bus h => (tickMappings_preserves hI bus.mappings {}).outcome h

end Ticks

/-! ### The layout -/

private theorem steady_layout (shown : Nat × List Mapping) : Steady fun bus : DeviceBus δ => bus.layout = shown where
  store _ _ h := h
  read8 _ _ h := h
  write8 _ _ _ h := h
  read16 _ _ h := h
  write16 _ _ _ h := h

theorem kept_layout : Bus.Kept (layout : DeviceBus δ → Nat × List Mapping) where
  read8 addr := .of_preserves fun shown => (steady_layout shown).byteRead addr
  read16 addr := .of_preserves fun shown => (steady_layout shown).wordRead addr
  write8 addr value := .of_preserves fun shown => (steady_layout shown).byteWrite addr value
  write16 addr value := .of_preserves fun shown => (steady_layout shown).wordWrite addr value

private theorem layout_perform (m : Mapping) (program : TickProgram δ) (raised : InterruptSet) (bus : DeviceBus δ) :
    (outcome (perform m program raised bus)).layout = bus.layout := by
  induction program generalizing raised bus with
  | ends d result =>
    cases result with
    | ok => rfl
    | error e => rfl
  | read8 addr next ih => exact (ih _ raised _).trans (((steady_layout _).byteRead addr).outcome rfl)
  | write8 addr value next ih => exact (ih _ raised _).trans (((steady_layout _).byteWrite addr value).outcome rfl)
  | raise n next ih => exact ih _ bus
  | isHalted next ih => exact ih _ raised bus
  | setHalted halted next ih => exact ih raised { bus with halted := halted }

theorem tick_keepsLayout (now : UInt64) : BusM.Keeps layout (tick now : BusM (DeviceBus δ) InterruptSet) :=
  .of_preserves fun _ => tick_preserves fun h _ => (layout_perform ..).trans h

/-- Above the address space nothing answers. -/
theorem Inside.not_answered (h : bus.Inside) {addr : UInt32} (ha : Address.spaceSize ≤ addr.toNat) {b : UInt8} :
    (Bus.read8 addr : BusM (DeviceBus δ) UInt8) bus ≠ .ok b bus' := by
  -- no range reaches so far, and the memory does not either
  have hfree : bus.mapping? addr = none := by
    refine Option.eq_none_iff_forall_ne_some.2 fun m hm => ?_
    obtain ⟨hmem, hc⟩ := mapping?_sound hm
    have hstop := h.mappings m hmem
    simp only [Mapping.contains, Bool.and_eq_true, decide_eq_true_eq, UInt32.lt_iff_toNat_lt] at hc
    omega
  have hout : bus.memory.contains addr = false := by
    have hsize := h.memory
    simp only [Memory.contains, decide_eq_false_iff_not]
    omega
  intro hr
  change read8 addr bus = _ at hr
  unfold read8 at hr
  rw [hfree] at hr
  simp [Memory.read?, hout] at hr

end DeviceBus

/-! ### Machines -/

namespace Machine

variable {δ : Type} {m m' : Machine δ}

/-- A machine that a host has put together: images are loaded, devices are taken in and ranges are mapped. -/
inductive Prepared : Machine δ → Prop where
  | new (config : Config) : config.memorySize ≤ Address.spaceSize → Prepared (new config)
  | load {m m' : Machine δ} {offset : UInt32} {image : List UInt8} : Prepared m → m.load offset image = .ok m' →
      Prepared m'
  | attach {m : Machine δ} (d : δ) : Prepared m → Prepared (m.setBus (m.bus.attach d).2)
  | map {m : Machine δ} {base len : UInt32} {number : Nat} {bus : DeviceBus δ} : Prepared m →
      m.bus.map base len number = .ok bus → Prepared (m.setBus bus)

private theorem load_layout {offset : UInt32} {image : List UInt8} (h : m.load offset image = .ok m') :
    m'.bus.layout = m.bus.layout := by
  unfold load Memory.load at h
  split at h
  · cases h
    exact Prod.ext (Memory.size_storeAll m.memory offset image) rfl
  · cases h

theorem Prepared.inside (h : m.Prepared) : m.bus.Inside := by
  induction h with
  | new config hsize => exact ⟨hsize, by rintro _ ⟨⟩⟩
  | load _ hload ih => exact ih.of_layout (load_layout hload)
  | attach d _ ih => exact ih.attach d
  | map _ hmap ih => exact ih.map hmap

end Machine

end H8S
