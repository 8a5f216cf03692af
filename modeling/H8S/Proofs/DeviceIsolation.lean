import H8S.Proofs.DeviceMap
import H8S.Proofs.ProgramCounter
import H8S.Proofs.Sources
import H8S.Proofs.WideAccesses

/-!
# Devices apart from each other and from the memory

Every address has one server (`WellMapped.exists_serves`, `Serves.unique`): the device of the range that holds it or, while
that device is out, its closed range; the memory outside of all ranges; or nobody.  A byte goes to its server and a word to the
servers of its two bytes, so an access leaves alone all devices that are not addressed, and in the memory all bytes that are not
written or lie behind a device (`Confined`).

A tick is a run of small steps (`Ticking`): a device is taken out and its range closed, its program does one thing after the
other (`Works`), and it is put back.  In each of these states the range of the device that is out, and no other, is closed,
and however the tick ends, all devices are back.
-/

namespace H8S

namespace CoreAccess

/-- The addresses of the bytes of an access on the bus. -/
def addresses : CoreAccess → List UInt32
  | readByte addr => [addr]
  | readWord addr => [addr, addressAfter addr]
  | writeByte addr _ => [addr]
  | writeWord addr _ => [addr, addressAfter addr]

/-- Those that are written. -/
def stored : CoreAccess → List UInt32
  | readByte _ => []
  | readWord _ => []
  | writeByte addr _ => [addr]
  | writeWord addr _ => [addr, addressAfter addr]

def direction : CoreAccess → Direction
  | readByte _ => .read
  | readWord _ => .read
  | writeByte _ _ => .write
  | writeWord _ _ => .write

end CoreAccess

namespace DeviceBus

variable {δ : Type} {bus bus' bus₁ bus₂ : DeviceBus δ} {addr : UInt32} {m : Mapping}

/-! ### Servers -/

/-- Who answers at an address: a device with its number, a closed range, the memory, or nobody. -/
inductive Server (δ : Type) where
  | device (number : Nat) (d : δ)
  | closed
  | memory
  | nobody

/-- No device is mapped at an address. -/
def Unmapped (bus : DeviceBus δ) (addr : UInt32) : Prop := ∀ m ∈ bus.mappings, m.contains addr = false

/-- The server of an address, by the ranges that are mapped and the size of the memory. -/
inductive Serves (bus : DeviceBus δ) (addr : UInt32) : Server δ → Prop where
  | device {m : Mapping} {d : δ} : m ∈ bus.mappings → m.contains addr = true → bus.busy ≠ some m.base →
      bus.device? m.device = some d → Serves bus addr (.device m.device d)
  | closed {m : Mapping} : m ∈ bus.mappings → m.contains addr = true → bus.busy = some m.base → Serves bus addr .closed
  | memory : bus.Unmapped addr → addr.toNat < bus.memory.size → Serves bus addr .memory
  | nobody : bus.Unmapped addr → bus.memory.size ≤ addr.toNat → Serves bus addr .nobody

namespace WellMapped

theorem mapping?_eq_none_iff (h : bus.WellMapped) : bus.mapping? addr = none ↔ bus.Unmapped addr := by
  rw [Option.eq_none_iff_forall_ne_some]
  simp only [ne_eq, h.mapping?_eq_some_iff, not_and, Bool.not_eq_true]
  exact Iff.rfl

theorem exists_device (h : bus.WellMapped) (hm : m ∈ bus.mappings) : ∃ d, bus.device? m.device = some d :=
  ⟨_, Array.getElem?_eq_getElem (h.owned m hm)⟩

theorem exists_serves (h : bus.WellMapped) (addr : UInt32) : ∃ v, bus.Serves addr v := by
  cases hm : bus.mapping? addr with
  | none =>
    have hfree := h.mapping?_eq_none_iff.1 hm
    rcases Nat.lt_or_ge addr.toNat bus.memory.size with hlt | hge
    · exact ⟨_, .memory hfree hlt⟩
    · exact ⟨_, .nobody hfree hge⟩
  | some m =>
    obtain ⟨hmem, hc⟩ := mapping?_sound hm
    obtain ⟨d, hd⟩ := h.exists_device hmem
    by_cases hb : bus.busy = some m.base
    · exact ⟨_, .closed hmem hc hb⟩
    · exact ⟨_, .device hmem hc hb hd⟩

/-- Two mappings with a common address are one. -/
theorem eq_of_contains (h : bus.WellMapped) {x : Mapping} (hm : m ∈ bus.mappings) (hx : x ∈ bus.mappings)
    (hcm : m.contains addr = true) (hcx : x.contains addr = true) : m = x := by
  have h₁ := h.mapping?_eq_some_iff.2 ⟨hm, hcm⟩
  have h₂ := h.mapping?_eq_some_iff.2 ⟨hx, hcx⟩
  exact Option.some.inj (h₁.symm.trans h₂)

end WellMapped

/-- Only one server answers at an address. -/
theorem Serves.unique (h : bus.WellMapped) {v v' : Server δ} (hv : bus.Serves addr v) (hv' : bus.Serves addr v') :
    v = v' := by
  cases hv with
  | device hm hc hb hd =>
    cases hv' with
    | device hm' hc' hb' hd' =>
      obtain rfl := h.eq_of_contains hm hm' hc hc'
      rw [hd] at hd'
      cases hd'
      rfl
    | closed hm' hc' hb' =>
      obtain rfl := h.eq_of_contains hm hm' hc hc'
      exact absurd hb' hb
    | memory hfree => exact absurd hc (by simp [hfree _ hm])
    | nobody hfree => exact absurd hc (by simp [hfree _ hm])
  | closed hm hc hb =>
    cases hv' with
    | device hm' hc' hb' hd' =>
      obtain rfl := h.eq_of_contains hm hm' hc hc'
      exact absurd hb hb'
    | closed => rfl
    | memory hfree => exact absurd hc (by simp [hfree _ hm])
    | nobody hfree => exact absurd hc (by simp [hfree _ hm])
  | memory hfree hlt =>
    cases hv' with
    | device hm hc => exact absurd hc (by simp [hfree _ hm])
    | closed hm hc => exact absurd hc (by simp [hfree _ hm])
    | memory => rfl
    | nobody _ hge => omega
  | nobody hfree hge =>
    cases hv' with
    | device hm hc => exact absurd hc (by simp [hfree _ hm])
    | closed hm hc => exact absurd hc (by simp [hfree _ hm])
    | memory _ hlt => omega
    | nobody => rfl

private theorem taking_busy (bus : DeviceBus δ) (o : Owner δ) : (bus.taking o).2.busy = bus.busy := by
  cases o <;> rfl

private theorem serving?_of_open {d : δ} (hb : bus.busy ≠ some m.base) (hd : bus.device? m.device = some d) :
    bus.serving? m = some (bus.active d) := by
  unfold serving?
  rw [if_neg hb, hd]
  rfl

private theorem serving?_of_closed (hb : bus.busy = some m.base) : bus.serving? m = none := by
  unfold serving?
  rw [if_pos hb]

private theorem wordMapping?_of_contains (h : bus.WellMapped) (hm : m ∈ bus.mappings) (hc : m.contains addr = true)
    (hc' : m.contains (addressAfter addr) = true) : bus.wordMapping? addr = some m := by
  unfold wordMapping?
  rw [h.mapping?_eq_some_iff.2 ⟨hm, hc⟩, h.mapping?_eq_some_iff.2 ⟨hm, hc'⟩]
  exact if_pos rfl

private theorem wordMapping?_of_split (hno : ∀ m ∈ bus.mappings, ¬(m.contains addr = true ∧
    m.contains (addressAfter addr) = true)) : bus.wordMapping? addr = none := by
  refine Option.eq_none_iff_forall_ne_some.2 fun m hw => ?_
  obtain ⟨hm, hm'⟩ := wordMapping?_some hw
  exact hno m (mapping?_sound hm).1 ⟨(mapping?_sound hm).2, (mapping?_sound hm').2⟩

/-! ### What accesses leave alone -/

/-- The same ranges are mapped to as many devices in front of as much memory. -/
structure SameLayout (bus bus' : DeviceBus δ) : Prop where
  mappings : bus'.mappings = bus.mappings
  count : bus'.devices.size = bus.devices.size
  size : bus'.memory.size = bus.memory.size

/-- What no access and no tick changes: the ranges, the number of the devices, the size of the memory, and its bytes behind
devices. -/
structure Covered (bus bus' : DeviceBus δ) : Prop where
  mappings : bus'.mappings = bus.mappings
  count : bus'.devices.size = bus.devices.size
  size : bus'.memory.size = bus.memory.size
  hidden : ∀ a, ¬bus.Unmapped a → bus'.memory.get a = bus.memory.get a

/-- Besides, a bus has changed at most in the devices whose open ranges hold an addressed byte, and in stored bytes of the
memory. -/
structure Confined (addressed stored : List UInt32) (bus bus' : DeviceBus δ) : Prop extends Covered bus bus' where
  busy : bus'.busy = bus.busy
  memory : ∀ a, a ∉ stored → bus'.memory.get a = bus.memory.get a
  devices : ∀ n, (∀ m ∈ bus.mappings, m.device = n → bus.busy ≠ some m.base → ∀ a ∈ addressed, m.contains a = false) →
    bus'.device? n = bus.device? n

theorem serves_nobody : bus.Serves addr .nobody ↔ bus.Unmapped addr ∧ bus.memory.size ≤ addr.toNat := by
  constructor
  · rintro (_ | _ | _ | ⟨hfree, hge⟩)
    exact ⟨hfree, hge⟩
  · rintro ⟨hfree, hge⟩
    exact .nobody hfree hge

theorem serves_memory : bus.Serves addr .memory ↔ bus.Unmapped addr ∧ addr.toNat < bus.memory.size := by
  constructor
  · rintro (_ | _ | ⟨hfree, hlt⟩)
    exact ⟨hfree, hlt⟩
  · rintro ⟨hfree, hlt⟩
    exact .memory hfree hlt

namespace SameLayout

theorem wellMapped (h : SameLayout bus bus') (hw : bus.WellMapped) : bus'.WellMapped where
  sorted := h.mappings ▸ hw.sorted
  apart := h.mappings ▸ hw.apart
  nonempty := h.mappings ▸ hw.nonempty
  inside := h.mappings ▸ hw.inside
  owned m hm := by
    rw [h.mappings] at hm
    rw [h.count]
    exact hw.owned m hm

theorem unmapped (h : SameLayout bus bus') : bus'.Unmapped addr ↔ bus.Unmapped addr := by
  unfold Unmapped
  rw [h.mappings]

theorem memory (h : SameLayout bus bus') : bus'.Serves addr .memory ↔ bus.Serves addr .memory := by
  rw [serves_memory, serves_memory, h.unmapped, h.size]

theorem nobody (h : SameLayout bus bus') : bus'.Serves addr .nobody ↔ bus.Serves addr .nobody := by
  rw [serves_nobody, serves_nobody, h.unmapped, h.size]

end SameLayout

theorem Covered.refl (bus : DeviceBus δ) : Covered bus bus := ⟨rfl, rfl, rfl, fun _ _ => rfl⟩

theorem Covered.sameLayout (h : Covered bus bus') : SameLayout bus bus' := ⟨h.mappings, h.count, h.size⟩

theorem Covered.nobody (h : Covered bus bus') : bus'.Serves addr .nobody ↔ bus.Serves addr .nobody := h.sameLayout.nobody

theorem Covered.trans (h : Covered bus bus₁) (k : Covered bus₁ bus₂) : Covered bus bus₂ where
  mappings := k.mappings.trans h.mappings
  count := k.count.trans h.count
  size := k.size.trans h.size
  hidden a ha := (k.hidden a (mt h.sameLayout.unmapped.1 ha)).trans (h.hidden a ha)

theorem Covered.wellMapped (h : Covered bus bus') (hw : bus.WellMapped) : bus'.WellMapped := h.sameLayout.wellMapped hw

namespace Confined

variable {addressed stored addressed' stored' : List UInt32}

theorem refl (bus : DeviceBus δ) : Confined addressed stored bus bus :=
  ⟨.refl bus, rfl, fun _ _ => rfl, fun _ _ => rfl⟩

theorem trans (h : Confined addressed stored bus bus₁) (k : Confined addressed stored bus₁ bus₂) :
    Confined addressed stored bus bus₂ where
  toCovered := h.toCovered.trans k.toCovered
  busy := k.busy.trans h.busy
  memory a ha := (k.memory a ha).trans (h.memory a ha)
  devices n hn := by
    refine (k.devices n ?_).trans (h.devices n hn)
    rw [h.mappings, h.busy]
    exact hn

theorem mono (h : Confined addressed stored bus bus') (ha : addressed ⊆ addressed') (hs : stored ⊆ stored') :
    Confined addressed' stored' bus bus' where
  toCovered := h.toCovered
  busy := h.busy
  memory a hn := h.memory a fun hmem => hn (hs hmem)
  devices n hn := h.devices n fun m hm he hb a hmem => hn m hm he hb a (ha hmem)

/-- A device was served. -/
theorem served (hm : m ∈ bus.mappings) (hb : bus.busy ≠ some m.base) {a : UInt32} (ha : a ∈ addressed)
    (hc : m.contains a = true) (d : Active δ) : Confined addressed stored bus (bus.served m.device d) where
  mappings := rfl
  count := by simp [DeviceBus.served, setDevice]
  size := rfl
  hidden _ _ := rfl
  busy := rfl
  memory _ _ := rfl
  devices n hn := by
    have hne : m.device ≠ n := fun he => by
      have hno := hn m hm he hb a ha
      rw [hc] at hno
      cases hno
    simp [device?, DeviceBus.served, setDevice, hne]

/-- A byte that no device serves was stored. -/
theorem store (hfree : bus.Unmapped addr) (hs : addr ∈ stored) (b : UInt8) :
    Confined addressed stored bus { bus with memory := bus.memory.store addr b } where
  mappings := rfl
  count := rfl
  size := rfl
  hidden a ha := by
    rw [Memory.get_store, if_neg]
    rintro rfl
    exact ha hfree
  busy := rfl
  memory a ha := by
    rw [Memory.get_store, if_neg]
    rintro rfl
    exact ha hs
  devices _ _ := rfl

end Confined

variable [Device δ]

/-- What a server makes of a byte that is read. -/
def Server.read (v : Server δ) (addr : UInt32) : BusM (DeviceBus δ) UInt8 := fun bus =>
  match v with
  | .device number d =>
    .ok (Device.read8 (bus.active d) addr).1 (bus.served number (Device.read8 (bus.active d) addr).2)
  | .closed => .ok 0xFF bus
  | .memory => .ok (bus.memory.get addr) bus
  | .nobody => .error (.outOfRange addr ⟨.read, 8⟩) bus

/-- What a server makes of a byte that is written. -/
def Server.write (v : Server δ) (addr : UInt32) (b : UInt8) : BusM (DeviceBus δ) Unit := fun bus =>
  match v with
  | .device number d => .ok () (bus.served number (Device.write8 (bus.active d) addr b))
  | .closed => .ok () bus
  | .memory => .ok () { bus with memory := bus.memory.store addr b }
  | .nobody => .error (.outOfRange addr ⟨.write, 8⟩) bus

/-- A byte goes to its server. -/
theorem read8_of_serves (h : bus.WellMapped) {v : Server δ} (hv : bus.Serves addr v) :
    read8 addr bus = v.read addr bus := by
  cases hv with
  | device hm hc hb hd =>
    exact read8_of_serving (h.mapping?_eq_some_iff.2 ⟨hm, hc⟩) (serving?_of_open hb hd)
  | closed hm hc hb => exact read8_of_closed (h.mapping?_eq_some_iff.2 ⟨hm, hc⟩) (serving?_of_closed hb)
  | memory hfree hlt =>
    unfold read8
    simp [h.mapping?_eq_none_iff.2 hfree, Memory.read?, Memory.contains, hlt, Server.read]
  | nobody hfree hge =>
    unfold read8
    simp [h.mapping?_eq_none_iff.2 hfree, Memory.read?, Memory.contains, Nat.not_lt.2 hge, Server.read]

theorem write8_of_serves (h : bus.WellMapped) {v : Server δ} (hv : bus.Serves addr v) (b : UInt8) :
    write8 addr b bus = v.write addr b bus := by
  cases hv with
  | device hm hc hb hd =>
    exact write8_of_serving (h.mapping?_eq_some_iff.2 ⟨hm, hc⟩) (serving?_of_open hb hd) b
  | closed hm hc hb => exact write8_of_closed (h.mapping?_eq_some_iff.2 ⟨hm, hc⟩) (serving?_of_closed hb) b
  | memory hfree hlt =>
    unfold write8
    simp [h.mapping?_eq_none_iff.2 hfree, Memory.contains, hlt, Server.write]
  | nobody hfree hge =>
    unfold write8
    simp [h.mapping?_eq_none_iff.2 hfree, Memory.contains, Nat.not_lt.2 hge, Server.write]

/-! ### Words -/

/-- A word with both bytes in one range is one access to its device; any other word is its two bytes in turn. -/
structure WordsServed (bus : DeviceBus δ) (addr : UInt32) : Prop where
  joint : ∀ m ∈ bus.mappings, m.contains addr = true → m.contains (addressAfter addr) = true →
    ∀ d, bus.device? m.device = some d → bus.busy ≠ some m.base →
      read16 addr bus =
          .ok (Device.read16 (bus.active d) addr).1 (bus.served m.device (Device.read16 (bus.active d) addr).2) ∧
        ∀ w, write16 addr w bus = .ok () (bus.served m.device (Device.write16 (bus.active d) addr w))
  closed : ∀ m ∈ bus.mappings, m.contains addr = true → m.contains (addressAfter addr) = true →
    bus.busy = some m.base → read16 addr bus = .ok 0xFFFF bus ∧ ∀ w, write16 addr w bus = .ok () bus
  split : (∀ m ∈ bus.mappings, ¬(m.contains addr = true ∧ m.contains (addressAfter addr) = true)) →
    read16 addr bus =
        (read8 addr >>= fun hi => read8 (addressAfter addr) >>= fun lo => pure (wordOf hi lo) :
          BusM (DeviceBus δ) UInt16) bus ∧
      ∀ w, write16 addr w bus =
        (write8 addr (highByte w) >>= fun _ => write8 (addressAfter addr) w.toUInt8 : BusM (DeviceBus δ) Unit) bus

theorem WellMapped.wordsServed (h : bus.WellMapped) (addr : UInt32) : bus.WordsServed addr where
  joint m hm hc hc' d hd hb := by
    have hw := wordMapping?_of_contains h hm hc hc'
    have hs := serving?_of_open hb hd
    unfold read16 write16
    simp [hw, hs]
  closed m hm hc hc' hb := by
    have hw := wordMapping?_of_contains h hm hc hc'
    have hs := serving?_of_closed hb
    unfold read16 write16
    simp [hw, hs]
  split hno := by
    have hw := wordMapping?_of_split hno
    unfold read16 write16
    simp [hw]

/-! ### Accesses -/

/-- What comes of an access: it is confined, and it fails exactly if nobody answers at one of its addresses. -/
structure Accessed {α : Type} (addressed stored : List UInt32) (direction : Direction) (bus : DeviceBus δ)
    (r : EStateM.Result Fault (DeviceBus δ) α) : Prop where
  confined : Confined addressed stored bus (outcome r)
  error : ∀ {e bus'}, r = .error e bus' → ∃ x ∈ addressed, bus.Serves x .nobody ∧ e = .outOfRange x ⟨direction, 8⟩
  ok : ∀ {a bus'}, r = .ok a bus' → ∀ x ∈ addressed, ¬bus.Serves x .nobody

namespace Accessed

variable {α γ : Type} {addressed stored addressed' stored' : List UInt32} {direction : Direction}

omit [Device δ] in
theorem pure (a : α) : Accessed [] [] direction bus ((pure a : BusM (DeviceBus δ) α) bus) where
  confined := .refl bus
  error := by rintro _ _ ⟨⟩
  ok := by rintro _ _ _ _ ⟨⟩

omit [Device δ] in
theorem bind {m : BusM (DeviceBus δ) α} {f : α → BusM (DeviceBus δ) γ}
    (hm : Accessed addressed stored direction bus (m bus))
    (hf : ∀ {a bus₁}, Confined addressed stored bus bus₁ → Accessed addressed' stored' direction bus₁ (f a bus₁)) :
    Accessed (addressed ++ addressed') (stored ++ stored') direction bus
      ((m >>= f : BusM (DeviceBus δ) γ) bus) := by
  cases hr : m bus with
  | error e bus₁ =>
    have he : (m >>= f : BusM (DeviceBus δ) γ) bus = .error e bus₁ := BusM.bind_error.2 (.inl hr)
    rw [he]
    rw [hr] at hm
    refine ⟨hm.confined.mono (by simp) (by simp), fun h => ?_, by rintro _ _ ⟨⟩⟩
    cases h
    obtain ⟨x, hx, hs, he⟩ := hm.error rfl
    exact ⟨x, List.mem_append_left _ hx, hs, he⟩
  | ok a bus₁ =>
    rw [BusM.bind_of_ok hr]
    rw [hr] at hm
    have hc : Confined addressed stored bus bus₁ := hm.confined
    have k := hf (a := a) hc
    refine ⟨(hc.mono (by simp) (by simp)).trans (k.confined.mono (by simp) (by simp)), fun h => ?_, fun h x hx => ?_⟩
    · obtain ⟨x, hx, hs, he⟩ := k.error h
      exact ⟨x, List.mem_append_right _ hx, hc.nobody.1 hs, he⟩
    · rcases List.mem_append.1 hx with hx | hx
      · exact hm.ok rfl x hx
      · exact mt hc.nobody.2 (k.ok h x hx)

omit [Device δ] in
theorem map {m : BusM (DeviceBus δ) α} (h : Accessed addressed stored direction bus (m bus)) (f : α → γ) :
    Accessed addressed stored direction bus ((f <$> m : BusM (DeviceBus δ) γ) bus) := by
  show Accessed addressed stored direction bus (EStateM.map f m bus)
  unfold EStateM.map
  cases hr : m bus with
  | ok a bus' =>
    rw [hr] at h
    refine ⟨h.confined, by rintro _ _ ⟨⟩, fun _ => h.ok rfl⟩
  | error e bus' =>
    rw [hr] at h
    refine ⟨h.confined, fun he => ?_, by rintro _ _ ⟨⟩⟩
    cases he
    exact h.error rfl

omit [Device δ] in
/-- What a device or a closed range answers. -/
theorem answered {a : α} (hc : Confined addressed stored bus bus')
    (hs : ∀ x ∈ addressed, ∃ m ∈ bus.mappings, m.contains x = true) :
    Accessed addressed stored direction bus (.ok a bus') := by
  refine ⟨hc, by rintro _ _ ⟨⟩, fun _ x hx hn => ?_⟩
  obtain ⟨m, hm, hcx⟩ := hs x hx
  have hfree := (serves_nobody.1 hn).1 m hm
  rw [hcx] at hfree
  cases hfree

theorem byteRead (h : bus.WellMapped) (addr : UInt32) : Accessed [addr] [] .read bus (read8 addr bus) := by
  obtain ⟨v, hv⟩ := h.exists_serves addr
  rw [read8_of_serves h hv]
  cases hv with
  | device hm hc hb hd => exact .answered (.served hm hb (by simp) hc _) (by simpa using ⟨_, hm, hc⟩)
  | closed hm hc hb => exact .answered (.refl bus) (by simpa using ⟨_, hm, hc⟩)
  | memory hfree hlt =>
    refine ⟨.refl bus, by rintro _ _ ⟨⟩, fun _ x hx hn => ?_⟩
    rw [List.mem_singleton.1 hx, serves_nobody] at hn
    exact absurd hn.2 (Nat.not_le.2 hlt)
  | nobody hfree hge =>
    refine ⟨.refl bus, fun he => ?_, by rintro _ _ ⟨⟩⟩
    cases he
    exact ⟨addr, by simp, .nobody hfree hge, rfl⟩

theorem byteWrite (h : bus.WellMapped) (addr : UInt32) (b : UInt8) :
    Accessed [addr] [addr] .write bus (write8 addr b bus) := by
  obtain ⟨v, hv⟩ := h.exists_serves addr
  rw [write8_of_serves h hv]
  cases hv with
  | device hm hc hb hd => exact .answered (.served hm hb (by simp) hc _) (by simpa using ⟨_, hm, hc⟩)
  | closed hm hc hb => exact .answered (.refl bus) (by simpa using ⟨_, hm, hc⟩)
  | memory hfree hlt =>
    refine ⟨.store hfree (by simp) b, by rintro _ _ ⟨⟩, fun _ x hx hn => ?_⟩
    rw [List.mem_singleton.1 hx, serves_nobody] at hn
    exact absurd hn.2 (Nat.not_le.2 hlt)
  | nobody hfree hge =>
    refine ⟨.refl bus, fun he => ?_, by rintro _ _ ⟨⟩⟩
    cases he
    exact ⟨addr, by simp, .nobody hfree hge, rfl⟩

theorem wordRead (h : bus.WellMapped) (addr : UInt32) :
    Accessed [addr, addressAfter addr] [] .read bus (read16 addr bus) := by
  have hw := h.wordsServed addr
  by_cases hj : ∃ m ∈ bus.mappings, m.contains addr = true ∧ m.contains (addressAfter addr) = true
  · obtain ⟨m, hm, hc, hc'⟩ := hj
    have hs : ∀ x ∈ [addr, addressAfter addr], ∃ m ∈ bus.mappings, m.contains x = true := by
      simpa using ⟨⟨m, hm, hc⟩, m, hm, hc'⟩
    obtain ⟨d, hd⟩ := h.exists_device hm
    by_cases hb : bus.busy = some m.base
    · rw [(hw.closed m hm hc hc' hb).1]
      exact .answered (.refl bus) hs
    · rw [(hw.joint m hm hc hc' d hd hb).1]
      exact .answered (.served hm hb (by simp) hc _) hs
  · rw [(hw.split fun m hm hboth => hj ⟨m, hm, hboth⟩).1]
    exact (byteRead h addr).bind fun hc =>
      (byteRead (hc.toCovered.wellMapped h) (addressAfter addr)).bind fun _ => .pure _

theorem wordWrite (h : bus.WellMapped) (addr : UInt32) (w : UInt16) :
    Accessed [addr, addressAfter addr] [addr, addressAfter addr] .write bus (write16 addr w bus) := by
  have hw := h.wordsServed addr
  by_cases hj : ∃ m ∈ bus.mappings, m.contains addr = true ∧ m.contains (addressAfter addr) = true
  · obtain ⟨m, hm, hc, hc'⟩ := hj
    have hs : ∀ x ∈ [addr, addressAfter addr], ∃ m ∈ bus.mappings, m.contains x = true := by
      simpa using ⟨⟨m, hm, hc⟩, m, hm, hc'⟩
    obtain ⟨d, hd⟩ := h.exists_device hm
    by_cases hb : bus.busy = some m.base
    · rw [(hw.closed m hm hc hc' hb).2]
      exact .answered (.refl bus) hs
    · rw [(hw.joint m hm hc hc' d hd hb).2]
      exact .answered (.served hm hb (by simp) hc _) hs
  · rw [(hw.split fun m hm hboth => hj ⟨m, hm, hboth⟩).2]
    exact (byteWrite h addr (highByte w)).bind fun hc =>
      byteWrite (hc.toCovered.wellMapped h) (addressAfter addr) w.toUInt8

end Accessed

/-- An access without the value it reads. -/
def access : CoreAccess → BusM (DeviceBus δ) Unit
  | .readByte addr => (fun _ => ()) <$> read8 addr
  | .readWord addr => (fun _ => ()) <$> read16 addr
  | .writeByte addr value => write8 addr value
  | .writeWord addr value => write16 addr value

theorem WellMapped.accessed (h : bus.WellMapped) (a : CoreAccess) :
    Accessed a.addresses a.stored a.direction bus (access a bus) := by
  cases a with
  | readByte addr => exact (Accessed.byteRead h addr).map _
  | readWord addr => exact (Accessed.wordRead h addr).map _
  | writeByte addr value => exact .byteWrite h addr value
  | writeWord addr value => exact .wordWrite h addr value

/-! ### Ticks in small steps -/

/-- A program does its first thing on a bus; there are what is left of it and the bus afterwards. -/
inductive Works (bus : DeviceBus δ) : TickProgram δ → TickProgram δ → DeviceBus δ → Prop where
  | read8 (addr : UInt32) (next : Except Fault UInt8 → TickProgram δ) :
      Works bus (.read8 addr next) (next (verdict (read8 addr bus))) (outcome (read8 addr bus))
  | write8 (addr : UInt32) (value : UInt8) (next : Except Fault Unit → TickProgram δ) :
      Works bus (.write8 addr value next) (next (verdict (write8 addr value bus))) (outcome (write8 addr value bus))
  | raise (n : UInt8) (next : TickProgram δ) : Works bus (.raise n next) next bus
  | isHalted (next : Bool → TickProgram δ) : Works bus (.isHalted next) (next bus.halted) bus
  | setHalted (halted : Bool) (next : TickProgram δ) : Works bus (.setHalted halted next) next { bus with halted := halted }

/-- Where a tick stands: some ranges are still to be ticked, and one device may be out, with a program still to be run. -/
inductive TickStage (δ : Type) where
  | between (rest : List Mapping)
  | out (m : Mapping) (program : TickProgram δ) (rest : List Mapping)

namespace TickStage

/-- The range that is closed, if a device is out. -/
def closed? : TickStage δ → Option Mapping
  | between _ => none
  | out m _ _ => some m

def rest : TickStage δ → List Mapping
  | between rest => rest
  | out _ _ rest => rest

end TickStage

/-- A tick at the cycle count `now` comes from the bus `start` to a stage, with the bus as it is then. -/
inductive Ticking (now : UInt64) (start : DeviceBus δ) : TickStage δ → DeviceBus δ → Prop where
  | begins : Ticking now start (.between start.mappings) start
  /-- A device is taken out. -/
  | takes {m : Mapping} {rest : List Mapping} {bus : DeviceBus δ} {d : δ} : Ticking now start (.between (m :: rest)) bus →
      bus.device? m.device = some d →
      Ticking now start (.out m (Device.tick d now) rest) { bus with busy := some m.base }
  | works {m : Mapping} {program left : TickProgram δ} {rest : List Mapping} {bus bus' : DeviceBus δ} :
      Ticking now start (.out m program rest) bus → Works bus program left bus' → Ticking now start (.out m left rest) bus'
  /-- The device is put back. -/
  | returns {m : Mapping} {d : δ} {rest : List Mapping} {bus : DeviceBus δ} :
      Ticking now start (.out m (.ends d (.ok ())) rest) bus → Ticking now start (.between rest) (bus.reopened m d)

/-- How a tick ends: with all ranges ticked, or with a device that fails, and then it is put back. -/
inductive TickEnds (now : UInt64) (start : DeviceBus δ) : EStateM.Result Fault (DeviceBus δ) InterruptSet → Prop where
  | done {bus : DeviceBus δ} (raised : InterruptSet) : Ticking now start (.between []) bus → TickEnds now start (.ok raised bus)
  | failed {m : Mapping} {d : δ} {e : Fault} {rest : List Mapping} {bus : DeviceBus δ} :
      Ticking now start (.out m (.ends d (.error e)) rest) bus → TickEnds now start (.error e (bus.reopened m d))

/-- What a program does first leaves alone what accesses leave alone. -/
theorem Works.covered {program left : TickProgram δ} (h : bus.WellMapped) (hk : Works bus program left bus') :
    Covered bus bus' ∧ bus'.busy = bus.busy := by
  cases hk with
  | read8 addr next =>
    have hc := (Accessed.byteRead h addr).confined
    exact ⟨hc.toCovered, hc.busy⟩
  | write8 addr value next =>
    have hc := (Accessed.byteWrite h addr value).confined
    exact ⟨hc.toCovered, hc.busy⟩
  | raise n next => exact ⟨.refl bus, rfl⟩
  | isHalted next => exact ⟨.refl bus, rfl⟩
  | setHalted halted next => exact ⟨⟨rfl, rfl, rfl, fun _ _ => rfl⟩, rfl⟩

omit [Device δ] in
theorem covered_reopened (bus : DeviceBus δ) (m : Mapping) (d : δ) : Covered bus (bus.reopened m d) :=
  ⟨rfl, by simp [reopened, setDevice], rfl, fun _ _ => rfl⟩

/-- A device is ticked with its range closed. -/
theorem tickMapping_eq {now : UInt64} {d : δ} (hd : bus.device? m.device = some d) :
    tickMapping now m bus = perform m (Device.tick d now) {} { bus with busy := some m.base } := by
  unfold tickMapping
  simp only [hd]

namespace Ticking

variable {now : UInt64} {start : DeviceBus δ} {stage : TickStage δ} {program : TickProgram δ} {rest : List Mapping}

/-- At every stage the bus is laid out as at the start, and the range of the device that is out is closed. -/
theorem invariant (hw : start.WellMapped) (hb : start.busy = none) (ht : Ticking now start stage bus) :
    Covered start bus ∧ bus.busy = stage.closed?.map Mapping.base ∧ (∀ m ∈ stage.closed?, m ∈ start.mappings) ∧
      ∀ m ∈ stage.rest, m ∈ start.mappings := by
  induction ht with
  | begins => exact ⟨.refl start, hb, by rintro _ ⟨⟩, fun m hm => hm⟩
  | takes _ hd ih =>
    obtain ⟨hc, -, -, hrest⟩ := ih
    obtain ⟨hm, hrest⟩ := List.forall_mem_cons.1 hrest
    refine ⟨⟨hc.mappings, hc.count, hc.size, hc.hidden⟩, rfl, ?_, hrest⟩
    rintro _ ⟨⟩
    exact hm
  | works _ hk ih =>
    obtain ⟨hc, hbusy, hm, hrest⟩ := ih
    obtain ⟨hk, hkept⟩ := hk.covered (hc.wellMapped hw)
    exact ⟨hc.trans hk, hkept.trans hbusy, hm, hrest⟩
  | returns _ ih =>
    obtain ⟨hc, -, -, hrest⟩ := ih
    exact ⟨hc.trans (covered_reopened _ _ _), rfl, by rintro _ ⟨⟩, hrest⟩

/-- A program is run to its end, and its device is back, or the tick ends. -/
theorem perform_ends (ht : Ticking now start (.out m program rest) bus) (raised : InterruptSet) :
    (∃ raised' bus', perform m program raised bus = .ok raised' bus' ∧ Ticking now start (.between rest) bus') ∨
      ∃ e bus', perform m program raised bus = .error e bus' ∧ TickEnds now start (.error e bus') := by
  induction program generalizing bus raised with
  | ends d result =>
    cases result with
    | ok => exact .inl ⟨raised, _, rfl, ht.returns⟩
    | error e => exact .inr ⟨e, _, rfl, .failed ht⟩
  | read8 addr next ih => exact ih _ (ht.works (.read8 addr next)) raised
  | write8 addr value next ih => exact ih _ (ht.works (.write8 addr value next)) raised
  | raise n next ih => exact ih (ht.works (.raise n next)) _
  | isHalted next ih => exact ih _ (ht.works (.isHalted next)) raised
  | setHalted halted next ih => exact ih (ht.works (.setHalted halted next)) raised

/-- One range is ticked, and its device is back, or the tick ends. -/
theorem tickMapping_ends (ht : Ticking now start (.between (m :: rest)) bus) {d : δ}
    (hd : bus.device? m.device = some d) :
    (∃ raised bus', tickMapping now m bus = .ok raised bus' ∧ Ticking now start (.between rest) bus') ∨
      ∃ e bus', tickMapping now m bus = .error e bus' ∧ TickEnds now start (.error e bus') := by
  rw [tickMapping_eq hd]
  exact (ht.takes hd).perform_ends {}

theorem tickMappings_ends (hw : start.WellMapped) (hb : start.busy = none)
    (ht : Ticking now start (.between rest) bus) (raised : InterruptSet) :
    TickEnds now start (tickMappings now rest raised bus) := by
  induction rest generalizing bus raised with
  | nil => exact .done raised ht
  | cons m rest ih =>
    obtain ⟨hc, -, -, hrest⟩ := ht.invariant hw hb
    have hm : m ∈ bus.mappings := hc.mappings ▸ (List.forall_mem_cons.1 hrest).1
    obtain ⟨d, hd⟩ := (hc.wellMapped hw).exists_device hm
    show TickEnds now start ((tickMapping now m >>= fun r => tickMappings now rest (raised.union r) :
      BusM (DeviceBus δ) InterruptSet) bus)
    rcases ht.tickMapping_ends hd with ⟨r, bus', hr, ht'⟩ | ⟨e, bus', hr, hend⟩
    · rw [BusM.bind_of_ok hr]
      exact ih ht' _
    · rw [BusM.bind_error.2 (.inl hr)]
      exact hend

/-- After a turn that succeeds the tick stands between two ranges again. -/
theorem turned {d : δ} {raised : InterruptSet} (ht : Ticking now start (.between (m :: rest)) bus)
    (hd : bus.device? m.device = some d) (h : tickMapping now m bus = .ok raised bus') :
    Ticking now start (.between rest) bus' := by
  rcases ht.tickMapping_ends hd with ⟨r, mid, hok, hnext⟩ | ⟨e, mid, herror, -⟩
  · rw [h] at hok
    cases hok
    exact hnext
  · rw [h] at herror
    cases herror

/-- A tick has come to the ranges that are left. -/
theorem tickMappings_ok {before : List Mapping} {raised raised' : InterruptSet} (hw : start.WellMapped)
    (hb : start.busy = none) (ht : Ticking now start (.between (before ++ rest)) bus)
    (h : tickMappings now before raised bus = .ok raised' bus') : Ticking now start (.between rest) bus' := by
  induction before generalizing bus raised with
  | nil =>
    cases h
    exact ht
  | cons m before ih =>
    obtain ⟨hc, -, -, hrest⟩ := ht.invariant hw hb
    have hm : m ∈ bus.mappings := hc.mappings ▸ (List.forall_mem_cons.1 hrest).1
    obtain ⟨d, hd⟩ := (hc.wellMapped hw).exists_device hm
    obtain ⟨r, mid, h₁, h₂⟩ := BusM.bind_ok.1 h
    exact ih (ht.turned hd h₁) h₂

end Ticking

variable {now : UInt64} {start : DeviceBus δ}

theorem WellMapped.tickEnds (hw : start.WellMapped) (hb : start.busy = none) (now : UInt64) :
    TickEnds now start (tick now start) :=
  Ticking.begins.tickMappings_ends hw hb {}

/-- However a tick ends, the bus is laid out as before and all devices are back. -/
theorem TickEnds.outcome {r : EStateM.Result Fault (DeviceBus δ) InterruptSet} (h : TickEnds now start r)
    (hw : start.WellMapped) (hb : start.busy = none) : Covered start (outcome r) ∧ (outcome r).busy = none := by
  cases h with
  | done raised ht =>
    obtain ⟨hc, hbusy, -, -⟩ := ht.invariant hw hb
    exact ⟨hc, hbusy⟩
  | failed ht =>
    obtain ⟨hc, -, -, -⟩ := ht.invariant hw hb
    exact ⟨hc.trans (covered_reopened _ _ _), rfl⟩

/-! ### Isolation -/

/-- A bus as a host, a core and ticks leave it, whether they succeed or fail. -/
inductive Reachable : DeviceBus δ → Prop where
  | new (memory : Memory) : Reachable { memory := memory }
  | attach {bus : DeviceBus δ} (d : δ) : Reachable bus → Reachable (bus.attach d).2
  | register {bus : DeviceBus δ} (r : Registration δ) : Reachable bus → bus.Knows r → Reachable (bus.registered r)
  /-- The host works on the memory. -/
  | load {bus : DeviceBus δ} (memory : Memory) : Reachable bus → Reachable { bus with memory := memory }
  /-- The host works on a device that it shares with the bus. -/
  | share {bus : DeviceBus δ} (number : Nat) (d : δ) : Reachable bus → Reachable (bus.setDevice number d)
  | halt {bus : DeviceBus δ} (halted : Bool) : Reachable bus → Reachable { bus with halted := halted }
  | access {bus : DeviceBus δ} (a : CoreAccess) : Reachable bus → Reachable (outcome (access a bus))
  | tick {bus : DeviceBus δ} (now : UInt64) : Reachable bus → Reachable (outcome (tick now bus))

theorem Reachable.idle (h : bus.Reachable) : bus.WellMapped ∧ bus.busy = none := by
  induction h with
  | new memory => exact ⟨(Registered.new memory).wellMapped, rfl⟩
  | attach d _ ih => exact ⟨ih.1.taking (.new d), ih.2⟩
  | @register bus r _ hk ih =>
    refine ⟨ih.1.registered hk, ?_⟩
    rcases ih.1.registered_eq r with ⟨-, he⟩ | ⟨-, he⟩
    · rw [he]
      exact (taking_busy bus r.owner).trans ih.2
    · rw [he]
      exact ih.2
  | load memory _ ih => exact ⟨⟨ih.1.sorted, ih.1.apart, ih.1.nonempty, ih.1.inside, ih.1.owned⟩, ih.2⟩
  | share number d _ ih =>
    refine ⟨⟨ih.1.sorted, ih.1.apart, ih.1.nonempty, ih.1.inside, fun m hm => ?_⟩, ih.2⟩
    simpa [setDevice] using ih.1.owned m hm
  | halt halted _ ih => exact ⟨⟨ih.1.sorted, ih.1.apart, ih.1.nonempty, ih.1.inside, ih.1.owned⟩, ih.2⟩
  | access a _ ih =>
    have hc := (ih.1.accessed a).confined
    exact ⟨hc.toCovered.wellMapped ih.1, hc.busy.trans ih.2⟩
  | tick now _ ih =>
    obtain ⟨hc, hb⟩ := (ih.1.tickEnds ih.2 now).outcome ih.1 ih.2
    exact ⟨hc.wellMapped ih.1, hb⟩

/-- Every byte goes to its only server, accesses are confined to their bytes and fail only where nobody answers, and a look
at the memory passes by all devices. -/
structure Isolated (bus : DeviceBus δ) : Prop where
  server : ∀ addr, ∃ v, bus.Serves addr v ∧ ∀ v', bus.Serves addr v' → v' = v
  bytes : ∀ addr v, bus.Serves addr v → read8 addr bus = v.read addr bus ∧ ∀ b, write8 addr b bus = v.write addr b bus
  words : ∀ addr, bus.WordsServed addr
  accesses : ∀ a : CoreAccess, Accessed a.addresses a.stored a.direction bus (access a bus)
  peeks : ∀ addr, bus.peek8 addr =
    if addr.toNat < bus.memory.size then .ok (bus.memory.get addr) else .error (.outOfRange addr ⟨.read, 8⟩)

theorem WellMapped.isolated (h : bus.WellMapped) : bus.Isolated where
  server addr := by
    obtain ⟨v, hv⟩ := h.exists_serves addr
    exact ⟨v, hv, fun v' hv' => hv'.unique h hv⟩
  bytes addr v hv := ⟨read8_of_serves h hv, fun b => write8_of_serves h hv b⟩
  words addr := h.wordsServed addr
  accesses a := h.accessed a
  peeks addr := by simp [peek8, Memory.read?, Memory.contains]

omit [Device δ] in
/-- What is closed is the range of the busy device. -/
theorem serves_closed_iff (h : bus.WellMapped) {m? : Option Mapping} (hm : ∀ m ∈ m?, m ∈ bus.mappings)
    (hb : bus.busy = m?.map Mapping.base) {addr : UInt32} :
    bus.Serves addr .closed ↔ ∃ m ∈ m?, m.contains addr = true := by
  constructor
  · rintro (_ | ⟨hx, hc, hbx⟩)
    next x =>
    rw [hb, Option.map_eq_some_iff] at hbx
    obtain ⟨m, hm', he⟩ := hbx
    -- ranges with one base are one, as it lies in both
    have hbase := fun y hy => Mapping.contains_iff.2 ⟨Nat.le_refl _, UInt32.lt_iff_toNat_lt.1 (h.nonempty y hy)⟩
    obtain rfl := h.eq_of_contains hx (hm m hm') (hbase x hx) (he ▸ hbase m (hm m hm'))
    exact ⟨x, hm', hc⟩
  · rintro ⟨m, hm', hc⟩
    refine .closed (hm m hm') hc ?_
    rw [hb, Option.mem_def.1 hm']
    rfl

/-- On every bus that is in use, between ticks and in the middle of one, bytes go to their only servers and accesses are
confined.  A tick, whether it fails or not, changes neither the ranges nor the memory behind them and leaves every device
at its ranges, and at each of its stages exactly the range of the device that is out is closed. -/
theorem devices_isolated (h : start.Reachable) (now : UInt64) :
    start.Isolated ∧ TickEnds now start (tick now start) ∧
    Covered start (outcome (tick now start)) ∧
    (∀ m ∈ (outcome (tick now start)).mappings, ∃ d, (outcome (tick now start)).serving? m = some d) ∧
    ∀ stage bus, Ticking now start stage bus →
      bus.Isolated ∧ Covered start bus ∧
        ∀ addr, bus.Serves addr .closed ↔ ∃ m ∈ stage.closed?, m.contains addr = true := by
  obtain ⟨hw, hb⟩ := h.idle
  have hend := hw.tickEnds hb now
  obtain ⟨hc, hback⟩ := hend.outcome hw hb
  refine ⟨hw.isolated, hend, hc, fun m hm => ?_, fun stage bus ht => ?_⟩
  · obtain ⟨d, hd⟩ := (hc.wellMapped hw).exists_device hm
    exact ⟨_, serving?_of_open (by simp [hback]) hd⟩
  · obtain ⟨hc, hbusy, hm, -⟩ := ht.invariant hw hb
    have hw' := hc.wellMapped hw
    exact ⟨hw'.isolated, hc, fun addr => serves_closed_iff hw' (fun m hm' => hc.mappings ▸ hm m hm') hbusy⟩

/-- A DMA controller that is to copy two bytes of its own range to the end of the memory and beyond, and a register. -/
def copying : DeviceBus Peripheral :=
  ({ memory := { size := 0x41 } } : DeviceBus Peripheral).registerAll
    [⟨0x20, 0x10, .new (.dma { armed := some ⟨0x20, 0x40, 2, 1, 1, false, false⟩ })⟩, ⟨0x30, 0x10, .new (.enableRegister 7)⟩]

/-- The controller copies what its closed range answers, its second copy fails, and it is back afterwards.  A word across
the end of the register is a byte of it and a byte of the memory. -/
theorem devices_isolated_copying :
    copying.Reachable ∧
    verdict (tick 0 copying) = .error (.outOfRange 0x41 ⟨.write, 8⟩) ∧
    (outcome (tick 0 copying)).memory.get 0x40 = 0xFF ∧
    (∀ m ∈ (outcome (tick 0 copying)).mappings, ∃ d, (outcome (tick 0 copying)).serving? m = some d) ∧
    read16 0x3F copying = (read8 0x3F >>= fun hi => read8 0x40 >>= fun lo => pure (wordOf hi lo) :
      BusM (DeviceBus Peripheral) UInt16) copying := by
  have h : copying.Reachable := .register _ (.register _ (.new _) (by rintro number ⟨⟩)) (by rintro number ⟨⟩)
  have hm : copying.mappings = [⟨0x20, 0x30, 0⟩, ⟨0x30, 0x40, 1⟩] := by decide +kernel
  have hstored : (outcome (tick 0 copying)).memory = copying.memory.store 0x40 0xFF := by with_unfolding_all rfl
  obtain ⟨hi, -, -, hback, -⟩ := devices_isolated h 0
  refine ⟨h, by with_unfolding_all rfl, ?_, hback, ((hi.words 0x3F).split ?_).1⟩
  · rw [hstored, Memory.get_store]
    rfl
  · rw [hm]
    decide

end DeviceBus

end H8S
