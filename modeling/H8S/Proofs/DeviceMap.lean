import H8S.Peripheral
import Mathlib.Data.List.InsertIdx
import Mathlib.Tactic.ByContra

/-!
# The map of devices

Ranges are mapped one after the other, and a range that cannot be mapped leaves the bus as it is.  Whatever is mapped in
this way, the mappings are sorted, disjoint, not empty and inside the address space (`WellMapped`).  On such a bus halving
finds the only mapping of an address (`WellMapped.mapping?_eq_some_iff`), and a range that meets neither neighbour of its
place meets no mapping at all (`WellMapped.exists_neighbour_overlaps`).  So a range is mapped exactly if it fits, is not
empty and meets no other (`WellMapped.register_ok_iff`); then its addresses go to its device, and all other addresses go where
they went before.
-/

namespace H8S

namespace Mapping

theorem contains_iff {m : Mapping} {addr : UInt32} :
    m.contains addr = true ↔ m.base.toNat ≤ addr.toNat ∧ addr.toNat < m.stop.toNat := by
  simp [contains, UInt32.le_iff_toNat_le, UInt32.lt_iff_toNat_lt]

theorem overlaps_iff {m : Mapping} {base stop : UInt32} :
    m.overlaps base stop = true ↔ m.base.toNat < stop.toNat ∧ base.toNat < m.stop.toNat := by
  simp [overlaps, UInt32.lt_iff_toNat_lt]

/-- No address lies in both mappings. -/
def Apart (m x : Mapping) : Prop := ∀ addr, ¬(m.contains addr = true ∧ x.contains addr = true)

end Mapping

/-- A list stays ordered if what comes before the place of a new element is before it, and what comes after is after it. -/
private theorem pairwise_insertIdx {α : Type} {R : α → α → Prop} {xs : List α} {x : α} {i : Nat} (hi : i ≤ xs.length)
    (h : xs.Pairwise R) (before : ∀ k (hk : k < xs.length), k < i → R xs[k] x)
    (after : ∀ k (hk : k < xs.length), i ≤ k → R x xs[k]) : (xs.insertIdx i x).Pairwise R := by
  have hlen := List.length_insertIdx_of_le_length hi (a := x)
  rw [List.pairwise_iff_getElem] at h ⊢
  intro j k hj hk hjk
  rw [List.getElem_insertIdx, List.getElem_insertIdx]
  by_cases hki : k < i
  · rw [dif_pos (show j < i by omega), dif_pos hki]
    exact h j k _ _ hjk
  · rw [dif_neg hki]
    by_cases hkeq : k = i
    · rw [dif_pos hkeq, dif_pos (show j < i by omega)]
      exact before j _ (by omega)
    · rw [dif_neg hkeq]
      by_cases hji : j < i
      · rw [dif_pos hji]
        exact h j (k - 1) _ _ (by omega)
      · rw [dif_neg hji]
        by_cases hjeq : j = i
        · rw [dif_pos hjeq]
          exact after (k - 1) _ (by omega)
        · rw [dif_neg hjeq]
          exact h (j - 1) (k - 1) _ _ (by omega)

/-! ### Registrations -/

/-- The device of a registration: a new one, or one that the bus has taken in before. -/
inductive Owner (δ : Type) where
  | new (d : δ)
  | known (number : Nat)

/-- A request of the host to map a range to a device. -/
structure Registration (δ : Type) where
  base : UInt32
  len : UInt32
  owner : Owner δ

namespace Registration

variable {δ : Type}

/-- The mapping that comes of it. -/
def mapping (r : Registration δ) (number : Nat) : Mapping := ⟨r.base, r.base + r.len, number⟩

def Holds (r : Registration δ) (addr : UInt32) : Prop :=
  r.base.toNat ≤ addr.toNat ∧ addr.toNat < r.base.toNat + r.len.toNat

/-- The range is not empty and ends with the address space at the latest. -/
def Fits (r : Registration δ) : Prop := 0 < r.len.toNat ∧ r.base.toNat + r.len.toNat ≤ Address.spaceSize

/-- No address lies in both. -/
def Apart (r q : Registration δ) : Prop := ∀ addr, ¬(r.Holds addr ∧ q.Holds addr)

theorem Apart.symm {r q : Registration δ} (h : r.Apart q) : q.Apart r := fun addr hboth => h addr hboth.symm

theorem Fits.stop_toNat {r : Registration δ} (h : r.Fits) : (r.base + r.len).toNat = r.base.toNat + r.len.toNat := by
  have hle := h.2
  rw [UInt32.toNat_add]
  unfold Address.spaceSize at hle
  omega

theorem Fits.contains_mapping {r : Registration δ} (h : r.Fits) {number : Nat} {addr : UInt32} :
    (r.mapping number).contains addr = true ↔ r.Holds addr := by
  rw [Mapping.contains_iff]
  show _ ∧ addr.toNat < (r.base + r.len).toNat ↔ _
  rw [h.stop_toNat]
  rfl

end Registration

namespace DeviceBus

variable {δ : Type} {bus bus' : DeviceBus δ}

/-- Maps a range to its device, which may have to be taken in. -/
def register (bus : DeviceBus δ) (r : Registration δ) : Except MappingError (DeviceBus δ) :=
  match r.owner with
  | .new d => Prod.snd <$> bus.install r.base r.len d
  | .known number => bus.map r.base r.len number

/-- The bus after a registration, which is as before if it failed. -/
def registered (bus : DeviceBus δ) (r : Registration δ) : DeviceBus δ :=
  match bus.register r with
  | .ok bus' => bus'
  | .error _ => bus

def registerAll (bus : DeviceBus δ) (rs : List (Registration δ)) : DeviceBus δ := rs.foldl registered bus

/-- The device that a registration maps its range to. -/
def owner? (bus : DeviceBus δ) : Owner δ → Option δ
  | .new d => some d
  | .known number => bus.device? number

/-- The number of the device of a registration, and the bus that has taken it in. -/
def taking (bus : DeviceBus δ) : Owner δ → Nat × DeviceBus δ
  | .new d => bus.attach d
  | .known number => (number, bus)

/-- The bus with the mapping of a registration at its place. -/
def joined (bus : DeviceBus δ) (r : Registration δ) : DeviceBus δ :=
  { (bus.taking r.owner).2 with
    mappings := bus.mappings.insertIdx (bus.place r.base) (r.mapping (bus.taking r.owner).1) }

/-- The host names only devices that the bus has taken in. -/
def Knows (bus : DeviceBus δ) (r : Registration δ) : Prop := ∀ number, r.owner = .known number → number < bus.devices.size

/-- A bus on which the host has taken in devices and has asked for ranges, with success or without. -/
inductive Registered : DeviceBus δ → Prop where
  | new (memory : Memory) : Registered { memory := memory }
  | attach {bus : DeviceBus δ} (d : δ) : Registered bus → Registered (bus.attach d).2
  | register {bus : DeviceBus δ} (r : Registration δ) : Registered bus → bus.Knows r → Registered (bus.registered r)

/-- The range that serves an address, by its ends, and its device. -/
def route? (bus : DeviceBus δ) (addr : UInt32) : Option (UInt32 × UInt32 × Option δ) :=
  (bus.mapping? addr).map fun m => (m.base, m.stop, bus.device? m.device)

/-- What registrations keep of a bus. -/
structure WellMapped (bus : DeviceBus δ) : Prop where
  sorted : bus.mappings.Pairwise fun m x => m.base < x.base
  apart : bus.mappings.Pairwise Mapping.Apart
  nonempty : ∀ m ∈ bus.mappings, m.base < m.stop
  inside : ∀ m ∈ bus.mappings, m.stop.toNat ≤ Address.spaceSize
  owned : ∀ m ∈ bus.mappings, m.device < bus.devices.size

/-- A range fits and meets no mapping. -/
def Admits (bus : DeviceBus δ) (r : Registration δ) : Prop :=
  r.Fits ∧ ∀ m ∈ bus.mappings, ∀ addr, ¬(m.contains addr = true ∧ r.Holds addr)

namespace WellMapped

/-! ### Lookups -/

/-- Of two mappings the first ends before the second begins. -/
theorem stop_le (h : bus.WellMapped) {j k : Nat} (hjk : j < k) (hk : k < bus.mappings.length) :
    bus.mappings[j].stop.toNat ≤ bus.mappings[k].base.toNat := by
  have hbase := UInt32.lt_iff_toNat_lt.1 (List.pairwise_iff_getElem.1 h.sorted j k (by omega) hk hjk)
  have hlt := UInt32.lt_iff_toNat_lt.1 (h.nonempty _ (List.getElem_mem hk))
  by_contra hgt
  -- else both would hold the base of the second
  refine List.pairwise_iff_getElem.1 h.apart j k (by omega) hk hjk bus.mappings[k].base ⟨?_, ?_⟩
  · exact Mapping.contains_iff.2 ⟨by omega, by omega⟩
  · exact Mapping.contains_iff.2 ⟨Nat.le_refl _, hlt⟩

theorem cuts_le (h : bus.WellMapped) (addr : UInt32) : Cuts (fun m : Mapping => m.base ≤ addr) bus.mappings := by
  refine h.sorted.imp fun {m x} hlt hle => ?_
  simp only [decide_eq_true_eq] at hle ⊢
  exact UInt32.le_trans (UInt32.le_of_lt hlt) hle

theorem cuts_lt (h : bus.WellMapped) (base : UInt32) : Cuts (fun m : Mapping => m.base < base) bus.mappings := by
  refine h.sorted.imp fun {m x} hlt hlt' => ?_
  simp only [decide_eq_true_eq] at hlt' ⊢
  exact UInt32.lt_trans hlt hlt'

/-- The place of a range has before it the mappings that begin before the range. -/
theorem lt_place (h : bus.WellMapped) (base : UInt32) {k : Nat} (hk : k < bus.mappings.length) :
    k < bus.place base ↔ bus.mappings[k].base.toNat < base.toNat := by
  rw [place, (h.cuts_lt base).lt_partitionPoint hk, decide_eq_true_eq, UInt32.lt_iff_toNat_lt]

/-- Halving finds the mapping that holds an address. -/
theorem mapping?_eq_some_iff (h : bus.WellMapped) {addr : UInt32} {m : Mapping} :
    bus.mapping? addr = some m ↔ m ∈ bus.mappings ∧ m.contains addr = true := by
  constructor
  · exact mapping?_sound
  · rintro ⟨hm, hc⟩
    obtain ⟨j, hj, rfl⟩ := List.mem_iff_getElem.1 hm
    obtain ⟨hle, hlt⟩ := Mapping.contains_iff.1 hc
    have hcut := (h.cuts_le addr).lt_partitionPoint hj
    have hj' : j < partitionPoint (fun m : Mapping => m.base ≤ addr) bus.mappings := by
      rw [hcut, decide_eq_true_eq, UInt32.le_iff_toNat_le]
      exact hle
    have hend : partitionPoint (fun m : Mapping => m.base ≤ addr) bus.mappings ≤ bus.mappings.length :=
      partitionPoint_le
    unfold mapping?
    -- no mapping after it begins at or before the address
    split
    · next hp => omega
    · next index hp =>
      have hi : index < bus.mappings.length := by omega
      have hbase := ((h.cuts_le addr).lt_partitionPoint hi).1 (by omega)
      rw [decide_eq_true_eq, UInt32.le_iff_toNat_le] at hbase
      have hij : index = j := by
        by_contra hne
        have := h.stop_le (show j < index by omega) hi
        omega
      subst hij
      rw [List.getElem?_eq_getElem hi]
      simp [hc]

/-! ### Neighbours -/

/-- A range that meets some mapping meets a neighbour of its place. -/
theorem exists_neighbour_overlaps (h : bus.WellMapped) {base stop : UInt32} {m : Mapping} (hm : m ∈ bus.mappings)
    (ho : m.overlaps base stop = true) : ∃ x ∈ bus.neighbours (bus.place base), x.overlaps base stop = true := by
  obtain ⟨j, hj, rfl⟩ := List.mem_iff_getElem.1 hm
  obtain ⟨hlo, hhi⟩ := Mapping.overlaps_iff.1 ho
  have hend : bus.place base ≤ bus.mappings.length := partitionPoint_le
  by_cases hlt : j < bus.place base
  · -- what begins before the range and reaches into it is the last that does
    have hlast : j = bus.place base - 1 := by
      by_contra hne
      have hk : bus.place base - 1 < bus.mappings.length := by omega
      have h₁ := h.stop_le (show j < bus.place base - 1 by omega) hk
      have h₂ := (h.lt_place base hk).1 (by omega)
      omega
    refine ⟨bus.mappings[j], ?_, ho⟩
    simp [neighbours, ← hlast, show bus.place base ≠ 0 by omega, List.getElem?_eq_getElem hj]
  · -- what begins in the range comes after the first that does
    have hp : bus.place base < bus.mappings.length := by omega
    refine ⟨bus.mappings[bus.place base], ?_, Mapping.overlaps_iff.2 ?_⟩
    · simp [neighbours, List.getElem?_eq_getElem hp]
    · have hne := UInt32.lt_iff_toNat_lt.1 (h.nonempty _ (List.getElem_mem hp))
      have hge := mt (h.lt_place base hp).2 (Nat.lt_irrefl _)
      rcases Nat.eq_or_lt_of_le (Nat.le_of_not_lt hlt) with heq | hgt
      · subst heq
        exact ⟨hlo, by omega⟩
      · have := h.stop_le hgt hj
        exact ⟨by omega, by omega⟩

theorem mem_neighbours {place : Nat} {m : Mapping} (hm : m ∈ bus.neighbours place) : m ∈ bus.mappings := by
  unfold neighbours at hm
  rcases List.mem_append.1 hm with hm | hm
  · split at hm
    · cases hm
    · exact List.mem_of_getElem? (by simpa using hm)
  · exact List.mem_of_getElem? (by simpa using hm)

/-! ### One registration -/

/-- A range that fits shares an address with a mapping exactly if their ends say so. -/
theorem exists_shared_iff (h : bus.WellMapped) {r : Registration δ} (hr : r.Fits) {m : Mapping}
    (hm : m ∈ bus.mappings) :
    (∃ addr, m.contains addr = true ∧ r.Holds addr) ↔ m.overlaps r.base (r.base + r.len) = true := by
  have hlt := UInt32.lt_iff_toNat_lt.1 (h.nonempty m hm)
  have hstop := hr.stop_toNat
  rw [Mapping.overlaps_iff, hstop]
  constructor
  · rintro ⟨addr, hc, hlo, hhi⟩
    obtain ⟨hle, hlt'⟩ := Mapping.contains_iff.1 hc
    exact ⟨by omega, by omega⟩
  · rintro ⟨hlo, hhi⟩
    have hlen := hr.1
    -- the later of the two bases lies in both
    rcases Nat.le_total m.base.toNat r.base.toNat with hle | hle
    · exact ⟨r.base, Mapping.contains_iff.2 ⟨hle, hhi⟩, Nat.le_refl _, by omega⟩
    · exact ⟨m.base, Mapping.contains_iff.2 ⟨Nat.le_refl _, hlt⟩, hle, hlo⟩

theorem admits_iff (h : bus.WellMapped) {r : Registration δ} (hr : r.Fits) :
    bus.Admits r ↔ (bus.neighbours (bus.place r.base)).find? (·.overlaps r.base (r.base + r.len)) = none := by
  rw [List.find?_eq_none]
  constructor
  · rintro ⟨-, hfree⟩ m hm ho
    obtain ⟨addr, hboth⟩ := (h.exists_shared_iff hr (mem_neighbours hm)).2 ho
    exact hfree m (mem_neighbours hm) addr hboth
  · intro hfree
    refine ⟨hr, fun m hm addr hboth => ?_⟩
    obtain ⟨x, hx, ho⟩ := h.exists_neighbour_overlaps hm ((h.exists_shared_iff hr hm).1 ⟨addr, hboth⟩)
    exact hfree x hx ho

/-- A range is free exactly if it fits and meets no mapping. -/
theorem freeRange_ok_iff (h : bus.WellMapped) {r : Registration δ} {stop : UInt32} :
    bus.freeRange r.base r.len = .ok stop ↔ bus.Admits r ∧ stop = r.base + r.len := by
  unfold freeRange
  by_cases hlen : r.len = 0
  · have hno : ¬bus.Admits r := fun ha => by
      have hpos := ha.1.1
      rw [hlen] at hpos
      exact Nat.lt_irrefl _ hpos
    simp [hlen, hno]
  · have hpos : 0 < r.len.toNat := by
      refine Nat.pos_of_ne_zero fun h₀ => hlen ?_
      exact UInt32.toNat_inj.1 h₀
    rw [if_neg hlen]
    by_cases hfit : Address.spaceSize < r.base.toNat + r.len.toNat
    · have hno : ¬bus.Admits r := fun ha => by
        have hle := ha.1.2
        omega
      simp [hfit, hno]
    · have hr : r.Fits := ⟨hpos, by omega⟩
      rw [if_neg hfit, h.admits_iff hr]
      cases (bus.neighbours (bus.place r.base)).find? (·.overlaps r.base (r.base + r.len)) with
      | none => simp [eq_comm]
      | some m => simp

/-- The mappings after a range was mapped to the device with a number. -/
theorem map_ok_iff (h : bus.WellMapped) {r : Registration δ} {number : Nat} :
    bus.map r.base r.len number = .ok bus' ↔ bus.Admits r ∧
      bus' = { bus with mappings := bus.mappings.insertIdx (bus.place r.base) (r.mapping number) } := by
  unfold map
  constructor
  · intro hmap
    cases hf : bus.freeRange r.base r.len with
    | error e =>
      rw [hf] at hmap
      cases hmap
    | ok stop =>
      rw [hf] at hmap
      cases hmap
      obtain ⟨ha, rfl⟩ := h.freeRange_ok_iff.1 hf
      exact ⟨ha, rfl⟩
  · rintro ⟨ha, rfl⟩
    rw [h.freeRange_ok_iff.2 ⟨ha, rfl⟩]
    rfl

/-- A mapping that meets no other can join them at its place. -/
private theorem insert (h : bus.WellMapped) {r : Registration δ} (ha : bus.Admits r) {number : Nat}
    (hn : number < bus.devices.size) :
    WellMapped { bus with mappings := bus.mappings.insertIdx (bus.place r.base) (r.mapping number) } := by
  obtain ⟨hr, hfree⟩ := ha
  have hlen := hr.1
  have hle := hr.2
  have hstop := hr.stop_toNat
  have hplace : bus.place r.base ≤ bus.mappings.length := partitionPoint_le
  have mem : ∀ {m : Mapping}, m ∈ bus.mappings.insertIdx (bus.place r.base) (r.mapping number) →
      m = r.mapping number ∨ m ∈ bus.mappings := (List.mem_insertIdx hplace).1
  have apart : ∀ m ∈ bus.mappings, m.Apart (r.mapping number) := fun m hm addr hboth =>
    hfree m hm addr ⟨hboth.1, hr.contains_mapping.1 hboth.2⟩
  constructor
  case sorted =>
    refine pairwise_insertIdx hplace h.sorted (fun k hk hlt => ?_) fun k hk hge => ?_
    · exact UInt32.lt_iff_toNat_lt.2 ((h.lt_place r.base hk).1 hlt)
    · -- it does not begin where the range begins, as the two would share this address
      have hge' := mt (h.lt_place r.base hk).2 (Nat.not_lt.2 hge)
      have hne : bus.mappings[k].base.toNat ≠ r.base.toNat := fun he => by
        have hlt := UInt32.lt_iff_toNat_lt.1 (h.nonempty _ (List.getElem_mem hk))
        exact hfree _ (List.getElem_mem hk) r.base
          ⟨Mapping.contains_iff.2 ⟨by omega, by omega⟩, Nat.le_refl _, by omega⟩
      exact UInt32.lt_iff_toNat_lt.2 (show r.base.toNat < bus.mappings[k].base.toNat by omega)
  case apart =>
    refine pairwise_insertIdx hplace h.apart (fun k hk _ => ?_) fun k hk _ => ?_
    · exact apart _ (List.getElem_mem hk)
    · exact fun addr hboth => apart _ (List.getElem_mem hk) addr hboth.symm
  case nonempty =>
    intro m hm
    rcases mem hm with rfl | hm
    · exact UInt32.lt_iff_toNat_lt.2 (show r.base.toNat < (r.base + r.len).toNat by omega)
    · exact h.nonempty m hm
  case inside =>
    intro m hm
    rcases mem hm with rfl | hm
    · show (r.base + r.len).toNat ≤ _
      omega
    · exact h.inside m hm
  case owned =>
    intro m hm
    rcases mem hm with rfl | hm
    · exact hn
    · exact h.owned m hm

end WellMapped

theorem register_eq (r : Registration δ) :
    bus.register r = (bus.taking r.owner).2.map r.base r.len (bus.taking r.owner).1 := by
  unfold register
  cases r.owner with
  | new d =>
    show Prod.snd <$> ((bus.attach d).2.map r.base r.len (bus.attach d).1 >>= fun bus' => pure (_, bus')) = _
    cases hm : (bus.attach d).2.map r.base r.len (bus.attach d).1 with
    | ok bus' => exact hm.symm
    | error e => exact hm.symm
  | known number => rfl

theorem taking_mappings (bus : DeviceBus δ) (o : Owner δ) : (bus.taking o).2.mappings = bus.mappings := by
  cases o <;> rfl

/-- Devices that are on the bus stay there. -/
theorem taking_device? (bus : DeviceBus δ) (o : Owner δ) {number : Nat} (h : number < bus.devices.size) :
    (bus.taking o).2.device? number = bus.device? number := by
  cases o with
  | new d => simp [taking, attach, device?, Array.getElem?_push, Nat.ne_of_lt h]
  | known k => rfl

theorem size_le_taking (bus : DeviceBus δ) (o : Owner δ) : bus.devices.size ≤ (bus.taking o).2.devices.size := by
  cases o with
  | new d => simp [taking, attach]
  | known k => exact Nat.le_refl _

theorem Knows.lt_taking {r : Registration δ} (hk : bus.Knows r) :
    (bus.taking r.owner).1 < (bus.taking r.owner).2.devices.size := by
  cases ho : r.owner with
  | new d => simp [taking, attach]
  | known number => exact hk number ho

theorem taking_owner? (bus : DeviceBus δ) (o : Owner δ) :
    (bus.taking o).2.device? (bus.taking o).1 = bus.owner? o := by
  cases o with
  | new d => simp [taking, attach, device?, owner?]
  | known number => rfl

theorem mem_joined {r : Registration δ} {m : Mapping} :
    m ∈ (bus.joined r).mappings ↔ m = r.mapping (bus.taking r.owner).1 ∨ m ∈ bus.mappings :=
  List.mem_insertIdx partitionPoint_le

namespace WellMapped

theorem taking (h : bus.WellMapped) (o : Owner δ) : (bus.taking o).2.WellMapped := by
  have hm := bus.taking_mappings o
  refine ⟨hm ▸ h.sorted, hm ▸ h.apart, hm ▸ h.nonempty, hm ▸ h.inside, fun m hmem => ?_⟩
  rw [hm] at hmem
  exact Nat.lt_of_lt_of_le (h.owned m hmem) (bus.size_le_taking o)

/-- A registration succeeds exactly if its range fits and meets no mapping. -/
theorem register_ok_iff (h : bus.WellMapped) {r : Registration δ} :
    bus.register r = .ok bus' ↔ bus.Admits r ∧ bus' = bus.joined r := by
  have ht := bus.taking_mappings r.owner
  rw [register_eq, (h.taking r.owner).map_ok_iff]
  simp only [Admits, joined, place, ht]

/-- Why a registration fails: an empty range before one that does not fit, and this before a mapping that it meets. -/
theorem register_error (h : bus.WellMapped) {r : Registration δ} {e : MappingError} (hr : bus.register r = .error e) :
    (r.len = 0 ∧ e = .empty r.base) ∨
    (r.len ≠ 0 ∧ ¬r.Fits ∧ e = .outOfBounds r.base r.len) ∨
    (r.Fits ∧ ∃ m ∈ bus.mappings, (∃ addr, m.contains addr = true ∧ r.Holds addr) ∧
      e = .overlapping r.base (r.base + r.len) m.base m.stop) := by
  have ht := bus.taking_mappings r.owner
  rw [register_eq] at hr
  unfold DeviceBus.map at hr
  -- the range was refused, as nothing after it fails
  cases hf : (bus.taking r.owner).2.freeRange r.base r.len with
  | ok stop =>
    rw [hf] at hr
    cases hr
  | error e' =>
    rw [hf] at hr
    cases hr
    unfold freeRange at hf
    split at hf
    · next hlen =>
      cases hf
      exact .inl ⟨hlen, rfl⟩
    · next hlen =>
      split at hf
      · next hfit =>
        cases hf
        exact .inr (.inl ⟨hlen, fun hr => absurd hr.2 (Nat.not_le.2 hfit), rfl⟩)
      · next hfit =>
        have hr : r.Fits := by
          refine ⟨Nat.pos_of_ne_zero fun h₀ => hlen (UInt32.toNat_inj.1 h₀), Nat.not_lt.1 hfit⟩
        split at hf
        · next m hfind =>
          cases hf
          have hm : m ∈ bus.mappings := ht ▸ mem_neighbours (List.mem_of_find?_eq_some hfind)
          have ho := List.find?_some hfind
          exact .inr (.inr ⟨hr, m, hm, (h.exists_shared_iff hr hm).2 ho, rfl⟩)
        · cases hf

theorem registered_eq (h : bus.WellMapped) (r : Registration δ) :
    (bus.Admits r ∧ bus.registered r = bus.joined r) ∨ (¬bus.Admits r ∧ bus.registered r = bus) := by
  unfold registered
  cases hr : bus.register r with
  | ok bus' => exact .inl (h.register_ok_iff.1 hr)
  | error e =>
    refine .inr ⟨fun ha => ?_, rfl⟩
    rw [h.register_ok_iff.2 ⟨ha, rfl⟩] at hr
    cases hr

theorem joined (h : bus.WellMapped) {r : Registration δ} (ha : bus.Admits r) (hk : bus.Knows r) :
    (bus.joined r).WellMapped := by
  have ht := bus.taking_mappings r.owner
  have hins := (h.taking r.owner).insert (r := r) (by rwa [Admits, ht]) hk.lt_taking
  rwa [place, ht] at hins

theorem registered (h : bus.WellMapped) {r : Registration δ} (hk : bus.Knows r) : (bus.registered r).WellMapped := by
  rcases h.registered_eq r with ⟨ha, he⟩ | ⟨-, he⟩
  · rw [he]
    exact h.joined ha hk
  · rw [he]
    exact h

/-! ### Routes -/

/-- An address of the new range goes to its device. -/
theorem route?_joined_of_holds (h : bus.WellMapped) {r : Registration δ} (ha : bus.Admits r) (hk : bus.Knows r)
    {addr : UInt32} (hr : r.Holds addr) :
    (bus.joined r).route? addr = some (r.base, r.base + r.len, bus.owner? r.owner) := by
  have hm : (bus.joined r).mapping? addr = some (r.mapping (bus.taking r.owner).1) :=
    (h.joined ha hk).mapping?_eq_some_iff.2 ⟨mem_joined.2 (.inl rfl), ha.1.contains_mapping.2 hr⟩
  unfold route?
  rw [hm, ← bus.taking_owner? r.owner]
  rfl

/-- All other addresses go where they went. -/
theorem mapping?_joined_of_not_holds (h : bus.WellMapped) {r : Registration δ} (ha : bus.Admits r) (hk : bus.Knows r)
    {addr : UInt32} (hr : ¬r.Holds addr) : (bus.joined r).mapping? addr = bus.mapping? addr := by
  refine Option.ext fun m => ?_
  rw [(h.joined ha hk).mapping?_eq_some_iff, h.mapping?_eq_some_iff, mem_joined]
  constructor
  · rintro ⟨rfl | hm, hc⟩
    · exact absurd (ha.1.contains_mapping.1 hc) hr
    · exact ⟨hm, hc⟩
  · rintro ⟨hm, hc⟩
    exact ⟨.inr hm, hc⟩

theorem route?_joined_of_not_holds (h : bus.WellMapped) {r : Registration δ} (ha : bus.Admits r) (hk : bus.Knows r)
    {addr : UInt32} (hr : ¬r.Holds addr) : (bus.joined r).route? addr = bus.route? addr := by
  unfold route?
  rw [h.mapping?_joined_of_not_holds ha hk hr]
  refine Option.map_congr fun m hm => ?_
  have hd := bus.taking_device? r.owner (h.owned m (mapping?_sound hm).1)
  simp only [Prod.mk.injEq, true_and]
  exact hd

end WellMapped

theorem Registered.wellMapped (h : bus.Registered) : bus.WellMapped := by
  induction h with
  | new memory => exact ⟨.nil, .nil, by rintro _ ⟨⟩, by rintro _ ⟨⟩, by rintro _ ⟨⟩⟩
  | attach d _ ih => exact ih.taking (.new d)
  | register r _ hk ih => exact ih.registered hk

/-! ### Many registrations -/

theorem Knows.registered {q : Registration δ} (hq : bus.Knows q) (h : bus.WellMapped) (r : Registration δ) :
    (bus.registered r).Knows q := by
  intro number ho
  have hlt := hq number ho
  rcases h.registered_eq r with ⟨-, he⟩ | ⟨-, he⟩
  · rw [he]
    exact Nat.lt_of_lt_of_le hlt (bus.size_le_taking r.owner)
  · rw [he]
    exact hlt

theorem Knows.owner?_registered {q : Registration δ} (hq : bus.Knows q) (h : bus.WellMapped) (r : Registration δ) :
    (bus.registered r).owner? q.owner = bus.owner? q.owner := by
  cases ho : q.owner with
  | new d => rfl
  | known number =>
    rcases h.registered_eq r with ⟨-, he⟩ | ⟨-, he⟩
    · rw [he]
      exact bus.taking_device? r.owner (hq number ho)
    · rw [he]

namespace WellMapped

/-- A registration does not stand in the way of one that shares no address with it. -/
theorem admits_registered (h : bus.WellMapped) {r q : Registration δ} (hrq : r.Apart q) :
    (bus.registered r).Admits q ↔ bus.Admits q := by
  rcases h.registered_eq r with ⟨ha, he⟩ | ⟨-, he⟩
  · rw [he]
    refine and_congr_right fun _ => ⟨fun hfree m hm => hfree m (mem_joined.2 (.inr hm)), fun hfree m hm addr hboth => ?_⟩
    rcases mem_joined.1 hm with rfl | hm
    · exact hrq addr ⟨ha.1.contains_mapping.1 hboth.1, hboth.2⟩
    · exact hfree m hm addr hboth
  · rw [he]

theorem route?_registered_of_not_holds (h : bus.WellMapped) {r : Registration δ} (hk : bus.Knows r) {addr : UInt32}
    (hr : bus.Admits r → ¬r.Holds addr) : (bus.registered r).route? addr = bus.route? addr := by
  rcases h.registered_eq r with ⟨ha, he⟩ | ⟨-, he⟩
  · rw [he]
    exact h.route?_joined_of_not_holds ha hk (hr ha)
  · rw [he]

/-- An address that no admitted range of a list holds goes where it went. -/
theorem route?_registerAll_of_not_holds (h : bus.WellMapped) {rs : List (Registration δ)}
    (hrs : rs.Pairwise Registration.Apart) (hk : ∀ r ∈ rs, bus.Knows r) {addr : UInt32}
    (hr : ∀ r ∈ rs, bus.Admits r → ¬r.Holds addr) : (bus.registerAll rs).route? addr = bus.route? addr := by
  induction rs generalizing bus with
  | nil => rfl
  | cons r rs ih =>
    obtain ⟨hapart, hrs⟩ := List.pairwise_cons.1 hrs
    obtain ⟨hkr, hk⟩ := List.forall_mem_cons.1 hk
    obtain ⟨hr₀, hr⟩ := List.forall_mem_cons.1 hr
    rw [← h.route?_registered_of_not_holds hkr hr₀]
    refine ih (h.registered hkr) hrs (fun q hq => (hk q hq).registered h r) fun q hq ha => ?_
    exact hr q hq ((h.admits_registered (hapart q hq)).1 ha)

/-- An address of an admitted range of a list goes to its device. -/
theorem route?_registerAll_of_holds (h : bus.WellMapped) {rs : List (Registration δ)}
    (hrs : rs.Pairwise Registration.Apart) (hk : ∀ r ∈ rs, bus.Knows r) {q : Registration δ} (hq : q ∈ rs)
    (ha : bus.Admits q) {addr : UInt32} (hr : q.Holds addr) :
    (bus.registerAll rs).route? addr = some (q.base, q.base + q.len, bus.owner? q.owner) := by
  induction rs generalizing bus with
  | nil => cases hq
  | cons r rs ih =>
    obtain ⟨hapart, htail⟩ := List.pairwise_cons.1 hrs
    obtain ⟨hkr, hkt⟩ := List.forall_mem_cons.1 hk
    have hk' : ∀ x ∈ rs, (bus.registered r).Knows x := fun x hx => (hkt x hx).registered h r
    rcases List.mem_cons.1 hq with rfl | hq
    · -- no later range holds the address
      have he : bus.registered q = bus.joined q := by
        rcases h.registered_eq q with ⟨-, he⟩ | ⟨hno, -⟩
        · exact he
        · exact absurd ha hno
      have hno : ∀ x ∈ rs, (bus.registered q).Admits x → ¬x.Holds addr :=
        fun x hx _ hx' => hapart x hx addr ⟨hr, hx'⟩
      have hrest := (h.registered hkr).route?_registerAll_of_not_holds htail hk' hno
      rw [← h.route?_joined_of_holds ha hkr hr, ← he]
      exact hrest
    · rw [← (hkt q hq).owner?_registered h r]
      exact ih (h.registered hkr) htail hk' hq ((h.admits_registered (hapart q hq)).2 ha)

/-- Ranges that share no address may be registered in any order. -/
theorem route?_registerAll_of_perm (h : bus.WellMapped) {rs rs' : List (Registration δ)} (hp : rs.Perm rs')
    (hrs : rs.Pairwise Registration.Apart) (hk : ∀ r ∈ rs, bus.Knows r) (addr : UInt32) :
    (bus.registerAll rs).route? addr = (bus.registerAll rs').route? addr := by
  have hrs' : rs'.Pairwise Registration.Apart := (hp.pairwise_iff Registration.Apart.symm).1 hrs
  have hk' : ∀ r ∈ rs', bus.Knows r := fun r hr => hk r (hp.mem_iff.2 hr)
  by_cases hheld : ∃ q ∈ rs, bus.Admits q ∧ q.Holds addr
  · obtain ⟨q, hq, ha, hr⟩ := hheld
    rw [h.route?_registerAll_of_holds hrs hk hq ha hr, h.route?_registerAll_of_holds hrs' hk' (hp.mem_iff.1 hq) ha hr]
  · have hno : ∀ q ∈ rs, bus.Admits q → ¬q.Holds addr := fun q hq ha hr => hheld ⟨q, hq, ha, hr⟩
    rw [h.route?_registerAll_of_not_holds hrs hk hno,
      h.route?_registerAll_of_not_holds hrs' hk' fun q hq => hno q (hp.mem_iff.2 hq)]

end WellMapped

/-- Whatever has been registered, with success or without: the mappings are sorted, disjoint, not empty and inside the
address space, and halving finds the only one of them that holds an address.  A further registration succeeds exactly if
its range fits and meets none of them, and it then changes the routes of its own addresses alone; if it fails it changes
nothing.  The routes after ranges that share no address do not depend on their order. -/
theorem registrations_route (h : bus.Registered) :
    bus.WellMapped ∧
    (∀ addr, (∀ m, bus.mapping? addr = some m ↔ m ∈ bus.mappings ∧ m.contains addr = true) ∧
      (bus.mapping? addr = none ↔ ∀ m ∈ bus.mappings, m.contains addr = false)) ∧
    (∀ r, (∃ bus', bus.register r = .ok bus') ↔ bus.Admits r) ∧
    (∀ r e, bus.register r = .error e → bus.registered r = bus) ∧
    (∀ r bus', bus.Knows r → bus.register r = .ok bus' → ∀ addr,
      (r.Holds addr → bus'.route? addr = some (r.base, r.base + r.len, bus.owner? r.owner)) ∧
      (¬r.Holds addr → bus'.mapping? addr = bus.mapping? addr ∧ bus'.route? addr = bus.route? addr)) ∧
    (∀ rs rs' : List (Registration δ), rs.Perm rs' → rs.Pairwise Registration.Apart → (∀ r ∈ rs, bus.Knows r) →
      ∀ addr, (bus.registerAll rs).route? addr = (bus.registerAll rs').route? addr) := by
  have hw := h.wellMapped
  refine ⟨hw, fun addr => ⟨fun m => hw.mapping?_eq_some_iff, ?_⟩, fun r => ?_, fun r e he => ?_,
    fun r bus' hk hr addr => ?_, fun rs rs' hp hrs hk addr => hw.route?_registerAll_of_perm hp hrs hk addr⟩
  · rw [Option.eq_none_iff_forall_ne_some]
    simp only [ne_eq, hw.mapping?_eq_some_iff, not_and, Bool.not_eq_true]
  · constructor
    · rintro ⟨bus', hr⟩
      exact (hw.register_ok_iff.1 hr).1
    · intro ha
      exact ⟨_, hw.register_ok_iff.2 ⟨ha, rfl⟩⟩
  · unfold DeviceBus.registered
    rw [he]
  · obtain ⟨ha, rfl⟩ := hw.register_ok_iff.1 hr
    exact ⟨hw.route?_joined_of_holds ha hk, fun hno =>
      ⟨hw.mapping?_joined_of_not_holds ha hk hno, hw.route?_joined_of_not_holds ha hk hno⟩⟩

/-- Two ranges of one device, side by side. -/
def sideBySide : DeviceBus Peripheral :=
  ({ memory := { size := 0 } } : DeviceBus Peripheral).registerAll [⟨0x30, 0x10, .new .hole⟩, ⟨0x20, 0x10, .known 0⟩]

/-- A range may begin where another ends, and may not begin one address before. -/
theorem registrations_route_sideBySide :
    sideBySide.Registered ∧ sideBySide.mapping? 0x2F = some ⟨0x20, 0x30, 0⟩ ∧ sideBySide.mapping? 0x40 = none ∧
      (∃ bus', sideBySide.register ⟨0x40, 1, .known 0⟩ = .ok bus') ∧
      ¬∃ bus', sideBySide.register ⟨0x3F, 1, .known 0⟩ = .ok bus' := by
  have hknown : DeviceBus.Knows (DeviceBus.registered ({ memory := { size := 0 } } : DeviceBus Peripheral)
      ⟨0x30, 0x10, .new .hole⟩) ⟨0x20, 0x10, .known 0⟩ := by
    rintro number ⟨⟩
    decide +kernel
  have h : sideBySide.Registered := .register _ (.register _ (.new _) (by rintro number ⟨⟩)) hknown
  have hm : sideBySide.mappings = [⟨0x20, 0x30, 0⟩, ⟨0x30, 0x40, 0⟩] := by decide +kernel
  obtain ⟨-, hlookup, hok, -⟩ := registrations_route h
  refine ⟨h, ?_, ?_, ?_, ?_⟩
  · rw [(hlookup 0x2F).1, hm]
    decide
  · rw [(hlookup 0x40).2, hm]
    decide
  · rw [hok, Admits, hm]
    have hstop : ∀ m ∈ ([⟨0x20, 0x30, 0⟩, ⟨0x30, 0x40, 0⟩] : List Mapping), m.stop.toNat ≤ 0x40 := by decide
    refine ⟨⟨by decide, by decide⟩, fun m hmem addr hboth => ?_⟩
    have hle := hstop m hmem
    have hlt := (Mapping.contains_iff.1 hboth.1).2
    have hge : 0x40 ≤ addr.toNat := hboth.2.1
    omega
  · rw [hok, Admits, hm]
    exact fun ha => ha.2 ⟨0x30, 0x40, 0⟩ (by decide) 0x3F ⟨by decide, by decide, by decide⟩

end DeviceBus

end H8S
