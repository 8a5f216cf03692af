import H8S.Board
import H8S.Proofs.DeviceIsolation

/-!
# The layout of a board

A board maps its parts one after the other and then fills the gaps that they leave in the register area.  Parts can be mapped
exactly if their ranges fit and share no address (`Board.mapParts_ok_iff`).  The gaps are found by one sweep over the sorted
ranges; they are disjoint and hold just the addresses that no range holds (`Board.mem_gaps_iff`, `Board.gaps_apart`), so to
map them never fails.
-/

namespace H8S

namespace Board

/-! ### The sweep -/

/-- A range given by its ends holds a place. -/
def Within (r : Nat × Nat) (a : Nat) : Prop := r.1 ≤ a ∧ a < r.2

variable {stop cursor : Nat} {ranges : List (Nat × Nat)}

/-- A gap is not empty, and lies where the sweep passed. -/
private theorem gapsFrom_bounds (hin : ∀ r ∈ ranges, r.1 ≤ stop) :
    ∀ g ∈ gapsFrom stop cursor ranges, cursor ≤ g.1 ∧ g.1 < g.2 ∧ g.2 ≤ stop := by
  induction ranges generalizing cursor with
  | nil =>
    intro g hg
    unfold gapsFrom at hg
    split at hg
    · rw [List.mem_singleton] at hg
      subst hg
      exact ⟨Nat.le_refl _, ‹_›, Nat.le_refl _⟩
    · cases hg
  | cons r rs ih =>
    obtain ⟨first, last⟩ := r
    obtain ⟨hfirst, hin⟩ := List.forall_mem_cons.1 hin
    intro g hg
    rcases List.mem_append.1 hg with hg | hg
    · split at hg
      · rw [List.mem_singleton] at hg
        subst hg
        exact ⟨Nat.le_refl _, ‹_›, hfirst⟩
      · cases hg
    · have h := ih hin g hg
      omega

/-- The places in the gaps are those from the cursor on that no range holds. -/
private theorem gapsFrom_within (hsorted : ranges.Pairwise fun r q => r.1 ≤ q.1) (hin : ∀ r ∈ ranges, r.1 ≤ stop) (a : Nat) :
    (∃ g ∈ gapsFrom stop cursor ranges, Within g a) ↔ cursor ≤ a ∧ a < stop ∧ ∀ r ∈ ranges, ¬Within r a := by
  induction ranges generalizing cursor with
  | nil =>
    unfold gapsFrom
    split
    · simp [Within]
    · simp
      omega
  | cons r rs ih =>
    obtain ⟨first, last⟩ := r
    obtain ⟨hbefore, hsorted⟩ := List.pairwise_cons.1 hsorted
    obtain ⟨hfirst, hin⟩ := List.forall_mem_cons.1 hin
    have hgap : (∃ g ∈ (if cursor < first then [(cursor, first)] else []), Within g a) ↔ cursor ≤ a ∧ a < first := by
      split
      · simp [Within]
      · simp
        omega
    -- no range that is still to come holds a place before the next one
    have hlater : a < first → ∀ q ∈ rs, ¬Within q a := fun hlt q hq hw => by
      have h := hbefore q hq
      have h' := hw.1
      simp only at h
      omega
    simp only [gapsFrom, List.mem_append, or_and_right, exists_or, hgap, ih hsorted hin, List.forall_mem_cons]
    unfold Within at hlater ⊢
    simp only at hfirst ⊢
    constructor
    · rintro (⟨h₁, h₂⟩ | ⟨h₁, h₂, h₃⟩)
      · exact ⟨h₁, by omega, by omega, hlater h₂⟩
      · exact ⟨by omega, h₂, by omega, h₃⟩
    · rintro ⟨h₁, h₂, h₃, h₄⟩
      rcases Nat.lt_or_ge a first with hlt | hge
      · exact .inl ⟨h₁, hlt⟩
      · exact .inr ⟨by omega, h₂, h₄⟩

private theorem gapsFrom_pairwise (hin : ∀ r ∈ ranges, r.1 ≤ stop) (hfull : ∀ r ∈ ranges, r.1 ≤ r.2) :
    (gapsFrom stop cursor ranges).Pairwise fun g h => g.2 ≤ h.1 := by
  induction ranges generalizing cursor with
  | nil =>
    unfold gapsFrom
    split
    · exact List.pairwise_singleton ..
    · exact .nil
  | cons r rs ih =>
    obtain ⟨first, last⟩ := r
    obtain ⟨hfirst, hin⟩ := List.forall_mem_cons.1 hin
    obtain ⟨hlast, hfull⟩ := List.forall_mem_cons.1 hfull
    refine List.pairwise_append.2 ⟨?_, ih hin hfull, ?_⟩
    · split
      · exact List.pairwise_singleton ..
      · exact .nil
    · intro g hg h hh
      have hbounds := (gapsFrom_bounds hin h hh).1
      split at hg
      · rw [List.mem_singleton] at hg
        subst hg
        simp only at hlast ⊢
        omega
      · cases hg

private theorem sorted_ranges (ranges : List (Nat × Nat)) : (ranges.mergeSort precedes).Pairwise fun r q => r.1 ≤ q.1 := by
  have htrans : ∀ a b c : Nat × Nat, precedes a b = true → precedes b c = true → precedes a c = true := by
    intro a b c hab hbc
    simp only [precedes, Bool.or_eq_true, decide_eq_true_eq, Bool.and_eq_true, beq_iff_eq] at hab hbc ⊢
    omega
  have htotal : ∀ a b : Nat × Nat, (precedes a b || precedes b a) = true := by
    intro a b
    simp only [precedes, Bool.or_eq_true, decide_eq_true_eq, Bool.and_eq_true, beq_iff_eq]
    omega
  refine (List.pairwise_mergeSort htrans htotal ranges).imp fun {a b} h => ?_
  simp only [precedes, Bool.or_eq_true, decide_eq_true_eq, Bool.and_eq_true, beq_iff_eq] at h
  omega

variable {start : Nat}

private theorem mem_swept {r : Nat × Nat} :
    r ∈ (ranges.filter fun r => start < r.2).mergeSort precedes ↔ r ∈ ranges ∧ start < r.2 := by
  rw [List.mem_mergeSort, List.mem_filter, decide_eq_true_eq]

/-- The gaps hold the places that no range holds. -/
theorem mem_gaps_iff (hin : ∀ r ∈ ranges, r.1 ≤ stop) (a : Nat) :
    (∃ g ∈ gaps start stop ranges, Within g a) ↔ start ≤ a ∧ a < stop ∧ ∀ r ∈ ranges, ¬Within r a := by
  refine (gapsFrom_within (sorted_ranges _) (fun r hr => hin r (mem_swept.1 hr).1) a).trans ?_
  refine and_congr_right fun hstart => and_congr_right fun _ => ⟨fun h r hr hw => ?_, fun h r hr => h r (mem_swept.1 hr).1⟩
  exact h r (mem_swept.2 ⟨hr, Nat.lt_of_le_of_lt hstart hw.2⟩) hw

theorem gaps_bounds (hin : ∀ r ∈ ranges, r.1 ≤ stop) : ∀ g ∈ gaps start stop ranges, start ≤ g.1 ∧ g.1 < g.2 ∧ g.2 ≤ stop :=
  gapsFrom_bounds fun r hr => hin r (mem_swept.1 hr).1

/-- No place lies in two gaps. -/
theorem gaps_apart (hin : ∀ r ∈ ranges, r.1 ≤ stop) (hfull : ∀ r ∈ ranges, r.1 ≤ r.2) :
    (gaps start stop ranges).Pairwise fun g h => g.2 ≤ h.1 :=
  gapsFrom_pairwise (fun r hr => hin r (mem_swept.1 hr).1) fun r hr => hfull r (mem_swept.1 hr).1

end Board

/-! ### Ranges mapped in turn -/

namespace DeviceBus

variable {δ : Type} {bus bus' : DeviceBus δ} {r q : Registration δ} {rs : List (Registration δ)}

/-- Ranges were mapped one after the other, all with success. -/
inductive Lays : List (Registration δ) → DeviceBus δ → DeviceBus δ → Prop where
  | nil (bus : DeviceBus δ) : Lays [] bus bus
  | cons {r : Registration δ} {rs : List (Registration δ)} {bus bus' : DeviceBus δ} :
      bus.Admits r → bus.Knows r → Lays rs (bus.joined r) bus' → Lays (r :: rs) bus bus'

/-- A range that was mapped stands in the way of those that share an address with it. -/
private theorem admits_joined (ha : bus.Admits r) : (bus.joined r).Admits q ↔ bus.Admits q ∧ r.Apart q := by
  constructor
  · rintro ⟨hfit, hfree⟩
    refine ⟨⟨hfit, fun m hm => hfree m (mem_joined.2 (.inr hm))⟩, fun addr hboth => ?_⟩
    exact hfree _ (mem_joined.2 (.inl rfl)) addr ⟨ha.1.contains_mapping.2 hboth.1, hboth.2⟩
  · rintro ⟨⟨hfit, hfree⟩, hapart⟩
    refine ⟨hfit, fun m hm addr hboth => ?_⟩
    rcases mem_joined.1 hm with rfl | hm
    · exact hapart addr ⟨ha.1.contains_mapping.1 hboth.1, hboth.2⟩
    · exact hfree m hm addr hboth

private theorem knows_joined (hq : bus.Knows q) (r : Registration δ) : (bus.joined r).Knows q :=
  fun number ho => Nat.lt_of_lt_of_le (hq number ho) (bus.size_le_taking r.owner)

/-- Ranges can be mapped in turn exactly if the bus admits each of them and no two share an address. -/
theorem exists_lays_iff (hk : ∀ r ∈ rs, bus.Knows r) :
    (∃ bus', Lays rs bus bus') ↔ (∀ r ∈ rs, bus.Admits r) ∧ rs.Pairwise Registration.Apart := by
  induction rs generalizing bus with
  | nil => simpa using ⟨bus, Lays.nil bus⟩
  | cons r rs ih =>
    obtain ⟨hkr, hk⟩ := List.forall_mem_cons.1 hk
    have hk' : ∀ q ∈ rs, (bus.joined r).Knows q := fun q hq => knows_joined (hk q hq) r
    rw [List.forall_mem_cons, List.pairwise_cons]
    constructor
    · rintro ⟨bus', _ | ⟨ha, -, hrest⟩⟩
      obtain ⟨hall, hpair⟩ := (ih hk').1 ⟨bus', hrest⟩
      exact ⟨⟨ha, fun q hq => ((admits_joined ha).1 (hall q hq)).1⟩,
        fun q hq => ((admits_joined ha).1 (hall q hq)).2, hpair⟩
    · rintro ⟨⟨ha, hall⟩, hapart, hpair⟩
      obtain ⟨bus', hrest⟩ := (ih hk').2 ⟨fun q hq => (admits_joined ha).2 ⟨hall q hq, hapart q hq⟩, hpair⟩
      exact ⟨bus', .cons ha hkr hrest⟩

namespace Lays

theorem wellMapped (h : Lays rs bus bus') (hw : bus.WellMapped) : bus'.WellMapped := by
  induction h with
  | nil => exact hw
  | cons ha hk _ ih => exact ih (hw.joined ha hk)

/-- The addresses of the new ranges are mapped, besides those that were. -/
theorem contains (h : Lays rs bus bus') (addr : UInt32) :
    (∃ m ∈ bus'.mappings, m.contains addr = true) ↔
      (∃ m ∈ bus.mappings, m.contains addr = true) ∨ ∃ r ∈ rs, r.Holds addr := by
  induction h with
  | nil => simp
  | @cons r rs bus bus' ha _ _ ih =>
    have hjoined : (∃ m ∈ (bus.joined r).mappings, m.contains addr = true) ↔
        r.Holds addr ∨ ∃ m ∈ bus.mappings, m.contains addr = true := by
      simp only [mem_joined, or_and_right, exists_or, exists_eq_left, ha.1.contains_mapping]
    rw [ih, hjoined, List.exists_mem_cons_iff, or_comm (a := r.Holds addr), or_assoc]

/-- The ranges of known devices belong to these devices. -/
theorem mem_mappings {number : Nat} (h : Lays rs bus bus') (hrs : ∀ r ∈ rs, r.owner = .known number) {m : Mapping} :
    m ∈ bus'.mappings ↔ (∃ r ∈ rs, m = r.mapping number) ∨ m ∈ bus.mappings := by
  induction h with
  | nil => simp
  | @cons r rs bus bus' ha _ _ ih =>
    obtain ⟨hr, hrs⟩ := List.forall_mem_cons.1 hrs
    have hnumber : (bus.taking r.owner).1 = number := by
      rw [hr]
      rfl
    rw [ih hrs, mem_joined, hnumber, List.exists_mem_cons_iff, or_left_comm, or_assoc]

theorem devices {number : Nat} (h : Lays rs bus bus') (hrs : ∀ r ∈ rs, r.owner = .known number) :
    bus'.devices = bus.devices := by
  induction h with
  | nil => rfl
  | @cons r rs bus bus' ha _ _ ih =>
    obtain ⟨hr, hrs⟩ := List.forall_mem_cons.1 hrs
    rw [ih hrs]
    unfold joined
    rw [hr]
    rfl

theorem rest (h : Lays rs bus bus') : bus'.busy = bus.busy ∧ bus'.memory = bus.memory := by
  induction h with
  | nil => exact ⟨rfl, rfl⟩
  | @cons r rs bus bus' _ _ _ ih =>
    have hjoined : (bus.joined r).busy = bus.busy ∧ (bus.joined r).memory = bus.memory := by
      unfold joined
      cases r.owner <;> exact ⟨rfl, rfl⟩
    exact ⟨ih.1.trans hjoined.1, ih.2.trans hjoined.2⟩

end Lays

end DeviceBus

namespace Board

open DeviceBus

variable {δ : Type} {bus bus' : DeviceBus δ} {wrap : Peripheral → δ}

private theorem bind_ok_iff {α γ : Type} {x : MapM δ α} {f : α → MapM δ γ} {c : γ} :
    (x >>= f : MapM δ γ) bus = .ok c bus' ↔ ∃ a mid, x bus = .ok a mid ∧ f a mid = .ok c bus' := by
  change EStateM.bind x f bus = _ ↔ _
  unfold EStateM.bind
  cases x bus with
  | ok a mid =>
    constructor
    · intro h
      exact ⟨a, mid, rfl, h⟩
    · rintro ⟨_, _, ⟨⟩, h⟩
      exact h
  | error e mid => simp

/-- An action that maps one range after another for the members of a list. -/
private theorem forM_ok_iff {α : Type} {f : α → MapM δ Unit} {registration : α → Registration δ} {xs : List α}
    (hf : ∀ x ∈ xs, ∀ bus bus', bus.WellMapped →
      (f x bus = .ok () bus' ↔ bus.Admits (registration x) ∧ bus' = bus.joined (registration x)))
    (hw : bus.WellMapped) (hk : ∀ x ∈ xs, bus.Knows (registration x)) :
    (xs.forM f : MapM δ Unit) bus = .ok () bus' ↔ Lays (xs.map registration) bus bus' := by
  induction xs generalizing bus with
  | nil =>
    constructor
    · rintro ⟨⟩
      exact .nil _
    · rintro ⟨⟩
      rfl
  | cons x xs ih =>
    obtain ⟨hx, hf⟩ := List.forall_mem_cons.1 hf
    obtain ⟨hkx, hk⟩ := List.forall_mem_cons.1 hk
    refine bind_ok_iff.trans ?_
    constructor
    · rintro ⟨_, mid, h₁, h₂⟩
      obtain ⟨ha, rfl⟩ := (hx bus mid hw).1 h₁
      exact .cons ha hkx ((ih hf (hw.joined ha hkx) fun y hy => knows_joined (hk y hy) _).1 h₂)
    · rintro (_ | ⟨ha, -, hrest⟩)
      refine ⟨(), _, (hx bus _ hw).2 ⟨ha, rfl⟩, ?_⟩
      exact (ih hf (hw.joined ha hkx) fun y hy => knows_joined (hk y hy) _).2 hrest

/-! ### Parts -/

/-- The registration of a part. -/
def Part.registration (wrap : Peripheral → δ) (p : Part) : Registration δ := ⟨p.base, p.len, .new (wrap p.device)⟩

/-- A part covers an address. -/
def Part.Covers (p : Part) (addr : UInt32) : Prop := p.base.toNat ≤ addr.toNat ∧ addr.toNat < p.base.toNat + p.len.toNat

private theorem knows_part (bus : DeviceBus δ) (p : Part) : bus.Knows (p.registration wrap) := by
  rintro number ⟨⟩

/-- A device that is installed has the next number. -/
private theorem install_number {base len : UInt32} {d : δ} {x : Nat × DeviceBus δ} (h : bus.install base len d = .ok x) :
    x.1 = bus.devices.size := by
  change ((bus.attach d).2.map base len (bus.attach d).1 >>= fun b => pure ((bus.attach d).1, b)) = Except.ok x at h
  cases hm : (bus.attach d).2.map base len (bus.attach d).1 with
  | error e =>
    rw [hm] at h
    cases h
  | ok b =>
    rw [hm] at h
    cases h
    rfl

private theorem mapPart_ok_iff (hw : bus.WellMapped) {p : Part} {number : Nat} :
    mapPart wrap p bus = .ok number bus' ↔
      bus.Admits (p.registration wrap) ∧ number = bus.devices.size ∧ bus' = bus.joined (p.registration wrap) := by
  have hregister : bus.register (p.registration wrap) = Prod.snd <$> bus.install p.base p.len (wrap p.device) := rfl
  unfold mapPart
  constructor
  · intro h
    cases hi : bus.install p.base p.len (wrap p.device) with
    | error e =>
      rw [hi] at h
      cases h
    | ok x =>
      rw [hi] at h
      cases h
      obtain ⟨ha, hb⟩ := hw.register_ok_iff.1 (hregister.trans (congrArg (Prod.snd <$> ·) hi))
      exact ⟨ha, install_number hi, hb⟩
  · rintro ⟨ha, rfl, rfl⟩
    have hok := hregister.symm.trans (hw.register_ok_iff.2 ⟨ha, rfl⟩)
    cases hi : bus.install p.base p.len (wrap p.device) with
    | error e =>
      rw [hi] at hok
      cases hok
    | ok x =>
      rw [hi] at hok
      obtain ⟨number, mid⟩ := x
      cases hok
      obtain rfl : number = _ := install_number hi
      rfl

/-- Parts are mapped with success exactly if their ranges are laid in turn. -/
private theorem mapParts_ok_iff (hw : bus.WellMapped) (parts : List Part) :
    (parts.forM (fun part => do let _ ← mapPart wrap part) : MapM δ Unit) bus = .ok () bus' ↔
      Lays (parts.map (Part.registration wrap)) bus bus' := by
  refine forM_ok_iff (fun p _ bus bus' hw => ?_) hw fun p _ => knows_part bus p
  refine bind_ok_iff.trans ?_
  constructor
  · rintro ⟨number, mid, h, ⟨⟩⟩
    obtain ⟨ha, -, rfl⟩ := (mapPart_ok_iff hw).1 h
    exact ⟨ha, rfl⟩
  · rintro ⟨ha, rfl⟩
    exact ⟨_, _, (mapPart_ok_iff hw).2 ⟨ha, rfl, rfl⟩, rfl⟩

/-! ### Windows -/

/-- The registration of a window on the store. -/
def windowOf (store : Nat) (gap : Nat × Nat) : Registration δ := ⟨gap.1.toUInt32, (gap.2 - gap.1).toUInt32, .known store⟩

private theorem mapWindow_ok_iff (hw : bus.WellMapped) {store : Nat} {gap : Nat × Nat} :
    mapWindow store gap.1 gap.2 bus = .ok () bus' ↔
      bus.Admits (windowOf store gap) ∧ bus' = bus.joined (windowOf store gap) := by
  have hregister : bus.register (windowOf store gap) = bus.map gap.1.toUInt32 (gap.2 - gap.1).toUInt32 store := rfl
  rw [← hw.register_ok_iff, hregister]
  unfold mapWindow
  cases bus.map gap.1.toUInt32 (gap.2 - gap.1).toUInt32 store with
  | ok mid => simp
  | error e => simp

/-! ### Boards -/

/-- The devices on the chip that a board maps, in their order. -/
def fixedParts (c : BoardConfig) : List Part :=
  optional c.dma (dmaPart c) ++ [timersPart] ++ optional c.refresh refreshPart ++
    [serialPart 0xFFFFB0 c.serialIrqOffset0, serialPart 0xFFFFB8 c.serialIrqOffset1, adcPart c, enablePart]

def holeParts (c : BoardConfig) : List Part := c.holes.map fun h => ⟨h.1, h.2, .hole⟩

def parts (c : BoardConfig) : List Part := fixedParts c ++ holeParts c

private theorem install_eq (wrap : Peripheral → δ) (c : BoardConfig) :
    ((fun _ => ()) <$> install wrap c : MapM δ Unit) =
      ((parts c).forM fun part => do let _ ← mapPart wrap part) >>= fun _ => mapStore wrap ((parts c).map Part.range) := by
  have hclaimed : optional c.dma (dmaPart c) ++ [timersPart] ++ optional c.refresh refreshPart ++
      [serialPart 0xFFFFB0 c.serialIrqOffset0, serialPart 0xFFFFB8 c.serialIrqOffset1, adcPart c] ++
        (enablePart :: c.holes.map fun h => ⟨h.1, h.2, .hole⟩) = parts c := by
    simp [parts, fixedParts, holeParts]
  unfold install
  dsimp only
  rw [hclaimed]
  simp only [parts, fixedParts, holeParts, List.forM_eq_forM, List.forM_append, List.forM_cons, List.forM_nil, bind_assoc,
    map_eq_pure_bind, pure_bind, bind_pure_unit]

/-- A board is installed with success exactly if its parts are laid in turn and then the store is mapped. -/
private theorem install_ok_iff (hw : bus.WellMapped) (c : BoardConfig) :
    (∃ board, install wrap c bus = .ok board bus') ↔
      ∃ mid, Lays ((parts c).map (Part.registration wrap)) bus mid ∧
        mapStore wrap ((parts c).map Part.range) mid = .ok () bus' := by
  have hmap : (∃ board, install wrap c bus = .ok board bus') ↔
      ((fun _ => ()) <$> install wrap c : MapM δ Unit) bus = .ok () bus' := by
    change _ ↔ EStateM.map (fun _ => ()) (install wrap c) bus = _
    unfold EStateM.map
    cases install wrap c bus <;> simp
  rw [hmap, install_eq, bind_ok_iff]
  constructor
  · rintro ⟨_, mid, h₁, h₂⟩
    exact ⟨mid, (mapParts_ok_iff hw _).1 h₁, h₂⟩
  · rintro ⟨mid, h₁, h₂⟩
    exact ⟨(), mid, (mapParts_ok_iff hw _).2 h₁, h₂⟩

/-- The holes of a board are not empty, end with the address space at the latest, and meet neither its devices nor each
other. -/
structure Admissible (c : BoardConfig) : Prop where
  nonempty : ∀ p ∈ holeParts c, p.len ≠ 0
  inside : ∀ p ∈ holeParts c, p.base.toNat + p.len.toNat ≤ Address.spaceSize
  clear : ∀ p ∈ holeParts c, ∀ q ∈ fixedParts c, ∀ addr, ¬(p.Covers addr ∧ q.Covers addr)
  apart : (holeParts c).Pairwise fun p q => ∀ addr, ¬(p.Covers addr ∧ q.Covers addr)

/-- The devices on the chip lie in the register area, one after the other. -/
private theorem fixedParts_bounds (c : BoardConfig) :
    (∀ p ∈ fixedParts c, registerArea ≤ p.base.toNat ∧ 0 < p.len.toNat ∧
      p.base.toNat + p.len.toNat ≤ Address.spaceSize) ∧
    (fixedParts c).Pairwise fun p q => p.base.toNat + p.len.toNat ≤ q.base.toNat := by
  unfold fixedParts optional dmaPart timersPart refreshPart serialPart adcPart enablePart
  cases c.dma <;> cases c.refresh <;> simp [registerArea, Address.spaceSize, TimerUnit.base, TimerUnit.length]

/-- Below the register area there are holes only. -/
theorem covered_below_iff {addr : UInt32} (h : addr.toNat < registerArea) :
    (∃ p ∈ parts c, p.Covers addr) ↔ ∃ p ∈ holeParts c, p.Covers addr := by
  constructor
  · rintro ⟨p, hp, hcovers⟩
    rcases List.mem_append.1 hp with hp | hp
    · have hlo := ((fixedParts_bounds c).1 p hp).1
      exact absurd (Nat.le_trans hlo hcovers.1) (Nat.not_le.2 h)
    · exact ⟨p, hp, hcovers⟩
  · rintro ⟨p, hp, hcovers⟩
    exact ⟨p, List.mem_append_right _ hp, hcovers⟩

/-- The parts can be laid on an empty bus exactly if the holes are admissible. -/
private theorem lays_parts_iff (hempty : bus.mappings = []) (c : BoardConfig) :
    (∃ mid, Lays ((parts c).map (Part.registration wrap)) bus mid) ↔ Admissible c := by
  obtain ⟨hbounds, hordered⟩ := fixedParts_bounds c
  have hadmits : ∀ p : Part, bus.Admits (p.registration wrap) ↔
      p.len ≠ 0 ∧ p.base.toNat + p.len.toNat ≤ Address.spaceSize := by
    intro p
    have hlen : 0 < p.len.toNat ↔ p.len ≠ 0 := by
      rw [Nat.pos_iff_ne_zero, ne_eq, ne_eq, ← UInt32.toNat_inj]
      rfl
    unfold DeviceBus.Admits
    rw [hempty]
    simpa [Registration.Fits, Part.registration] using fun _ => hlen
  have hfixed : (fixedParts c).Pairwise fun p q => ∀ addr, ¬(p.Covers addr ∧ q.Covers addr) :=
    hordered.imp fun {p q} h addr hboth => by
      have h₁ := hboth.1.2
      have h₂ := hboth.2.1
      omega
  have hknows : ∀ r ∈ (parts c).map (Part.registration wrap), bus.Knows r := by
    intro r hr
    obtain ⟨p, -, rfl⟩ := List.mem_map.1 hr
    exact knows_part bus p
  rw [exists_lays_iff hknows, List.forall_mem_map, List.pairwise_map]
  simp only [hadmits, parts, List.forall_mem_append]
  constructor
  · rintro ⟨⟨-, hholes⟩, hapart⟩
    obtain ⟨-, hpair, hcross⟩ := List.pairwise_append.1 hapart
    exact ⟨fun p hp => (hholes p hp).1, fun p hp => (hholes p hp).2,
      fun p hp q hq addr hboth => hcross q hq p hp addr hboth.symm, hpair⟩
  · intro h
    refine ⟨⟨fun p hp => ?_, fun p hp => ⟨h.nonempty p hp, h.inside p hp⟩⟩, List.pairwise_append.2 ⟨hfixed, h.apart, ?_⟩⟩
    · obtain ⟨-, hlen, hstop⟩ := hbounds p hp
      refine ⟨fun hz => ?_, hstop⟩
      rw [hz] at hlen
      cases hlen
    · exact fun q hq p hp addr hboth => h.clear p hp q hq addr hboth.symm

/-! ### The store -/

/-- What of the register area a board leaves to its store. -/
def Free (c : BoardConfig) (addr : UInt32) : Prop :=
  registerArea ≤ addr.toNat ∧ addr.toNat < Address.spaceSize ∧ ∀ p ∈ parts c, ¬p.Covers addr

/-- The windows of the store. -/
def storeGaps (c : BoardConfig) : List (Nat × Nat) := gaps registerArea Address.spaceSize ((parts c).map Part.range)

private theorem mapStore_ok_iff (hw : bus.WellMapped) (claimed : List (Nat × Nat)) :
    mapStore wrap claimed bus = .ok () bus' ↔
      Lays ((gaps registerArea Address.spaceSize claimed).map (windowOf bus.devices.size))
        (bus.attach (wrap .emptyStore)).2 bus' := by
  have hattached : (bus.attach (wrap .emptyStore)).2.WellMapped := hw.taking (.new (wrap .emptyStore))
  have hknows : ∀ g ∈ gaps registerArea Address.spaceSize claimed,
      (bus.attach (wrap .emptyStore)).2.Knows (windowOf bus.devices.size g) := by
    rintro g - number ⟨⟩
    simp [attach]
  exact forM_ok_iff (fun g _ bus bus' hw => mapWindow_ok_iff hw) hattached hknows

section Gaps

variable {c : BoardConfig}

private theorem parts_fit (hc : Admissible c) :
    ∀ p ∈ parts c, 0 < p.len.toNat ∧ p.base.toNat + p.len.toNat ≤ Address.spaceSize := by
  intro p hp
  rcases List.mem_append.1 hp with hp | hp
  · exact ((fixedParts_bounds c).1 p hp).2
  · refine ⟨Nat.pos_of_ne_zero fun hz => hc.nonempty p hp (UInt32.toNat_inj.1 hz), hc.inside p hp⟩

private theorem ranges_end (hc : Admissible c) :
    ∀ r ∈ (parts c).map Part.range, r.1 ≤ Address.spaceSize ∧ r.1 ≤ r.2 := by
  intro r hr
  obtain ⟨p, hp, rfl⟩ := List.mem_map.1 hr
  have h := (parts_fit hc p hp).2
  exact ⟨by simp only [Part.range]; omega, Nat.le_add_right _ _⟩

/-- A window covers the places of its gap. -/
private theorem windowOf_holds (hc : Admissible c) {g : Nat × Nat} (hg : g ∈ storeGaps c) (store : Nat) :
    (windowOf store g : Registration δ).Fits ∧
      ∀ addr, (windowOf store g : Registration δ).Holds addr ↔ Within g addr.toNat := by
  obtain ⟨-, hlt, hstop⟩ := gaps_bounds (fun r hr => (ranges_end hc r hr).1) g hg
  unfold Address.spaceSize at hstop
  have hbase : g.1.toUInt32.toNat = g.1 := by
    rw [Nat.toUInt32_eq, UInt32.toNat_ofNat', Nat.mod_eq_of_lt (by omega)]
  have hlen : (g.2 - g.1).toUInt32.toNat = g.2 - g.1 := by
    rw [Nat.toUInt32_eq, UInt32.toNat_ofNat', Nat.mod_eq_of_lt (by omega)]
  unfold Registration.Fits Registration.Holds Within windowOf Address.spaceSize
  simp only [hbase, hlen]
  exact ⟨by omega, fun addr => by omega⟩

/-- The windows hold just what is left free. -/
private theorem exists_window_iff (hc : Admissible c) (store : Nat) (addr : UInt32) :
    (∃ r ∈ (storeGaps c).map (windowOf store : _ → Registration δ), r.Holds addr) ↔ Free c addr := by
  have hgap : (∃ r ∈ (storeGaps c).map (windowOf store : _ → Registration δ), r.Holds addr) ↔
      ∃ g ∈ storeGaps c, Within g addr.toNat := by
    simp only [List.mem_map, exists_exists_and_eq_and]
    exact exists_congr fun g => and_congr_right fun hg => (windowOf_holds hc hg store).2 addr
  rw [hgap]
  refine (mem_gaps_iff (fun r hr => (ranges_end hc r hr).1) addr.toNat).trans ?_
  rw [List.forall_mem_map]
  rfl

/-- On a bus with the parts of a board the windows of the store can always be mapped. -/
private theorem exists_windows (hc : Admissible c) (hempty : bus.mappings = [])
    (h : Lays ((parts c).map (Part.registration wrap)) bus bus') :
    ∃ bus'', Lays ((storeGaps c).map (windowOf bus'.devices.size)) (bus'.attach (wrap .emptyStore)).2 bus'' := by
  refine (exists_lays_iff ?_).2 ⟨?_, ?_⟩
  · intro r hr
    obtain ⟨g, -, rfl⟩ := List.mem_map.1 hr
    rintro number ⟨⟩
    simp [attach]
  · intro r hr
    obtain ⟨g, hg, rfl⟩ := List.mem_map.1 hr
    refine ⟨(windowOf_holds hc hg _).1, fun m hm addr hboth => ?_⟩
    -- what is mapped is a part, and no part reaches into a gap
    have hfree := (exists_window_iff hc _ addr).1 ⟨_, hr, hboth.2⟩
    have hmapped := (h.contains addr).1 ⟨m, hm, hboth.1⟩
    rw [hempty] at hmapped
    rcases hmapped with ⟨m, hm, -⟩ | ⟨r, hr, hholds⟩
    · cases hm
    · obtain ⟨p, hp, rfl⟩ := List.mem_map.1 hr
      exact hfree.2.2 p hp hholds
  · rw [List.pairwise_map]
    have hordered : (storeGaps c).Pairwise fun g k => g.2 ≤ k.1 :=
      gaps_apart (fun r hr => (ranges_end hc r hr).1) fun r hr => (ranges_end hc r hr).2
    refine hordered.imp_of_mem fun {g k} hg hk hle addr hboth => ?_
    have h₁ := ((windowOf_holds hc hg _).2 addr).1 hboth.1
    have h₂ := ((windowOf_holds hc hk _).2 addr).1 hboth.2
    exact Nat.lt_irrefl _ (Nat.lt_of_lt_of_le h₁.2 (Nat.le_trans hle h₂.1))

end Gaps

/-- A bus after a board was installed on it: the new ranges cover the parts and what these leave free of the register area,
and of them those that are free, and no others, belong to the store. -/
structure Installed (wrap : Peripheral → δ) (c : BoardConfig) (bus bus' : DeviceBus δ) (store : Nat) : Prop where
  wellMapped : bus'.WellMapped
  busy : bus'.busy = bus.busy
  memory : bus'.memory = bus.memory
  stored : bus'.device? store = some (wrap .emptyStore)
  mapped : ∀ addr, (∃ m ∈ bus'.mappings, m.contains addr = true) ↔ Free c addr ∨ ∃ p ∈ parts c, p.Covers addr
  windows : ∀ m ∈ bus'.mappings, ∀ addr, m.contains addr = true → (m.device = store ↔ Free c addr)

/-- A board can be installed on a bus without devices exactly if its holes are admissible. -/
theorem exists_installed_iff (hw : bus.WellMapped) (hempty : bus.mappings = []) (c : BoardConfig) :
    (∃ board bus', install wrap c bus = .ok board bus') ↔ Admissible c := by
  rw [exists_comm]
  simp only [install_ok_iff hw]
  constructor
  · rintro ⟨bus', mid, h, -⟩
    exact (lays_parts_iff hempty c).1 ⟨mid, h⟩
  · intro hc
    obtain ⟨mid, h⟩ : ∃ mid, Lays ((parts c).map (Part.registration wrap)) bus mid := (lays_parts_iff hempty c).2 hc
    obtain ⟨bus', h'⟩ := exists_windows hc hempty h
    exact ⟨bus', mid, h, (mapStore_ok_iff (h.wellMapped hw) _).2 h'⟩

theorem install_ok (hw : bus.WellMapped) (hempty : bus.mappings = []) {c : BoardConfig} {board : Board}
    (h : install wrap c bus = .ok board bus') : ∃ store, Installed wrap c bus bus' store := by
  obtain ⟨mid, hparts, hstore⟩ := (install_ok_iff hw c).1 ⟨board, h⟩
  have hc := (lays_parts_iff hempty c).1 ⟨mid, hparts⟩
  have hmid := hparts.wellMapped hw
  have hwindows : Lays ((storeGaps c).map (windowOf mid.devices.size)) (mid.attach (wrap .emptyStore)).2 bus' :=
    (mapStore_ok_iff hmid _).1 hstore
  have hknown : ∀ r ∈ (storeGaps c).map (windowOf mid.devices.size : _ → Registration δ),
      r.owner = .known mid.devices.size := by
    intro r hr
    obtain ⟨g, -, rfl⟩ := List.mem_map.1 hr
    rfl
  have hcovered : ∀ addr, (∃ m ∈ mid.mappings, m.contains addr = true) ↔ ∃ p ∈ parts c, p.Covers addr := by
    intro addr
    rw [hparts.contains addr, hempty]
    simp only [List.not_mem_nil, false_and, exists_false, false_or, List.mem_map, exists_exists_and_eq_and]
    rfl
  refine ⟨mid.devices.size, ?_⟩
  exact {
    wellMapped := hwindows.wellMapped (hmid.taking (.new (wrap .emptyStore)))
    busy := hwindows.rest.1.trans hparts.rest.1
    memory := hwindows.rest.2.trans hparts.rest.2
    stored := by
      unfold device?
      rw [hwindows.devices hknown]
      simp [attach]
    mapped := fun addr => by
      rw [hwindows.contains addr, exists_window_iff hc, or_comm]
      exact or_congr_right (hcovered addr)
    windows := fun m hm addr hcontains => by
      rcases (hwindows.mem_mappings hknown).1 hm with ⟨r, hr, rfl⟩ | hm
      · obtain ⟨g, hg, rfl⟩ := List.mem_map.1 hr
        have hholds := (windowOf_holds hc hg mid.devices.size).1.contains_mapping.1 hcontains
        exact iff_of_true rfl ((exists_window_iff hc mid.devices.size addr).1 ⟨_, hr, hholds⟩)
      · obtain ⟨p, hp, hcovers⟩ := (hcovered addr).1 ⟨m, hm, hcontains⟩
        exact iff_of_false (Nat.ne_of_lt (hmid.owned m hm)) fun hfree => hfree.2.2 p hp hcovers }

end Board

end H8S
