import H8S.Proofs.BlockCopies
import H8S.Proofs.DeviceIsolation
import H8S.Proofs.TickSlicing
import H8S.Proofs.WordNumbers

/-!
# Block transfers

A write to the control register of the DMA controller arms a transfer if it describes one that is supported, and later
writes that arm none leave it as it is (`BlockTransfer.armed_written`).  A transfer is kept as words and strides modulo their
size; as numbers its addresses run along two tracks (`Course`), and as no track is long enough to come round, they are the
same addresses (`Track.addr_inj`).

When the next tick comes to the controller, it is disarmed, and its program makes the copies of its course and then requests
its interrupts.  In plain memory that is `Memory.copied` for the whole course, and up to the first address where nobody
answers for a course that runs out of it, which is what the tick reports.
-/

namespace H8S

/-! ### Courses -/

/-- The addresses of one side of a transfer, as numbers: they may run below zero or out of the address space. -/
structure Track where
  first : Nat
  step : Int
  first_lt : first < Address.spaceSize
  step_le : step.natAbs ≤ 1

namespace Track

variable {t u : Track} {i j : Nat}

def place (t : Track) (i : Nat) : Int := t.first + i * t.step

/-- The word that stands for a place. -/
def addr (t : Track) (i : Nat) : UInt32 := .ofInt (t.place i)

theorem addr_zero (t : Track) : t.addr 0 = .ofNat t.first := by
  have hplace : t.place 0 = t.first := by
    unfold place
    omega
  have hlt : (t.first : Int) < 2 ^ 32 := by
    have hfirst := t.first_lt
    unfold Address.spaceSize at hfirst
    omega
  unfold addr UInt32.ofInt
  rw [hplace, Int.emod_eq_of_lt (Int.natCast_nonneg _) hlt, Int.toNat_natCast]

theorem addr_succ (t : Track) (i : Nat) : t.addr (i + 1) = t.addr i + .ofInt t.step := by
  unfold addr
  rw [← UInt32.ofInt_add]
  congr 1
  unfold place
  push_cast
  ring

theorem place_bounds (t : Track) (i : Nat) : -(i : Int) ≤ t.place i ∧ t.place i < Address.spaceSize + i := by
  have hfirst := t.first_lt
  have hstep := t.step_le
  unfold place
  obtain h | h | h : t.step = -1 ∨ t.step = 0 ∨ t.step = 1 := by omega
  all_goals
    rw [h]
    omega

theorem addr_toNat (t : Track) (hi : i < 2 ^ 16) :
    ((t.addr i).toNat : Int) = if t.place i < 0 then 2 ^ 32 + t.place i else t.place i := by
  have hb := t.place_bounds i
  unfold Address.spaceSize at hb
  have he : (t.addr i).toNat = (t.place i % 2 ^ 32).toNat % 2 ^ 32 := by
    unfold addr UInt32.ofInt
    rw [UInt32.toNat_ofNat']
  rw [he]
  split <;> omega

/-- Two tracks meet only where their numbers do. -/
theorem addr_inj (hi : i < 2 ^ 16) (hj : j < 2 ^ 16) : t.addr i = u.addr j ↔ t.place i = u.place j := by
  have ht := t.place_bounds i
  have hu := u.place_bounds j
  unfold Address.spaceSize at ht hu
  constructor
  · intro h
    have h₁ := t.addr_toNat hi
    have h₂ := u.addr_toNat hj
    rw [h] at h₁
    split at h₁ <;> split at h₂ <;> omega
  · exact congrArg UInt32.ofInt

theorem place_inj (h : t.step ≠ 0) : t.place i = t.place j ↔ i = j := by
  unfold place
  rw [Int.add_right_inj, Int.mul_eq_mul_right_iff h, Int.natCast_inj]

end Track

/-- The bytes of a transfer, each from its place on one track to its place on the other, and what is requested after them. -/
structure Course where
  source : Track
  destination : Track
  count : Nat
  interruptA : Bool
  interruptB : Bool
  count_lt : count < 2 ^ 16

namespace Course

/-- The course as the controller keeps it. -/
def transfer (c : Course) : Transfer where
  src := c.source.addr 0
  dst := c.destination.addr 0
  count := c.count
  srcStride := .ofInt c.source.step
  dstStride := .ofInt c.destination.step
  interruptA := c.interruptA
  interruptB := c.interruptB

/-- The copy of one byte. -/
def request (c : Course) (i : Nat) : TickRequest := .copy (c.source.addr i) (c.destination.addr i)

/-- No byte is copied to a place that another comes from. -/
def Disjoint (c : Course) : Prop := ∀ i < c.count, ∀ j < c.count, c.source.place i ≠ c.destination.place j

private theorem copies_eq (c : Course) (n i : Nat) :
    Transfer.copies (.ofInt c.source.step) (.ofInt c.destination.step) n (c.source.addr i) (c.destination.addr i) =
      (List.range' i n).map c.request := by
  induction n generalizing i with
  | zero => rfl
  | succ n ih =>
    rw [Transfer.copies, ← Track.addr_succ, ← Track.addr_succ, ih]
    rfl

theorem copies_transfer (c : Course) :
    Transfer.copies c.transfer.srcStride c.transfer.dstStride c.transfer.count c.transfer.src c.transfer.dst =
      (List.range c.count).map c.request := by
  rw [List.range_eq_range']
  exact c.copies_eq c.count 0

end Course

/-! ### Arming -/

namespace BlockTransfer

variable {d e : BlockTransfer}

/-- The control registers enable both channels for a full-address transfer of bytes. -/
structure Arms (a b : UInt8) : Prop where
  enabledA : a &&& 0x80 ≠ 0
  mode : a &&& 7 = 6
  bytes : a &&& 0x40 = 0
  enabledB : b &&& 0x80 ≠ 0
  source : b &&& 7 = 0

theorem supports_iff {a b : UInt8} : supports a b = true ↔ Arms a b := by
  unfold supports
  simp only [Bool.and_eq_true, bne_iff_ne, beq_iff_eq]
  constructor
  · rintro ⟨⟨⟨⟨h₁, h₂⟩, h₃⟩, h₄⟩, h₅⟩
    exact ⟨h₁, h₂, h₃, h₄, h₅⟩
  · rintro ⟨h₁, h₂, h₃, h₄, h₅⟩
    exact ⟨⟨⟨⟨h₁, h₂⟩, h₃⟩, h₄⟩, h₅⟩

instance (a b : UInt8) : Decidable (Arms a b) := decidable_of_iff _ supports_iff

/-- The step that bits 4 and 5 of a control register select. -/
def step (control : UInt8) : Int :=
  match control.toNat / 16 % 4 with
  | 1 => 1
  | 3 => -1
  | _ => 0

theorem step_le (control : UInt8) : (step control).natAbs ≤ 1 := by
  unfold step
  split <;> decide

theorem stride_eq (control : UInt8) : Transfer.stride control = .ofInt (step control) := by
  have he : ((control >>> 4) &&& 3).toNat = control.toNat / 16 % 4 := by
    rw [UInt8.toNat_and, UInt8.toNat_shiftRight]
    exact (Nat.and_two_pow_sub_one_eq_mod _ 2).trans (by rw [Nat.shiftRight_eq_div_pow]; rfl)
  unfold Transfer.stride step
  rw [he]
  generalize control.toNat / 16 % 4 = bits
  match bits with
  | 0 => rfl
  | 1 => rfl
  | 2 => rfl
  | 3 => rfl
  | _ + 4 => rfl

/-- What a register holds. -/
def reg (d : BlockTransfer) (i : Nat) : UInt8 := d.regs[i]?.getD 0

theorem reg_eq (d : BlockTransfer) (i : Fin 16) : d.reg i = getElem d.regs i i.isLt := by
  simp [reg]

/-- The number in three registers, the highest first. -/
def number (d : BlockTransfer) (at1 at2 at3 : Nat) : Nat :=
  (d.reg at1).toNat * 65536 + (d.reg at2).toNat * 256 + (d.reg at3).toNat

theorem number_lt (d : BlockTransfer) (at1 at2 at3 : Nat) : d.number at1 at2 at3 < Address.spaceSize := by
  have h₁ := (d.reg at1).toNat_lt
  have h₂ := (d.reg at2).toNat_lt
  have h₃ := (d.reg at3).toNat_lt
  unfold number Address.spaceSize
  omega

private theorem bytes_toNat (hi mid lo : UInt8) :
    (hi.toUInt32 <<< 16 ||| mid.toUInt32 <<< 8 ||| lo.toUInt32).toNat =
      hi.toNat * 65536 + mid.toNat * 256 + lo.toNat := by
  have h₁ := hi.toNat_lt
  have h₂ := mid.toNat_lt
  have h₃ : lo.toUInt32.toNat < 2 ^ 8 := lo.toNat_lt
  have hhigh : (hi.toUInt32 <<< 16).toNat = 2 ^ 16 * hi.toNat := by
    simp [UInt32.toNat_shiftLeft, Nat.shiftLeft_eq]
    omega
  have hmiddle : (mid.toUInt32 <<< 8).toNat = 2 ^ 8 * mid.toNat := by
    simp [UInt32.toNat_shiftLeft, Nat.shiftLeft_eq]
    omega
  have hboth : (hi.toUInt32 <<< 16 ||| mid.toUInt32 <<< 8).toNat = 2 ^ 8 * (2 ^ 8 * hi.toNat + mid.toNat) := by
    rw [Alu.or_toNat hhigh (by omega)]
    omega
  rw [Alu.or_toNat hboth h₃, hboth, UInt8.toNat_toUInt32]
  omega

theorem address_eq (d : BlockTransfer) (at1 at2 at3 : Fin 16) : d.address at1 at2 at3 = .ofNat (d.number at1 at2 at3) := by
  apply UInt32.toNat_inj.1
  rw [UInt32.toNat_ofNat_of_lt' (Nat.lt_trans (d.number_lt at1 at2 at3) (by decide)), number, reg_eq, reg_eq, reg_eq]
  exact bytes_toNat _ _ _

/-- The course that a write to the control register of channel A describes. -/
def course (d : BlockTransfer) (v : UInt8) : Course where
  source := ⟨d.number 1 2 3, step v, d.number_lt 1 2 3, step_le v⟩
  destination := ⟨d.number 9 10 11, step (d.reg 15), d.number_lt 9 10 11, step_le _⟩
  count := (d.reg 4).toNat * 256 + (d.reg 5).toNat
  interruptA := v &&& 0x08 != 0
  interruptB := d.reg 15 &&& 0x08 != 0
  count_lt := by
    have h₁ := (d.reg 4).toNat_lt
    have h₂ := (d.reg 5).toNat_lt
    omega

theorem described_eq (d : BlockTransfer) : d.described =
    { src := .ofNat (d.number 1 2 3), dst := .ofNat (d.number 9 10 11), count := (d.reg 4).toNat * 256 + (d.reg 5).toNat,
      srcStride := .ofInt (step (d.reg 7)), dstStride := .ofInt (step (d.reg 15)),
      interruptA := d.reg 7 &&& 0x08 != 0, interruptB := d.reg 15 &&& 0x08 != 0 } := by
  have hreg : ∀ i : Fin 16, d.regs[i] = d.reg i := fun i => (d.reg_eq i).symm
  have hcount : (wordOf d.regs[4] d.regs[5]).toNat = (d.reg 4).toNat * 256 + (d.reg 5).toNat := Memory.wordOf_toNat _ _
  unfold described
  rw [address_eq, address_eq, stride_eq, stride_eq, hreg, hreg, hcount]
  rfl

/-- What is described after a write to the control register of channel A. -/
private theorem described_of_control {v : UInt8} (hcontrol : e.reg 7 = v) (hkept : ∀ i, i ≠ 7 → e.reg i = d.reg i) :
    e.described = (d.course v).transfer := by
  have hnumber : ∀ at1 at2 at3, at1 ≠ 7 → at2 ≠ 7 → at3 ≠ 7 → e.number at1 at2 at3 = d.number at1 at2 at3 := by
    intro at1 at2 at3 h₁ h₂ h₃
    unfold number
    rw [hkept at1 h₁, hkept at2 h₂, hkept at3 h₃]
  rw [described_eq, hcontrol, hnumber 1 2 3 (by decide) (by decide) (by decide),
    hnumber 9 10 11 (by decide) (by decide) (by decide), hkept 4 (by decide), hkept 5 (by decide), hkept 15 (by decide)]
  unfold Course.transfer
  rw [Track.addr_zero, Track.addr_zero]
  rfl

/-- A write arms a transfer exactly if it is to the control register of channel A and enables one, and no other write touches
what is armed. -/
theorem armed_write8 (d : BlockTransfer) (addr : UInt32) (v : UInt8) :
    (d.write8 addr v).armed =
      if addr.toNat % 16 = 7 ∧ Arms v (d.reg 15) then some (d.course v).transfer else d.armed := by
  by_cases haddr : addr.toNat % 16 = 7
  · have hcontrol : ({ d with regs := d.regs.set controlA v } : BlockTransfer).reg 7 = v :=
      (reg_eq _ controlA).trans (Vector.getElem_set_self _)
    have hkept : ∀ i, i ≠ 7 → ({ d with regs := d.regs.set controlA v } : BlockTransfer).reg i = d.reg i := by
      intro i hi
      have hne : (controlA : Nat) ≠ i := fun h => hi h.symm
      unfold reg
      rw [Vector.getElem?_set_ne controlA.isLt hne]
    have hb : (d.regs.set controlA v)[controlB] = d.reg 15 := (reg_eq _ controlB).symm.trans (hkept 15 (by decide))
    have hreg : register addr = controlA := Fin.ext haddr
    unfold write8
    simp only [hreg, hb, supports_iff, haddr, true_and]
    by_cases harms : Arms v (d.reg 15)
    · rw [if_pos harms, if_pos harms, described_of_control hcontrol hkept]
    · rw [if_neg harms, if_neg harms]
  · have hreg : register addr ≠ controlA := fun h => haddr (congrArg Fin.val h)
    unfold write8
    rw [if_neg fun h => hreg h.1, if_neg fun h => haddr h.1]

/-- The controller after some writes. -/
def written (d : BlockTransfer) (writes : List (UInt32 × UInt8)) : BlockTransfer :=
  writes.foldl (fun d w => d.write8 w.1 w.2) d

/-- None of some writes arms a transfer. -/
def Quiet : BlockTransfer → List (UInt32 × UInt8) → Prop
  | _, [] => True
  | d, w :: writes => ¬(w.1.toNat % 16 = 7 ∧ Arms w.2 (d.reg 15)) ∧ Quiet (d.write8 w.1 w.2) writes

theorem armed_written {writes : List (UInt32 × UInt8)} (h : d.Quiet writes) : (d.written writes).armed = d.armed := by
  induction writes generalizing d with
  | nil => rfl
  | cons w writes ih =>
    obtain ⟨hw, hrest⟩ := h
    have hlast : (d.written (w :: writes)).armed = (d.write8 w.1 w.2).armed := ih hrest
    rw [hlast, armed_write8, if_neg hw]

theorem irqOffset_written (d : BlockTransfer) (writes : List (UInt32 × UInt8)) :
    (d.written writes).irqOffset = d.irqOffset := by
  induction writes generalizing d with
  | nil => rfl
  | cons w writes ih =>
    refine (ih (d.write8 w.1 w.2)).trans ?_
    unfold write8
    dsimp only
    split <;> rfl

/-! ### The tick of the controller -/

/-- The controller with nothing armed. -/
def disarmed (e : BlockTransfer) : BlockTransfer := { e with armed := none }

/-- The interrupts at the end of a course. -/
def ended (e : BlockTransfer) (c : Course) : InterruptSet := TickRequest.interrupts (e.endInterrupts c.transfer)

theorem tick_armed {c : Course} (h : e.armed = some c.transfer) (now : UInt64) :
    e.tick now = (e.disarmed, (List.range c.count).map c.request ++ e.endInterrupts c.transfer) := by
  unfold tick
  rw [h, ← c.copies_transfer]
  rfl

theorem contains_ended (e : BlockTransfer) (c : Course) {n : UInt8} (hn : n < 64) :
    (e.ended c).contains n = true ↔
      c.interruptA = true ∧ n = 44 + e.irqOffset ∨ c.interruptB = true ∧ n = 45 + e.irqOffset := by
  unfold ended
  rw [TickRequest.contains_interrupts hn]
  unfold endInterrupts
  rw [List.mem_append]
  show _ ∈ (if c.interruptA = true then _ else _) ∨ _ ∈ (if c.interruptB = true then _ else _) ↔ _
  cases c.interruptA <;> cases c.interruptB <;> simp

theorem endInterrupts_only (e : BlockTransfer) (t : Transfer) : ∀ r ∈ e.endInterrupts t, ∃ n, r = .interrupt n := by
  intro r hr
  unfold endInterrupts at hr
  rcases List.mem_append.1 hr with hr | hr
  · split at hr
    · exact ⟨_, List.mem_singleton.1 hr⟩
    · cases hr
  · split at hr
    · exact ⟨_, List.mem_singleton.1 hr⟩
    · cases hr

end BlockTransfer

/-! ### Copies on a bus -/

namespace Course

variable {δ : Type} {bus bus' : DeviceBus δ} {c : Course} {i : Nat} {fault : Fault}

/-- Both places of a byte lie in the memory, and no device is in front of it. -/
def Plain (c : Course) (bus : DeviceBus δ) (i : Nat) : Prop :=
  bus.Serves (c.source.addr i) .memory ∧ bus.Serves (c.destination.addr i) .memory

/-- Nobody answers where a byte comes from, or else where it goes. -/
inductive Stops (c : Course) (bus : DeviceBus δ) (i : Nat) : Fault → Prop where
  | reading : bus.Serves (c.source.addr i) .nobody → Stops c bus i (.outOfRange (c.source.addr i) ⟨.read, 8⟩)
  | writing : bus.Serves (c.source.addr i) .memory → bus.Serves (c.destination.addr i) .nobody →
      Stops c bus i (.outOfRange (c.destination.addr i) ⟨.write, 8⟩)

end Course

namespace DeviceBus

variable {δ : Type} {bus bus' : DeviceBus δ} {m : Mapping} {c : Course} {i k : Nat} {fault : Fault}
  {raised : InterruptSet} {rest : List TickRequest}

namespace SameLayout

theorem plain (h : SameLayout bus bus') (hp : c.Plain bus i) : c.Plain bus' i :=
  ⟨h.memory.2 hp.1, h.memory.2 hp.2⟩

theorem stops (h : SameLayout bus bus') (hs : c.Stops bus i fault) : c.Stops bus' i fault := by
  cases hs with
  | reading hn => exact .reading (h.nobody.2 hn)
  | writing hm hn => exact .writing (h.memory.2 hm) (h.nobody.2 hn)

end SameLayout

/-- The bus after some bytes of a course were copied in its memory. -/
def copied (bus : DeviceBus δ) (c : Course) (k : Nat) : DeviceBus δ :=
  { bus with memory := bus.memory.copied c.source.addr c.destination.addr k }

theorem sameLayout_copied (bus : DeviceBus δ) (c : Course) (k : Nat) : SameLayout bus (bus.copied c k) :=
  ⟨rfl, rfl, Memory.size_copied ..⟩

/-- The bus while a device is out. -/
theorem sameLayout_out (bus : DeviceBus δ) (m : Mapping) : SameLayout bus { bus with busy := some m.base } := ⟨rfl, rfl, rfl⟩

variable [Device δ] {d : δ} {requests : List TickRequest} {last : TickProgram δ}

/-- The program of a device goes on by what came of a read. -/
private theorem perform_read8 {addr : UInt32} {next : Except Fault UInt8 → TickProgram δ}
    {r : EStateM.Result Fault (DeviceBus δ) UInt8} (h : read8 addr bus = r) :
    perform m (.read8 addr next) raised bus = perform m (next (verdict r)) raised (outcome r) := by
  rw [← h]
  rfl

private theorem perform_write8 {addr : UInt32} {b : UInt8} {next : Except Fault Unit → TickProgram δ}
    {r : EStateM.Result Fault (DeviceBus δ) Unit} (h : write8 addr b bus = r) :
    perform m (.write8 addr b next) raised bus = perform m (next (verdict r)) raised (outcome r) := by
  rw [← h]
  rfl

/-- After a copy the program goes on. -/
private theorem perform_copy {src dst : UInt32} {b : UInt8} {mid : DeviceBus δ} (hr : read8 src bus = .ok b mid)
    (hw : write8 dst b mid = .ok () bus') :
    perform m (.requesting d (.copy src dst :: requests) last) raised bus =
      perform m (.requesting d requests last) raised bus' :=
  (perform_read8 hr).trans (perform_write8 hw)

/-- A copy that fails ends it, as the device is then. -/
private theorem perform_copy_fails {src dst : UInt32}
    (h : read8 src bus = .error fault bus' ∨ ∃ b mid, read8 src bus = .ok b mid ∧ write8 dst b mid = .error fault bus') :
    perform m (.requesting d (.copy src dst :: requests) last) raised bus = .error fault (bus'.reopened m d) := by
  rcases h with hr | ⟨b, mid, hr, hw⟩
  · exact perform_read8 hr
  · exact (perform_read8 hr).trans (perform_write8 hw)

/-- A byte in plain memory is copied. -/
private theorem perform_plain (hw : bus.WellMapped) (h : c.Plain bus i) :
    perform m (.requesting d (c.request i :: requests) last) raised bus =
      perform m (.requesting d requests last) raised
        { bus with memory := bus.memory.store (c.destination.addr i) (bus.memory.get (c.source.addr i)) } :=
  perform_copy (read8_of_serves hw h.1) (write8_of_serves hw h.2 _)

/-- A byte that nobody answers for ends the program. -/
private theorem perform_stops (hw : bus.WellMapped) (h : c.Stops bus i fault) :
    perform m (.requesting d (c.request i :: requests) last) raised bus = .error fault (bus.reopened m d) := by
  refine perform_copy_fails ?_
  cases h with
  | reading hn => exact .inl (read8_of_serves hw hn)
  | writing hm hn => exact .inr ⟨_, bus, read8_of_serves hw hm, write8_of_serves hw hn _⟩

/-- Bytes in plain memory are copied in order. -/
private theorem perform_copies (hw : bus.WellMapped) (h : ∀ i < k, c.Plain bus i) :
    perform m (.requesting d ((List.range k).map c.request) last) raised bus = perform m last raised (bus.copied c k) := by
  induction k generalizing last with
  | zero => rfl
  | succ k ih =>
    have hlayout := bus.sameLayout_copied c k
    rw [List.range_succ, List.map_append, TickProgram.requesting_append, ih fun i hi => h i (Nat.lt_succ_of_lt hi)]
    exact perform_plain (hlayout.wellMapped hw) (hlayout.plain (h k (Nat.lt_succ_self k)))

/-- Copies end at the first byte that nobody answers for. -/
private theorem perform_copies_stop (hw : bus.WellMapped) (hk : k < c.count) (h : ∀ i < k, c.Plain bus i)
    (hs : c.Stops bus k fault) :
    perform m (.requesting d ((List.range c.count).map c.request ++ requests) last) raised bus =
      .error fault ((bus.copied c k).reopened m d) := by
  obtain ⟨n, hn⟩ := Nat.exists_eq_add_of_lt hk
  have hrange : ∃ later, (List.range c.count).map c.request = (List.range k).map c.request ++ c.request k :: later := by
    rw [hn, Nat.add_assoc, List.range_add, List.range_succ_eq_map]
    exact ⟨_, by rw [List.map_append]; rfl⟩
  obtain ⟨later, hrange⟩ := hrange
  have hlayout := bus.sameLayout_copied c k
  rw [hrange, List.append_assoc, TickProgram.requesting_append, perform_copies hw h]
  exact perform_stops (hlayout.wellMapped hw) (hlayout.stops hs)

omit [Device δ] in
private theorem device?_reopened (hm : m.device < bus.devices.size) (d : δ) :
    (bus.reopened m d).device? m.device = some d := by
  unfold device? reopened setDevice
  exact Array.getElem?_setIfInBounds_self_of_lt hm

/-- However its requests end, a device is put back as it was when it made them. -/
private theorem device?_perform (hw : bus.WellMapped) (hm : m.device < bus.devices.size) :
    (outcome (perform m (.requesting d requests (.ends d (.ok ()))) raised bus)).device? m.device = some d := by
  induction requests generalizing bus raised with
  | nil => exact device?_reopened hm d
  | cons request requests ih =>
    cases request with
    | interrupt n => exact ih hw hm
    | copy src dst =>
      have hread : Covered bus (outcome (read8 src bus)) := (Accessed.byteRead hw src).confined.toCovered
      cases hr : read8 src bus with
      | error e mid =>
        rw [hr] at hread
        rw [perform_copy_fails (.inl hr)]
        exact device?_reopened (hread.count ▸ hm) d
      | ok b mid =>
        rw [hr] at hread
        have hwrite : Covered mid (outcome (write8 dst b mid)) :=
          (Accessed.byteWrite (hread.wellMapped hw) dst b).confined.toCovered
        have hboth := hread.trans hwrite
        cases hwr : write8 dst b mid with
        | error e next =>
          rw [hwr] at hboth
          rw [perform_copy_fails (.inr ⟨b, mid, hr, hwr⟩)]
          exact device?_reopened (hboth.count ▸ hm) d
        | ok _ next =>
          rw [hwr] at hboth
          rw [perform_copy hr hwr]
          exact ih (hboth.wellMapped hw) (hboth.count ▸ hm)

/-! ### The turn of a controller -/

/-- A way to have controllers among the devices of a bus. -/
structure Hosts (wrap : BlockTransfer → δ) : Prop where
  write8 : ∀ d halted addr b, Device.write8 ⟨wrap d, halted⟩ addr b = ⟨wrap (d.write8 addr b), halted⟩
  tick : ∀ d now, Device.tick (wrap d) now = .ofRequests ((d.tick now).map wrap id)

theorem hosts_dma : Hosts Peripheral.dma := ⟨fun _ _ _ _ => rfl, fun _ _ => rfl⟩

/-- The bus after a device was put back, with some bytes of a course copied. -/
def transferred (bus : DeviceBus δ) (m : Mapping) (d : δ) (c : Course) (k : Nat) : DeviceBus δ :=
  (bus.setDevice m.device d).copied c k

variable {wrap : BlockTransfer → δ} {e : BlockTransfer} {now : UInt64}

omit [Device δ] in
private theorem reopened_copied (hb : bus.busy = none) (m : Mapping) (d : δ) (c : Course) (k : Nat) :
    (({ bus with busy := some m.base } : DeviceBus δ).copied c k).reopened m d = bus.transferred m d c k := by
  simp [transferred, copied, setDevice, reopened, hb]

private theorem tick_hosted (hwrap : Hosts wrap) (harmed : e.armed = some c.transfer) (now : UInt64) :
    Device.tick (wrap e) now =
      .ofRequests (wrap e.disarmed, (List.range c.count).map c.request ++ e.endInterrupts c.transfer) := by
  rw [hwrap.tick, e.tick_armed harmed]
  rfl

/-- A course in plain memory is copied to its end, and then its interrupts are requested. -/
theorem tickMapping_whole (hwrap : Hosts wrap) (hw : bus.WellMapped) (hb : bus.busy = none)
    (hd : bus.device? m.device = some (wrap e)) (harmed : e.armed = some c.transfer)
    (h : ∀ i < c.count, c.Plain bus i) :
    tickMapping now m bus = .ok (e.ended c) (bus.transferred m (wrap e.disarmed) c c.count) := by
  have hlayout := bus.sameLayout_out m
  rw [tickMapping_eq hd, tick_hosted hwrap harmed, TickProgram.ofRequests, TickProgram.requesting_append,
    perform_copies (hlayout.wellMapped hw) fun i hi => hlayout.plain (h i hi),
    perform_interrupts (e.endInterrupts_only c.transfer), ← reopened_copied hb]
  rfl

/-- A course that comes to where nobody answers ends there, with the bytes before copied and no interrupt requested. -/
theorem tickMapping_stops (hwrap : Hosts wrap) (hw : bus.WellMapped) (hb : bus.busy = none)
    (hd : bus.device? m.device = some (wrap e)) (harmed : e.armed = some c.transfer) (hk : k < c.count)
    (h : ∀ i < k, c.Plain bus i) (hs : c.Stops bus k fault) :
    tickMapping now m bus = .error fault (bus.transferred m (wrap e.disarmed) c k) := by
  have hlayout := bus.sameLayout_out m
  rw [tickMapping_eq hd, tick_hosted hwrap harmed, ← reopened_copied hb]
  exact perform_copies_stop (hlayout.wellMapped hw) hk (fun i hi => hlayout.plain (h i hi)) (hlayout.stops hs)

/-- Wherever a course leads, also if a device or nobody answers there, its controller is disarmed by it. -/
theorem tickMapping_disarms (hwrap : Hosts wrap) (hw : bus.WellMapped) (hm : m ∈ bus.mappings)
    (hd : bus.device? m.device = some (wrap e)) (harmed : e.armed = some c.transfer) :
    (outcome (tickMapping now m bus)).device? m.device = some (wrap e.disarmed) := by
  rw [tickMapping_eq hd, tick_hosted hwrap harmed]
  exact device?_perform ((bus.sameLayout_out m).wellMapped hw) (hw.owned m hm)

/-! ### From the write to the end of the copy -/

/-- The server of a place on a track goes by its number, in a memory that does not fill what the words can address: the memory
up to its end, and nobody from there on or below zero. -/
structure Straight (bus : DeviceBus δ) (t : Track) (i : Nat) : Prop where
  memory : bus.Serves (t.addr i) .memory ↔ 0 ≤ t.place i ∧ t.place i < bus.memory.size ∧ bus.Unmapped (t.addr i)
  nobody : bus.Serves (t.addr i) .nobody ↔ (t.place i < 0 ∨ bus.memory.size ≤ t.place i) ∧ bus.Unmapped (t.addr i)
  beyond : t.place i < 0 ∨ Address.spaceSize ≤ t.place i → bus.Unmapped (t.addr i)

omit [Device δ] in
theorem WellMapped.straight (hw : bus.WellMapped) (hsize : bus.memory.size ≤ 2 ^ 32 - 2 ^ 16) (t : Track)
    (hi : i < 2 ^ 16) : bus.Straight t i := by
  have hb := t.place_bounds i
  have ha := t.addr_toNat hi
  unfold Address.spaceSize at hb
  refine ⟨?_, ?_, fun hbeyond m hm => ?_⟩
  · rw [serves_memory, and_comm, ← and_assoc]
    refine and_congr_left' ?_
    split at ha <;> omega
  · rw [serves_nobody, and_comm]
    refine and_congr_left' ?_
    split at ha <;> omega
  · have hinside := hw.inside m hm
    refine Bool.eq_false_iff.2 fun hc => ?_
    have hlt := (Mapping.contains_iff.1 hc).2
    unfold Address.spaceSize at hinside hbeyond
    split at ha <;> omega

/-- What becomes of an armed course in a tick that has come to the range of its controller, with the bus as `mid` and some
interrupts raised, and with ranges left for afterwards. -/
structure RunsOnce (wrap : BlockTransfer → δ) (now : UInt64) (start : DeviceBus δ) (raised : InterruptSet)
    (mid : DeviceBus δ) (m : Mapping) (after : List Mapping) (e : BlockTransfer) (c : Course) : Prop where
  /-- The tick is the turn of the controller and then that of the ranges that are left; if the turn fails it ends there. -/
  turn : tick now start =
    (tickMapping now m >>= fun r => tickMappings now after (raised.union r) : BusM (DeviceBus δ) InterruptSet) mid
  /-- In plain memory all bytes are copied, and then the interrupts are requested. -/
  whole : (∀ i < c.count, c.Plain start i) →
    tick now start = tickMappings now after (raised.union (e.ended c)) (mid.transferred m (wrap e.disarmed) c c.count)
  interrupts : ∀ n : UInt8, n < 64 → ((e.ended c).contains n = true ↔
    c.interruptA = true ∧ n = 44 + e.irqOffset ∨ c.interruptB = true ∧ n = 45 + e.irqOffset)
  /-- The tick fails at the first byte where nobody answers, with those before it copied. -/
  stops : ∀ k < c.count, ∀ fault, (∀ i < k, c.Plain start i) → c.Stops start k fault →
    tick now start = .error fault (mid.transferred m (wrap e.disarmed) c k)
  others : ∀ k a, (∀ i < k, a ≠ c.destination.addr i) →
    (mid.transferred m (wrap e.disarmed) c k).memory.get a = mid.memory.get a
  originals : c.Disjoint → ∀ k ≤ c.count, ∀ i < k, c.destination.step ≠ 0 ∨ i + 1 = k →
    (mid.transferred m (wrap e.disarmed) c k).memory.get (c.destination.addr i) = mid.memory.get (c.source.addr i)
  /-- Wherever the course leads, the controller is disarmed by its turn. -/
  disarmed : (outcome (tickMapping now m mid)).device? m.device = some (wrap e.disarmed)
  idle : ∀ later, Device.tick (wrap e.disarmed) later = .ends (wrap e.disarmed) (.ok ())

omit [Device δ] in
private theorem get_transferred_of_outside {d : δ} {a : UInt32} (h : ∀ i < k, a ≠ c.destination.addr i) :
    (bus.transferred m d c k).memory.get a = bus.memory.get a :=
  Memory.get_copied_of_outside h

omit [Device δ] in
private theorem get_transferred_of_disjoint {d : δ} (hdisjoint : c.Disjoint) (hk : k ≤ c.count) (hi : i < k)
    (hlast : c.destination.step ≠ 0 ∨ i + 1 = k) :
    (bus.transferred m d c k).memory.get (c.destination.addr i) = bus.memory.get (c.source.addr i) := by
  have hcount := c.count_lt
  refine Memory.get_copied_of_last hi (fun j hj hij he => ?_) fun j hj he => ?_
  · rw [Track.addr_inj (by omega) (by omega)] at he
    rcases hlast with hstep | hend
    · exact absurd ((Track.place_inj hstep).1 he) (by omega)
    · omega
  · rw [Track.addr_inj (by omega) (by omega)] at he
    exact hdisjoint i (by omega) j (by omega) he.symm

private theorem tickMappings_append (xs ys : List Mapping) (raised : InterruptSet) :
    (tickMappings now (xs ++ ys) raised : BusM (DeviceBus δ) InterruptSet) =
      tickMappings now xs raised >>= tickMappings now ys := by
  induction xs generalizing raised with
  | nil => exact (pure_bind raised (tickMappings now ys)).symm
  | cons x xs ih =>
    show (tickMapping now x >>= fun r => tickMappings now (xs ++ ys) (raised.union r)) =
      (tickMapping now x >>= fun r => tickMappings now xs (raised.union r)) >>= tickMappings now ys
    rw [bind_assoc]
    exact bind_congr fun r => ih (raised.union r)

theorem runsOnce (hwrap : Hosts wrap) {start mid : DeviceBus δ} (hstart : start.Reachable) {before after : List Mapping}
    (hranges : start.mappings = before ++ m :: after) (hcome : tickMappings now before {} start = .ok raised mid)
    (hd : mid.device? m.device = some (wrap e)) (harmed : e.armed = some c.transfer) :
    RunsOnce wrap now start raised mid m after e c := by
  obtain ⟨hw, hb⟩ := hstart.idle
  have hbegins : Ticking now start (.between (before ++ m :: after)) start := hranges ▸ .begins
  obtain ⟨hcovered, hidle, -, -⟩ := (hbegins.tickMappings_ok hw hb hcome).invariant hw hb
  have hmid := hcovered.wellMapped hw
  have hplain : ∀ {i}, c.Plain start i → c.Plain mid i := hcovered.sameLayout.plain
  have hturn : tick now start =
      (tickMapping now m >>= fun r => tickMappings now after (raised.union r) : BusM (DeviceBus δ) InterruptSet) mid := by
    show tickMappings now start.mappings {} start = _
    rw [hranges, tickMappings_append, BusM.bind_of_ok hcome]
    rfl
  exact {
    turn := hturn
    whole := fun h => by
      rw [hturn, BusM.bind_of_ok (tickMapping_whole hwrap hmid hidle hd harmed fun i hi => hplain (h i hi))]
    interrupts := fun n hn => e.contains_ended c hn
    stops := fun k hk fault h hs => by
      have hstops := hcovered.sameLayout.stops hs
      rw [hturn]
      exact BusM.bind_error.2 (.inl (tickMapping_stops hwrap hmid hidle hd harmed hk (fun i hi => hplain (h i hi)) hstops))
    others := fun k a => get_transferred_of_outside
    originals := fun hdisjoint k hk i hi => get_transferred_of_disjoint hdisjoint hk hi
    disarmed := tickMapping_disarms hwrap hmid (hcovered.mappings ▸ hranges ▸ by simp) hd harmed
    idle := fun later => by
      rw [hwrap.tick]
      rfl }

/-- A write to the control register of a controller arms the course that the registers describe if it enables a transfer, and
leaves what was armed otherwise; so what is armed stays as it is until another write arms one.  When the next tick comes to the
controller, its course is run once: in plain memory all bytes are copied in order and the interrupts that were asked for are
requested, and a course that comes to where nobody answers ends there with the tick.  Its places neither come round at zero
nor at the end of the address space. -/
theorem block_transfers_run_once (hwrap : Hosts wrap) :
    (∀ (d : BlockTransfer) (addr : UInt32) (v : UInt8),
      (∀ (bus : DeviceBus δ) (n : Nat), bus.WellMapped → bus.Serves addr (.device n (wrap d)) →
        write8 addr v bus = .ok () (bus.setDevice n (wrap (d.write8 addr v)))) ∧
      (d.write8 addr v).armed =
        if addr.toNat % 16 = 7 ∧ BlockTransfer.Arms v (d.reg 15) then some (d.course v).transfer
        else d.armed) ∧
    (∀ (d : BlockTransfer) writes,
      (d.Quiet writes → (d.written writes).armed = d.armed) ∧ (d.written writes).irqOffset = d.irqOffset) ∧
    ∀ (start mid : DeviceBus δ) before m after now raised, start.Reachable → start.mappings = before ++ m :: after →
      tickMappings now before {} start = .ok raised mid →
      (∀ (d : BlockTransfer) (addr : UInt32) (v : UInt8) writes, addr.toNat % 16 = 7 →
        BlockTransfer.Arms v (d.reg 15) → (d.write8 addr v).Quiet writes →
        mid.device? m.device = some (wrap ((d.write8 addr v).written writes)) →
        RunsOnce wrap now start raised mid m after ((d.write8 addr v).written writes) (d.course v)) ∧
      (start.memory.size ≤ 2 ^ 32 - 2 ^ 16 → ∀ t : Track, ∀ i < 2 ^ 16, start.Straight t i) := by
  refine ⟨fun d addr v => ⟨fun bus n hw hs => ?_, d.armed_write8 addr v⟩,
    fun d writes => ⟨BlockTransfer.armed_written, d.irqOffset_written writes⟩, ?_⟩
  · rw [write8_of_serves hw hs v]
    exact congrArg (fun e => EStateM.Result.ok () (bus.served n e)) (hwrap.write8 d bus.halted addr v)
  · intro start mid before m after now raised hstart hranges hcome
    refine ⟨fun d addr v writes haddr harms hquiet hd => ?_, fun hsize t i hi => hstart.idle.1.straight hsize t hi⟩
    refine runsOnce hwrap hstart hranges hcome hd ?_
    rw [BlockTransfer.armed_written hquiet, d.armed_write8, if_pos ⟨haddr, harms⟩]

/-- A controller before a copy of three bytes, of which the last has no place in a memory of 512 bytes. -/
def nearEnd : BlockTransfer where
  regs := #v[0, 0, 1, 0, 0, 3, 0, 0, 0, 0, 1, 0xFE, 0, 0, 0, 0x98]

/-- The copy is armed, and the address it comes from is written afterwards. -/
def aboutToCopy : DeviceBus Peripheral :=
  ({ memory := ({ size := 0x200 } : Memory).storeAll 0x100 [1, 2, 3] } : DeviceBus Peripheral).registerAll
    [⟨0xFFFF20, 0x10, .new (.dma ((nearEnd.write8 0xFFFF27 0x96).written [(0xFFFF21, 0xFF)]))⟩]

/-- Two bytes are copied, and the tick fails at the third. -/
theorem block_transfers_run_once_nearEnd :
    aboutToCopy.Reachable ∧ BlockTransfer.Arms 0x96 (nearEnd.reg 15) ∧
    (nearEnd.write8 0xFFFF27 0x96).Quiet [(0xFFFF21, 0xFF)] ∧
    verdict (tick 0 aboutToCopy) = .error (.outOfRange 0x200 ⟨.write, 8⟩) ∧
    (outcome (tick 0 aboutToCopy)).memory.get 0x1FE = 1 ∧ (outcome (tick 0 aboutToCopy)).memory.get 0x1FF = 2 := by
  have h : aboutToCopy.Reachable := .register _ (.new _) (by rintro number ⟨⟩)
  have hranges : aboutToCopy.mappings = [⟨0xFFFF20, 0xFFFF30, 0⟩] := by decide +kernel
  have harms : BlockTransfer.Arms 0x96 (nearEnd.reg 15) := by decide +kernel
  have hquiet : (nearEnd.write8 0xFFFF27 0x96).Quiet [(0xFFFF21, 0xFF)] := ⟨by decide, trivial⟩
  obtain ⟨-, -, hnext⟩ := block_transfers_run_once hosts_dma
  obtain ⟨hruns, hstraight⟩ := hnext aboutToCopy aboutToCopy [] ⟨0xFFFF20, 0xFFFF30, 0⟩ [] 0 {} h hranges rfl
  have hrun := hruns nearEnd 0xFFFF27 0x96 [(0xFFFF21, 0xFF)] (by decide) harms hquiet (by with_unfolding_all rfl)
  have hmem : aboutToCopy.memory = ({ size := 0x200 } : Memory).storeAll 0x100 [1, 2, 3] := by with_unfolding_all rfl
  have hsize : aboutToCopy.memory.size = 0x200 := by
    rw [hmem]
    rfl
  have hfree : ∀ a : UInt32, a.toNat < 0xFFFF20 → aboutToCopy.Unmapped a := by
    intro a ha m hm
    rw [hranges, List.mem_singleton] at hm
    subst hm
    exact Bool.eq_false_iff.2 fun hc => Nat.not_le_of_lt ha (Mapping.contains_iff.1 hc).1
  have hserves : ∀ a : UInt32, a.toNat < 0x200 → aboutToCopy.Serves a .memory := fun a ha =>
    .memory (hfree a (Nat.lt_trans ha (by decide))) (hsize ▸ ha)
  have hplain : ∀ i < 2, (nearEnd.course 0x96).Plain aboutToCopy i := by
    have hin : ∀ i < 2, ((nearEnd.course 0x96).source.addr i).toNat < 0x200 ∧
        ((nearEnd.course 0x96).destination.addr i).toNat < 0x200 := by decide +kernel
    exact fun i hi => ⟨hserves _ (hin i hi).1, hserves _ (hin i hi).2⟩
  have hstop : (nearEnd.course 0x96).Stops aboutToCopy 2 (.outOfRange 0x200 ⟨.write, 8⟩) := by
    have hout := (hstraight (by rw [hsize]; decide) (nearEnd.course 0x96).destination 2 (by decide)).nobody
    have hbeyond : (aboutToCopy.memory.size : Int) ≤ (nearEnd.course 0x96).destination.place 2 := by
      rw [hsize]
      decide +kernel
    exact .writing (hserves _ (by decide +kernel)) (hout.2 ⟨.inr hbeyond, hfree _ (by decide +kernel)⟩)
  have htick := hrun.stops 2 (by decide +kernel) _ hplain hstop
  have hdisjoint : (nearEnd.course 0x96).Disjoint := by
    unfold Course.Disjoint
    decide +kernel
  have hread : ∀ i < 2, aboutToCopy.memory.get ((nearEnd.course 0x96).source.addr i) = i.toUInt8 + 1 := by
    simp only [hmem, Memory.storeAll, Memory.get_store]
    decide +kernel
  have hcopied : ∀ i < 2,
      (outcome (tick 0 aboutToCopy)).memory.get ((nearEnd.course 0x96).destination.addr i) = i.toUInt8 + 1 := by
    intro i hi
    rw [htick]
    exact (hrun.originals hdisjoint 2 (by decide +kernel) i hi (.inl (by decide +kernel))).trans (hread i hi)
  exact ⟨h, harms, hquiet, congrArg verdict htick, hcopied 0 (by decide), hcopied 1 (by decide)⟩

end DeviceBus

end H8S
