import H8S.Instrument
import H8S.Proofs.DeviceIsolation
import H8S.Proofs.MachineRuns
import H8S.Proofs.TickSlicing

/-!
# Requests of devices

A tick is a round over the ranges of the bus in the order of their addresses, in which each device is taken out, ticked and
served once (`DeviceBus.Round`, `DeviceBus.tick_ok_iff`), and what it gives are the interrupts that were asked for on the way.
They are then requested one by one, and each gated one makes the core read the enable register; all these requests together
come to one formula for the interrupts that wait (`MachineM.requests_reach_core`).
-/

namespace H8S

/-! ### Gates -/

namespace InterruptSet

/-- The interrupts that the enable register lets through, whose value is given if there is one: a gated interrupt is taken out
if its bit is clear. -/
def admitted (s : InterruptSet) : Option UInt8 → InterruptSet
  | none => s
  | some enable => ⟨s.mask &&& ~~~(((~~~enable).toUInt64 &&& 0x3F) <<< 12)⟩

/-- Whether the enable register, whose value is given if there is one, lets an interrupt through. -/
def opens (enable : Option UInt8) (n : UInt8) : Bool := !isGated n || enable.all (enables · n)

private theorem gates_eq : ∀ v : BitVec 8,
    ~~~(((~~~(UInt8.ofBitVec v)).toUInt64 &&& 0x3F) <<< 12) =
      ~~~gatedMask ||| (((UInt8.ofBitVec v).toUInt64 <<< firstGated.toUInt64) &&& gatedMask) := by
  decide +kernel

variable {s : InterruptSet} {n : UInt8}

private theorem contains_admitted (hn : n < 64) (s : InterruptSet) (enable : Option UInt8) :
    (s.admitted enable).contains n = (s.contains n && opens enable n) := by
  cases enable with
  | none => simp [admitted, opens]
  | some value =>
    have he : s.admitted (some value) = s.acknowledge value :=
      congrArg (fun gates => InterruptSet.mk (s.mask &&& gates)) (gates_eq value.toBitVec)
    rw [he, contains_acknowledge value hn]
    rfl

private theorem insert_of_contains (hn : n < 64) (h : s.contains n = true) : s.insert n = s := by
  refine eq_of_contains fun m hm => ?_
  rw [contains_insert hm hn]
  cases hmn : m == n with
  | false => exact Bool.or_false _
  | true => simp [eq_of_beq hmn, h]

/-- The status register has the gated interrupts in the places where the enable register has their gates. -/
private theorem enables_status (hn : n < 64) (hg : isGated n = true) : enables s.status n = s.contains n := by
  have hrange := isGated_iff.1 hg
  have hplace : 12 + (n.toNat - 12) = n.toNat := by omega
  have hlow : n.toNat - 12 < 6 := by omega
  rw [enables_eq s.status hg, ← BitVec.testBit_toNat, contains_eq s hn, ← BitVec.testBit_toNat]
  refine (testBit_status s (n.toNat - 12)).trans ?_
  rw [hplace, decide_eq_true hlow, Bool.true_and]
  rfl

/-- An interrupt that is not gated does not show in the status register. -/
private theorem status_insert (hn : n < 64) (hg : ¬isGated n = true) : (s.insert n).status = s.status := by
  refine UInt8.toNat_inj.1 (Nat.eq_of_testBit_eq fun k => ?_)
  rw [testBit_status, testBit_status]
  by_cases hk : k < 6
  · have hval : (12 + k).toUInt8.toNat = 12 + k := by
      rw [Nat.toUInt8_eq, UInt8.toNat_ofNat', Nat.mod_eq_of_lt (by omega)]
    have hm : (12 + k).toUInt8 < 64 := UInt8.lt_iff_toNat_lt.2 (by rw [hval]; show _ < 64; omega)
    have hne : ((12 + k).toUInt8 == n) = false :=
      beq_eq_false_iff_ne.2 fun he => hg (isGated_iff.2 (by rw [← he, hval]; omega))
    rw [testBit_mask, testBit_mask, contains_insert hm hn, hne, Bool.or_false]
  · simp [hk]

end InterruptSet

/-! ### One request after another -/

namespace Cpu

/-- The core after it read the enable register in time, if there is one. -/
def consulted (ier : Option UInt32) (c : Cpu) : Cpu := ier.elim c (c.charged .read)

/-- The core after a request, where the enable register shows `enable`. -/
def requested (ier : Option UInt32) (enable : Option UInt8) (c : Cpu) (n : UInt8) : Cpu :=
  { if InterruptSet.isGated n then c.consulted ier else c with
    pending := if InterruptSet.opens enable n then c.pending.insert n else c.pending }

private theorem consulted_pending (ier : Option UInt32) (c : Cpu) : (c.consulted ier).pending = c.pending := by
  cases ier <;> rfl

private theorem consulted_of_pending (ier : Option UInt32) (c : Cpu) (p : InterruptSet) :
    consulted ier { c with pending := p } = { c.consulted ier with pending := p } := by
  cases ier <;> rfl

end Cpu

namespace CpuM

variable {β : Type} [Bus β] {config : Config} {s : System β} {enable : Option UInt8} {n : UInt8}

/-- What the core finds in the enable register: nothing if there is none, or a byte that it reads without any effect. -/
def Finds (config : Config) (s : System β) : Option UInt8 → Prop
  | none => config.ierAddress = none
  | some value => ∃ addr, config.ierAddress = some addr ∧ load8 addr config s = .ok value s

/-- Neither time nor the interrupts that wait matter to what is found, unless the register is the status register. -/
private theorem Finds.congr {cpu : Cpu} (h : Finds config s enable)
    (hp : config.ierAddress = config.isrAddress → cpu.pending.status = s.cpu.pending.status) :
    Finds config { s with cpu := cpu } enable := by
  cases enable with
  | none => exact h
  | some value =>
    obtain ⟨addr, haddr, hload⟩ := h
    refine ⟨addr, haddr, ?_⟩
    unfold load8 at hload ⊢
    rw [bind_of_ok run_read] at hload ⊢
    by_cases hisr : config.isrAddress = some addr
    · rw [if_pos hisr] at hload ⊢
      rw [bind_of_ok run_get] at hload ⊢
      cases hload
      show EStateM.Result.ok cpu.pending.status _ = _
      rw [hp (haddr.trans hisr.symm)]
    · rw [if_neg hisr] at hload ⊢
      obtain ⟨bus, hbus, hs⟩ := onBus_ok.1 hload
      refine onBus_ok.2 ⟨bus, hbus, ?_⟩
      rw [show bus = s.bus from (congrArg System.bus hs).symm]

/-- The time of a read is nothing that the enable register shows. -/
private theorem Finds.consulted (h : Finds config s enable) :
    Finds config { s with cpu := s.cpu.consulted config.ierAddress } enable :=
  h.congr fun _ => congrArg InterruptSet.status (s.cpu.consulted_pending config.ierAddress)

/-- Where the enable register is the status register, a gated interrupt that is let through waits already. -/
private theorem Finds.insert (h : Finds config s enable) (hn : n < 64) (ho : InterruptSet.opens enable n = true) :
    Finds config { s with cpu := { s.cpu with pending := s.cpu.pending.insert n } } enable := by
  cases enable with
  | none => exact h
  | some value =>
    refine Finds.congr h fun hsame => ?_
    by_cases hg : InterruptSet.isGated n = true
    · obtain ⟨addr, haddr, hload⟩ := h
      have hshown : value = s.cpu.pending.status := by
        unfold load8 at hload
        rw [bind_of_ok run_read, if_pos (hsame.symm.trans haddr), bind_of_ok run_get] at hload
        cases hload
        rfl
      have hwaits : s.cpu.pending.contains n = true := by
        rw [← InterruptSet.enables_status hn hg, ← hshown]
        simpa [InterruptSet.opens, hg] using ho
      rw [InterruptSet.insert_of_contains hn hwaits]
    · exact InterruptSet.status_insert hn hg

/-- Whether a request is let through, and what it costs to know. -/
private theorem isEnabled_eq (h : Finds config s enable) (n : UInt8) :
    isEnabled n config s = .ok (InterruptSet.opens enable n)
      { s with cpu := if InterruptSet.isGated n then s.cpu.consulted config.ierAddress else s.cpu } := by
  unfold isEnabled
  rw [bind_of_ok run_read]
  cases enable with
  | none =>
    have hnone : config.ierAddress = none := h
    have hopen : InterruptSet.opens none n = true := by simp [InterruptSet.opens]
    simp [hnone, hopen, Cpu.consulted]
  | some value =>
    obtain ⟨addr, haddr, hload⟩ := h.consulted
    rw [haddr] at hload ⊢
    by_cases hg : InterruptSet.isGated n = true
    · have hread : read8 addr config s = .ok value { s with cpu := s.cpu.consulted (some addr) } :=
        (bind_of_ok (run_charge .read addr)).trans hload
      simp only [if_pos hg]
      rw [bind_of_ok hread]
      simp [InterruptSet.opens, hg]
    · simp only [if_neg hg]
      simp [InterruptSet.opens, hg]

/-- A request costs a read of the enable register if it is for a gated interrupt, and is let through or dropped. -/
private theorem raise_eq (h : Finds config s enable) (hn : n < 64) :
    raise n config s = .ok () { s with cpu := s.cpu.requested config.ierAddress enable n } ∧
      Finds config { s with cpu := s.cpu.requested config.ierAddress enable n } enable := by
  have hpending : (if InterruptSet.isGated n then s.cpu.consulted config.ierAddress else s.cpu).pending = s.cpu.pending := by
    split
    · exact s.cpu.consulted_pending config.ierAddress
    · rfl
  have hfinds : Finds config
      { s with cpu := if InterruptSet.isGated n then s.cpu.consulted config.ierAddress else s.cpu } enable := by
    split
    · exact h.consulted
    · exact h
  unfold raise Cpu.requested
  rw [if_pos hn, bind_of_ok (isEnabled_eq h n), ← hpending]
  by_cases ho : InterruptSet.opens enable n = true
  · rw [if_pos ho, if_pos ho]
    exact ⟨rfl, hfinds.insert hn ho⟩
  · rw [if_neg ho, if_neg ho]
    exact ⟨rfl, hfinds⟩

end CpuM

/-! ### Rounds -/

/-- The numbers of the interrupts that a program requests on a bus, in order. -/
def TickProgram.requests {δ : Type} [Device δ] : TickProgram δ → DeviceBus δ → List UInt8
  | .ends _ _, _ => []
  | .read8 addr next, bus => requests (next (verdict (DeviceBus.read8 addr bus))) (outcome (DeviceBus.read8 addr bus))
  | .write8 addr value next, bus =>
    requests (next (verdict (DeviceBus.write8 addr value bus))) (outcome (DeviceBus.write8 addr value bus))
  | .raise n next, bus => n :: requests next bus
  | .isHalted next, bus => requests (next bus.halted) bus
  | .setHalted halted next, bus => requests next { bus with halted := halted }

namespace DeviceBus

variable {δ : Type} [Device δ] {now : UInt64} {start bus bus' : DeviceBus δ} {m : Mapping} {raised raised' : InterruptSet}

/-- A bus collects the requests of a program. -/
theorem raised_of_perform {program : TickProgram δ} (h : perform m program raised bus = .ok raised' bus') :
    raised' = (program.requests bus).foldl InterruptSet.request raised := by
  induction program generalizing raised bus with
  | ends d result =>
    cases result with
    | ok =>
      cases h
      rfl
    | error e => cases h
  | read8 addr next ih => exact ih _ h
  | write8 addr value next ih => exact ih _ h
  | raise n next ih => exact ih h
  | isHalted next ih => exact ih _ h
  | setHalted halted next ih => exact ih h

/-- A range with its device and the bus, as they were when its turn came. -/
structure Turn (δ : Type) where
  mapping : Mapping
  device : δ
  bus : DeviceBus δ

namespace Turn

/-- The bus while the device is out. -/
def closed (t : Turn δ) : DeviceBus δ := { t.bus with busy := some t.mapping.base }

/-- The numbers of the interrupts that are requested in a turn. -/
def requests (now : UInt64) (t : Turn δ) : List UInt8 := (Device.tick t.device now).requests t.closed

/-- The interrupts that are requested in some turns, besides those before. -/
def collected (now : UInt64) (turns : List (Turn δ)) (raised : InterruptSet) : InterruptSet :=
  turns.foldl (fun raised t => raised.union ((t.requests now).foldl InterruptSet.request {})) raised

theorem contains_collected {n : UInt8} (hn : n < 64) (now : UInt64) (turns : List (Turn δ)) (raised : InterruptSet) :
    (collected now turns raised).contains n = true ↔ raised.contains n = true ∨ ∃ t ∈ turns, n ∈ t.requests now := by
  unfold collected
  induction turns generalizing raised with
  | nil => simp
  | cons t turns ih =>
    rw [List.foldl_cons, ih, InterruptSet.contains_union _ _ hn, InterruptSet.contains_requests hn,
      InterruptSet.contains_empty, Bool.false_or, Bool.or_eq_true, List.contains_iff_mem, List.exists_mem_cons_iff, or_assoc]

end Turn

/-- Devices in turn are taken out, their programs are run with their ranges closed, and they are put back. -/
inductive Round (now : UInt64) : List (Turn δ) → DeviceBus δ → DeviceBus δ → Prop where
  | done (bus : DeviceBus δ) : Round now [] bus bus
  | turn {t : Turn δ} {rest : List (Turn δ)} {mid bus' : DeviceBus δ} {raised : InterruptSet} :
      t.bus.device? t.mapping.device = some t.device →
      perform t.mapping (Device.tick t.device now) {} t.closed = .ok raised mid →
      Round now rest mid bus' → Round now (t :: rest) t.bus bus'

private theorem tickMappings_ok_iff {ms : List Mapping} (hw : start.WellMapped) (hb : start.busy = none)
    (ht : Ticking now start (.between ms) bus) :
    tickMappings now ms raised bus = .ok raised' bus' ↔
      ∃ turns : List (Turn δ), turns.map Turn.mapping = ms ∧ Round now turns bus bus' ∧
        raised' = Turn.collected now turns raised := by
  induction ms generalizing bus raised with
  | nil =>
    constructor
    · rintro ⟨⟩
      exact ⟨[], rfl, .done _, rfl⟩
    · rintro ⟨turns, hturns, hround, rfl⟩
      obtain rfl := List.map_eq_nil_iff.1 hturns
      cases hround
      rfl
  | cons m ms ih =>
    obtain ⟨hc, -, -, hrest⟩ := ht.invariant hw hb
    have hm : m ∈ bus.mappings := hc.mappings ▸ (List.forall_mem_cons.1 hrest).1
    obtain ⟨d, hd⟩ := (hc.wellMapped hw).exists_device hm
    refine BusM.bind_ok.trans ?_
    constructor
    · rintro ⟨r, mid, h₁, h₂⟩
      obtain ⟨turns, hturns, hround, hraised⟩ := (ih (ht.turned hd h₁)).1 h₂
      rw [tickMapping_eq hd] at h₁
      refine ⟨⟨m, d, bus⟩ :: turns, congrArg (m :: ·) hturns, .turn hd h₁ hround, ?_⟩
      rw [hraised, raised_of_perform h₁]
      rfl
    · rintro ⟨turns, hturns, hround, hraised⟩
      cases hround with
      | done => cases hturns
      | @turn t rest mid _ r hdev hserved hround =>
        obtain ⟨rfl, hlater⟩ := List.cons.inj hturns
        have h₁ : tickMapping now t.mapping t.bus = .ok r mid := (tickMapping_eq hdev).trans hserved
        refine ⟨r, mid, h₁, (ih (ht.turned hd h₁)).2 ⟨rest, hlater, hround, ?_⟩⟩
        rw [hraised, raised_of_perform hserved]
        rfl

/-- A tick that ends well is a round over all ranges in which each device has its turn once, and gives what was requested. -/
theorem tick_ok_iff (h : start.Reachable) :
    tick now start = .ok raised bus ↔
      ∃ turns : List (Turn δ), turns.map Turn.mapping = start.mappings ∧ Round now turns start bus ∧
        raised = Turn.collected now turns {} :=
  tickMappings_ok_iff h.idle.1 h.idle.2 .begins

end DeviceBus

/-! ### All requests of a tick -/

namespace InterruptSet

private theorem mem_toList {s : InterruptSet} {n : UInt8} : n ∈ s.toList ↔ n < 64 ∧ s.contains n = true := by
  have hnumber : n ∈ numbers ↔ n < 64 := by
    unfold numbers
    rw [List.mem_map]
    constructor
    · rintro ⟨k, hk, rfl⟩
      have hk := List.mem_range.1 hk
      refine UInt8.lt_iff_toNat_lt.2 ?_
      rw [Nat.toUInt8_eq, UInt8.toNat_ofNat', Nat.mod_eq_of_lt (by omega)]
      exact hk
    · intro hn
      exact ⟨n.toNat, List.mem_range.2 (UInt8.lt_iff_toNat_lt.1 hn), by simp⟩
  rw [toList_eq_filter, List.mem_filter, hnumber]

end InterruptSet

namespace Cpu

variable {ier : Option UInt32} {enable : Option UInt8} {ns : List UInt8}

/-- Of a sequence of requests, those that are let through wait in the end. -/
private theorem pending_requests (hns : ∀ n ∈ ns, n < 64) (c : Cpu) {m : UInt8} (hm : m < 64) :
    (ns.foldl (requested ier enable) c).pending.contains m =
      (c.pending.contains m || (ns.contains m && InterruptSet.opens enable m)) := by
  induction ns generalizing c with
  | nil => simp
  | cons n ns ih =>
    obtain ⟨hn, hns⟩ := List.forall_mem_cons.1 hns
    have hone : (c.requested ier enable n).pending.contains m =
        (c.pending.contains m || (m == n && InterruptSet.opens enable m)) := by
      show (if InterruptSet.opens enable n then c.pending.insert n else c.pending).contains m = _
      by_cases hmn : m = n
      · subst hmn
        cases InterruptSet.opens enable m <;> simp [InterruptSet.contains_insert hm hm]
      · have hne : (m == n) = false := beq_eq_false_iff_ne.2 hmn
        split <;> simp [InterruptSet.contains_insert hm hn, hne]
    rw [List.foldl_cons, ih hns, hone, List.contains_cons, Bool.or_assoc, ← Bool.and_or_distrib_right]

private theorem iterate_consulted (k : Nat) (c : Cpu) (p : InterruptSet) :
    (consulted ier)^[k] { c with pending := p } = { (consulted ier)^[k] c with pending := p } := by
  induction k generalizing c with
  | zero => rfl
  | succ k ih => rw [Function.iterate_succ_apply, consulted_of_pending, ih, Function.iterate_succ_apply]

/-- Besides, they cost a read of the enable register for each gated interrupt. -/
private theorem requests_cost (c : Cpu) (p : InterruptSet) :
    { ns.foldl (requested ier enable) c with pending := p } =
      { (consulted ier)^[ns.countP InterruptSet.isGated] c with pending := p } := by
  induction ns generalizing c with
  | nil => rfl
  | cons n ns ih =>
    rw [List.foldl_cons, ih, requested, iterate_consulted, List.countP_cons]
    split
    · rw [Function.iterate_succ_apply]
    · rfl

end Cpu

namespace MachineM

variable {δ : Type} [Device δ] {m : Machine δ} {enable : Option UInt8}

omit [Device δ] in
private theorem recording_of_ok {α : Type} {action : CpuM (DeviceBus δ) α} {a : α} {s : System (DeviceBus δ)}
    (h : action m.config m.system = .ok a s) : recording action m = .ok a { m with system := s } := by
  obtain ⟨config, system, fault⟩ := m
  have h : action config system = .ok a s := h
  unfold recording
  simp only [h]

private theorem raises_eq {ns : List UInt8} (hns : ∀ n ∈ ns, n < 64) (h : CpuM.Finds m.config m.system enable) :
    (ns.forM raise : MachineM δ Unit) m =
      .ok () (m.setCpu (ns.foldl (Cpu.requested m.config.ierAddress enable) m.cpu)) := by
  induction ns generalizing m with
  | nil => rfl
  | cons n ns ih =>
    obtain ⟨hn, hns⟩ := List.forall_mem_cons.1 hns
    obtain ⟨hraise, hfinds⟩ := CpuM.raise_eq h hn
    show (raise n >>= fun _ => ns.forM raise : MachineM δ Unit) m = _
    exact (BusM.bind_of_ok (recording_of_ok hraise)).trans (ih hns hfinds)

/-- When the devices are ticked with success, the core takes over what they asked for, as far as the enable register lets it
through; it reads that register once for each gated interrupt, and nothing else changes.  The tick is a round over all ranges in
the order of their addresses, and what they ask for is collected; numbers from 64 on are passed over. -/
theorem requests_reach_core (hm : m.bus.Reachable) {raised : InterruptSet} {bus : DeviceBus δ}
    (htick : DeviceBus.tick m.cpu.cycles m.bus = .ok raised bus)
    (hfinds : CpuM.Finds m.config (m.setBus bus).system enable) :
    tickDevices m = .ok () ((m.setBus bus).setCpu
      { (Cpu.consulted m.config.ierAddress)^[raised.toList.countP InterruptSet.isGated] m.cpu with
        pending := ⟨m.cpu.pending.mask ||| (raised.admitted enable).mask⟩ }) ∧
    (∃ turns : List (DeviceBus.Turn δ), turns.map DeviceBus.Turn.mapping = m.bus.mappings ∧
      (turns.map DeviceBus.Turn.mapping).Pairwise (fun x y => x.base < y.base) ∧
      DeviceBus.Round m.cpu.cycles turns m.bus bus ∧
      ∀ k : UInt8, k < 64 →
        (raised.mask.toNat.testBit k.toNat = true ↔ ∃ t ∈ turns, k ∈ t.requests m.cpu.cycles)) ∧
    ∀ n, 64 ≤ n → raise n m = .ok () m := by
  have hticked : recording (CpuM.onBus (DeviceBus.tick m.cpu.cycles)) m = .ok raised (m.setBus bus) :=
    recording_of_ok (CpuM.onBus_ok.2 ⟨bus, htick, rfl⟩)
  have hnumbers : ∀ n ∈ raised.toList, n < 64 := fun n hn => (InterruptSet.mem_toList.1 hn).1
  have hraises : (raised.toList.forM raise : MachineM δ Unit) (m.setBus bus) = .ok () ((m.setBus bus).setCpu
      (raised.toList.foldl (Cpu.requested m.config.ierAddress enable) m.cpu)) := raises_eq hnumbers hfinds
  have hpending : (raised.toList.foldl (Cpu.requested m.config.ierAddress enable) m.cpu).pending =
      ⟨m.cpu.pending.mask ||| (raised.admitted enable).mask⟩ := by
    refine InterruptSet.eq_of_contains fun n hn => ?_
    have hmem : raised.toList.contains n = raised.contains n := by
      rw [Bool.eq_iff_iff, List.contains_iff_mem, InterruptSet.mem_toList, and_iff_right hn]
    have hunion := InterruptSet.contains_union m.cpu.pending (raised.admitted enable) hn
    rw [Cpu.pending_requests hnumbers _ hn, hmem, ← InterruptSet.contains_admitted hn]
    exact hunion.symm
  refine ⟨?_, ?_, ?_⟩
  · rw [← Cpu.requests_cost, ← hpending]
    exact (BusM.bind_of_ok hticked).trans hraises
  · obtain ⟨turns, hturns, hround, rfl⟩ := (DeviceBus.tick_ok_iff hm).1 htick
    refine ⟨turns, hturns, hturns ▸ hm.idle.1.sorted, hround, fun k hk => ?_⟩
    have hmember := DeviceBus.Turn.contains_collected hk m.cpu.cycles turns {}
    rw [InterruptSet.contains_empty, Bool.false_eq_true, false_or] at hmember
    rw [← hmember, InterruptSet.contains_eq _ hk]
    rfl
  · intro n hn
    have hnot : ¬n < 64 := UInt8.not_lt.2 hn
    refine recording_of_ok ?_
    unfold CpuM.raise
    rw [if_neg hnot]
    rfl

/-- A controller at the end of its copy, an alarm that goes off with two gated interrupts, and an enable register that lets
one of these through. -/
def ringing : Machine Instrumented where
  config := { memorySize := 0x40 }
  system :=
    { bus := ({ memory := { size := 0x40 } } : DeviceBus Instrumented).registerAll
        [⟨0xFFFF20, 0x10, .new (.chip (.dma { armed := some ⟨0, 0, 0, 0, 0, true, true⟩ }))⟩,
          ⟨0xFFFF40, 4, .new (.alarm { time := 0, interrupts := [12, 13] })⟩,
          ⟨0xFFFFF5, 1, .new (.chip (.enableRegister 2))⟩] }

/-- Of the interrupts 12, 13, 44 and 45 one is dropped, and the enable register is read twice. -/
theorem requests_reach_core_dropping :
    (ringing.bus.Reachable ∧
      ∃ bus, DeviceBus.tick 0 ringing.bus = .ok ⟨0x300000003000⟩ bus ∧
        CpuM.Finds ringing.config (ringing.setBus bus).system (some 2)) ∧
    (outcome (tickDevices ringing)).cpu.pending.toList = [13, 44, 45] ∧
    (outcome (tickDevices ringing)).cpu.cycles = 2 := by
  have h : ringing.bus.Reachable :=
    .register _ (.register _ (.register _ (.new _) (by rintro number ⟨⟩)) (by rintro number ⟨⟩)) (by rintro number ⟨⟩)
  have htick : DeviceBus.tick 0 ringing.bus =
      .ok ⟨0x300000003000⟩ (outcome (DeviceBus.tick 0 ringing.bus)) := by
    with_unfolding_all rfl
  have hfinds : CpuM.Finds ringing.config
      (ringing.setBus (outcome (DeviceBus.tick 0 ringing.bus))).system (some 2) :=
    ⟨0xFFFFF5, rfl, by with_unfolding_all rfl⟩
  have hticked := (requests_reach_core h htick hfinds).1
  refine ⟨⟨h, _, htick, hfinds⟩, ?_, ?_⟩
  · rw [hticked]
    decide +kernel
  · rw [hticked]
    decide +kernel

end MachineM

end H8S
