import H8S.Alu.Bit
import H8S.Proofs.ByteAccesses
import H8S.Proofs.InterruptDispatch
import H8S.Proofs.StatusAccesses

/-!
# The status register

The core intercepts the status register in every step.  No access that a step puts to the bus covers its address
(`step_spared`), and a step changes the pending interrupts by what it writes there and by the interrupt that it enters, in
no other way (`step_dwindles`).  Both are invariants of the accesses, and so they hold of steps that fail, too.

An operation on one bit reads the register and writes it back.  A bit that is set takes nothing back, and a bit that is
cleared takes back its own interrupt only, as the other bits are written as they were read
(`InterruptSet.acknowledge_status_or`, `InterruptSet.acknowledge_status_clear`).
-/

namespace H8S.CpuM

variable {β : Type} [Bus β] {config : Config} {s t u : System β} {addr isr : UInt32}

/-! ### Steps -/

/-- Neither byte of a word that goes to the bus in one piece is the register. -/
private theorem aside_word (hisr : config.isrAddress = some isr) (hc : coversStatus config addr 2 = false) :
    addr ≠ isr ∧ addressAfter addr ≠ isr := by
  have hcover : ∀ k < 2, isr.toNat ≠ addr.toNat + k := by
    intro k hk haddr
    rw [covers_of_offset hisr rfl hk haddr] at hc
    cases hc
  have hfirst : addr ≠ isr := fun h => hcover 0 (by decide) (congrArg UInt32.toNat h.symm)
  refine ⟨hfirst, ?_⟩
  unfold addressAfter
  by_cases hlast : addr = 0xFFFFFFFF
  · rw [if_pos hlast]
    exact hfirst
  · rw [if_neg hlast]
    intro h
    have hlt := addr.toNat_lt
    have hne : addr.toNat ≠ 2 ^ 32 - 1 := fun he => hlast (UInt32.toNat_inj.1 he)
    have hnext : (addr + 1).toNat = addr.toNat + 1 := Memory.toNat_add_of_lt (k := 1) (by omega)
    exact hcover 1 (by decide) (by rw [← h, hnext])

/-- A bus shows what it showed in the end, with accesses that are not at the register. -/
private def Spared (isr : UInt32) (before : List BusAccess) (view : β → List BusAccess) (bus : β) : Prop :=
  ∃ made, view bus = before ++ made ∧ ∀ a ∈ made, a.addr ≠ isr

omit [Bus β] in
private theorem preserves_spared {before made : List BusAccess} {view : β → List BusAccess} {m : BusM β α}
    (hm : BusM.Notes view made m) (haside : ∀ a ∈ made, a.addr ≠ isr) : BusM.Preserves (Spared isr before view) m where
  ok := by
    rintro bus a bus' ⟨earlier, hv, hearlier⟩ h
    refine ⟨earlier ++ made, ?_, ?_⟩
    · rw [hm.ok h, hv, List.append_assoc]
    · intro b hb
      rcases List.mem_append.1 hb with hb | hb
      · exact hearlier b hb
      · exact haside b hb
  error := by
    rintro bus e bus' ⟨earlier, hv, hearlier⟩ h
    obtain ⟨first, hfirst, hnoted⟩ := hm.error h
    refine ⟨earlier ++ first, ?_, ?_⟩
    · rw [hnoted, hv, List.append_assoc]
    · intro b hb
      rcases List.mem_append.1 hb with hb | hb
      · exact hearlier b hb
      · exact haside b (hfirst.subset hb)

/-- To show no access at the register is an invariant of every bus that keeps a list. -/
private theorem spared_invariant (hisr : config.isrAddress = some isr) {view : β → List BusAccess}
    (hview : Bus.Notes view) (before : List BusAccess) : Invariant config fun _ bus => Spared isr before view bus where
  acknowledge _ h := h
  read8 {addr} _ hc := by
    have haddr : addr ≠ isr := fun h => hc (h ▸ hisr)
    exact preserves_spared (hview.read8 addr) (by simpa [BusAccess.addr] using haddr)
  write8 {addr} _ value hc := by
    have haddr : addr ≠ isr := fun h => hc (h ▸ hisr)
    exact preserves_spared (hview.write8 addr value) (by simpa [BusAccess.addr] using haddr)
  read16 {addr} _ hc := preserves_spared (hview.read16 addr) (by simpa [BusAccess.addr] using aside_word hisr hc)
  write16 {addr} _ value hc :=
    preserves_spared (hview.write16 addr value) (by simpa [BusAccess.addr] using aside_word hisr hc)

/-- No access that a step puts to the bus covers the register, be it that the step ends or that it fails. -/
theorem step_spared (hisr : config.isrAddress = some isr) (h : Leads config step s u) {view : β → List BusAccess}
    (hview : Bus.Notes view) : ∃ made, view u.bus = view s.bus ++ made ∧ ∀ a ∈ made, a.addr ≠ isr := by
  have hnone : Spared isr (view s.bus) view s.bus := ⟨[], (List.append_nil _).symm, by simp⟩
  exact (spared_invariant hisr hview (view s.bus)).step_upholds (fun _ _ _ _ hp => hp) hnone h

/-- Of the interrupts in `p` only gated ones and `due` may be missing in `q`, and none is new there. -/
def Dwindles (due : Option UInt8) (p q : InterruptSet) : Prop :=
  ∀ k : Nat, (q.mask.toNat.testBit k = true → p.mask.toNat.testBit k = true) ∧
    (p.mask.toNat.testBit k = true →
      q.mask.toNat.testBit k = true ∨ 12 ≤ k ∧ k < 18 ∨ ∃ n, due = some n ∧ k = n.toNat)

private theorem Dwindles.refl (due : Option UInt8) (p : InterruptSet) : Dwindles due p p := by
  intro k
  exact ⟨id, .inl⟩

private theorem Dwindles.acknowledge {due : Option UInt8} {p q : InterruptSet} (h : Dwindles due p q) (value : UInt8) :
    Dwindles due p (q.acknowledge value) := by
  intro k
  obtain ⟨hold, hkept⟩ := h k
  rw [InterruptSet.testBit_acknowledge]
  constructor
  · intro hk
    exact hold (Bool.and_eq_true_iff.1 hk).1
  · intro hk
    rcases hkept hk with hq | hgone
    · by_cases hgated : 12 ≤ k ∧ k < 18
      · exact .inr (.inl hgated)
      · left
        have hout : k < 12 ∨ 18 ≤ k := by omega
        simp [hq, hout]
    · exact .inr hgone

private theorem Dwindles.erase {due : Option UInt8} {p q : InterruptSet} {n : UInt8} (h : Dwindles due p q)
    (hdue : due = some n) (hn : n < 64) : Dwindles due p (q.erase n) := by
  intro k
  obtain ⟨hold, hkept⟩ := h k
  rw [InterruptSet.testBit_erase q hn]
  constructor
  · intro hk
    exact hold (Bool.and_eq_true_iff.1 hk).1
  · intro hk
    by_cases hkn : k = n.toNat
    · exact .inr (.inr ⟨n, hdue, hkn⟩)
    · rcases hkept hk with hq | hgone
      · left
        simp [hq, hkn]
      · exact .inr hgone

/-- A step takes back gated interrupts and the one that it enters, and no others; it requests none. -/
theorem step_dwindles (h : Leads config step s u) : Dwindles s.cpu.dueInterrupt? s.cpu.pending u.cpu.pending := by
  have hsame : ∀ {q : InterruptSet} {α : Type} (m : BusM β α),
      BusM.Preserves (fun _ => Dwindles s.cpu.dueInterrupt? s.cpu.pending q) m :=
    fun _ => ⟨fun hq _ => hq, fun hq _ => hq⟩
  have hinvariant : Invariant config fun q (_ : β) => Dwindles s.cpu.dueInterrupt? s.cpu.pending q :=
    { acknowledge := fun value hq => hq.acknowledge value
      read8 := fun _ _ => hsame _
      write8 := fun _ _ _ => hsame _
      read16 := fun _ _ => hsame _
      write16 := fun _ _ _ => hsame _ }
  refine hinvariant.step_upholds ?_ (.refl _ _) h
  -- the interrupt that is entered may be any
  intro n hdue q _ hq
  have hn : n < 64 := (Cpu.dueInterrupt?_eq_some.1 hdue).2.1
  exact hq.erase hdue hn

/-! ### Operations on one bit -/

omit [Bus β] in
/-- The system after the address of an operand was taken. -/
private theorem resolve_run (m : MemOperand) (width : Width) :
    (resolve m width : CpuM β UInt32) config s =
      .ok (m.resolve width s.cpu.regs).1 { s with cpu := { s.cpu with regs := (m.resolve width s.cpu.regs).2 } } := rfl

omit [Bus β] in
/-- Where an operand lies does not depend on the program counter, and it is not moved. -/
private theorem resolve_pc (m : MemOperand) (width : Width) (r : Registers) (pc : UInt32) :
    m.resolve width { r with pc := pc } =
      ((m.resolve width r).1, { (m.resolve width r).2 with pc := pc }) := by
  cases m <;> rfl

private theorem bitMask_toNat : ∀ n : UInt8, (bitMask n).toNat = 2 ^ (n &&& 7).toNat := Encoding.forall_byte (by decide)

/-- An operation that writes its bit back reads the register, and takes interrupts back by the byte that it writes. -/
private theorem bitOperation_status {op : BitOp} (hop : op.modifies = true) (number : BitNumber) {m : MemOperand}
    (hisr : config.isrAddress = some isr) (haddr : (m.resolve .byte s.cpu.regs).1 = isr) :
    ∃ v carry, (bitOperation op number (.mem m) : CpuM β Unit) config s = .ok () v ∧
      v.bus = s.bus ∧ v.cpu.regs = (m.resolve .byte s.cpu.regs).2 ∧
      v.cpu.pending = s.cpu.pending.acknowledge
        (op.updated s.cpu.pending.status (bitMask (s.cpu.regs.bitNumber number)) carry) := by
  unfold bitOperation
  rw [bind_of_ok run_getRegs]
  show ∃ v carry, (resolve m .byte >>= _) config s = _ ∧ _
  rw [bind_of_ok (resolve_run m .byte), haddr, bind_of_ok (read8_status hisr)]
  rw [operateBit_eq, if_pos hop, bind_of_ok run_getRegs, write8_status hisr]
  exact ⟨_, _, rfl, rfl, rfl, rfl⟩

/-- An instruction that writes a bit of the register back ends. -/
private theorem carriesOut_bit {i : Instruction} {op : BitOp} (hop : op.modifies = true) {number : BitNumber}
    {m : MemOperand} (hisr : config.isrAddress = some isr) (hawake : s.cpu.sleeping = false)
    (hdue : s.cpu.dueInterrupt? = none) (hd : Instruction.decode read8 s.cpu.regs.pc config s = .ok i t)
    (hi : i.op = .bit op number (.mem m)) (haddr : (m.resolve .byte s.cpu.regs).1 = isr) :
    ∃ u carry, CarriesOut config i s u ∧ u.bus = t.bus ∧
      u.cpu.regs = { (m.resolve .byte s.cpu.regs).2 with pc := i.nextPc } ∧
      u.cpu.pending = s.cpu.pending.acknowledge
        (op.updated s.cpu.pending.status (bitMask (s.cpu.regs.bitNumber number)) carry) := by
  obtain ⟨-, -, hf⟩ := decode_ok hd
  -- of the core only the clock and the timer know that bytes were fetched
  have hregs : (t.begun config i).cpu.regs = { s.cpu.regs with pc := i.nextPc } := by
    rw [System.begun_cpu, hf.cpu]
  have hpending : (t.begun config i).cpu.pending = s.cpu.pending := by
    rw [System.begun_cpu, hf.cpu]
  have hresolve : m.resolve .byte (t.begun config i).cpu.regs = _ := hregs ▸ resolve_pc m .byte s.cpu.regs i.nextPc
  have haddr' : (m.resolve .byte (t.begun config i).cpu.regs).1 = isr := by rw [hresolve, haddr]
  obtain ⟨v, carry, hp, hbus, hv, hq⟩ := bitOperation_status hop number hisr haddr'
  have hperform : perform i.op config (t.begun config i) = .ok () v := by
    rw [hi]
    exact hp
  refine ⟨_, carry, carriesOut_iff.2 ⟨hawake, hdue, t, v, hd, hperform, rfl⟩, ?_, ?_, ?_⟩
  · exact hbus.trans (System.begun_bus ..)
  · rw [hresolve] at hv
    exact hv
  · have hnumber : (t.begun config i).cpu.regs.bitNumber number = s.cpu.regs.bitNumber number := by
      rw [hregs]
      cases number <;> rfl
    rw [hpending, hnumber] at hq
    exact hq

/-! ### Interception -/

/-- The core itself is the register at `isr`. -/
structure Intercepts (β : Type) [Bus β] (config : Config) (isr : UInt32) : Prop where
  /-- No access that a step puts to the bus covers the register, be it that the step ends or that it fails. -/
  spared {s u : System β} : Leads config step s u → ∀ view : β → List BusAccess, Bus.Notes view →
    ∃ made, view u.bus = view s.bus ++ made ∧ ∀ a ∈ made, a.addr ≠ isr
  /-- A step takes back gated interrupts and the one that it enters, and no others; it requests none. -/
  dwindles {s u : System β} : Leads config step s u → Dwindles s.cpu.dueInterrupt? s.cpu.pending u.cpu.pending
  /-- An instruction takes interrupts back by what it writes to the register, access by access. -/
  executes {i : Instruction} {s u : System β} : CarriesOut config i s u → ∃ log l, Executes config s i log l u ∧
    u.cpu.pending = (log.flatMap (statusWrites config)).foldl InterruptSet.acknowledge s.cpu.pending
  /-- Code shows the pending interrupts where it covers the register. -/
  fetched {pc : UInt32} {i : Instruction} {s t : System β} : Instruction.decode read8 pc config s = .ok i t →
    ∀ (k : Nat) (b : UInt8), i.bytes[k]? = some b → i.addr + k.toUInt32 = isr → b = s.cpu.pending.status
  /-- A byte read from the register shows the pending interrupts. -/
  read (s : System β) :
    (read8 isr : CpuM β UInt8) config s = .ok s.cpu.pending.status { s with cpu := s.cpu.charged .read isr }
  /-- So does the byte of an operand that covers the register. -/
  readSized {width : Width} {addr value : UInt32} {s t : System β} : readSized width addr config s = .ok value t →
    ∀ (k : Nat) (b : UInt8), (width.toBytes value)[k]? = some b → isr.toNat = addr.toNat + k → b = s.cpu.pending.status
  /-- A byte written to the register takes interrupts back and does nothing else. -/
  write (s : System β) (value : UInt8) : (write8 isr value : CpuM β Unit) config s =
    .ok () { s with cpu := { s.cpu.charged .write isr with pending := s.cpu.pending.acknowledge value } }
  /-- So does the byte of an operand that covers the register, -/
  writeSized {width : Width} {addr value : UInt32} {s t : System β} : addr.toNat + width.bytes.toNat ≤ 2 ^ 32 →
    writeSized width addr value config s = .ok () t → TakesBack isr addr (width.toBytes value) s t
  /-- and no other byte does, be it that the access ends or that it fails. -/
  writeSized_only {width : Width} {addr value : UInt32} {s t : System β} : addr.toNat + width.bytes.toNat ≤ 2 ^ 32 →
    Leads config (CpuM.writeSized width addr value) s t → MayTakeBack isr addr (width.toBytes value) s t
  /-- Beside the register accesses are as if there were none. -/
  readSized_beside {width : Width} {addr : UInt32} : addr.toNat + width.bytes.toNat ≤ 2 ^ 32 →
    isr.toNat < addr.toNat ∨ addr.toNat + width.bytes.toNat ≤ isr.toNat → ∀ s : System β,
      CpuM.readSized width addr config s = CpuM.readSized width addr { config with isrAddress := none } s
  writeSized_beside {width : Width} {addr : UInt32} : addr.toNat + width.bytes.toNat ≤ 2 ^ 32 →
    isr.toNat < addr.toNat ∨ addr.toNat + width.bytes.toNat ≤ isr.toNat → ∀ (value : UInt32) (s : System β),
      CpuM.writeSized width addr value config s = CpuM.writeSized width addr value { config with isrAddress := none } s
  /-- An instruction that clears a bit of the register ends, and it takes back the interrupt of that bit. -/
  bclr {i : Instruction} {number : BitNumber} {m : MemOperand} {s t : System β} : s.cpu.sleeping = false →
    s.cpu.dueInterrupt? = none → Instruction.decode read8 s.cpu.regs.pc config s = .ok i t →
    i.op = .bit .bclr number (.mem m) → (m.resolve .byte s.cpu.regs).1 = isr →
    ∀ n, s.cpu.regs.bitNumber number &&& 7 = n → n < 6 →
      ∃ u, CarriesOut config i s u ∧ u.bus = t.bus ∧ u.cpu.pending = s.cpu.pending.erase (InterruptSet.firstGated + n)
  /-- An instruction that sets a bit of the register ends, and it changes nothing. -/
  bset {i : Instruction} {number : BitNumber} {m : MemOperand} {s t : System β} : s.cpu.sleeping = false →
    s.cpu.dueInterrupt? = none → Instruction.decode read8 s.cpu.regs.pc config s = .ok i t →
    i.op = .bit .bset number (.mem m) → (m.resolve .byte s.cpu.regs).1 = isr →
      ∃ u, CarriesOut config i s u ∧ u.bus = t.bus ∧ u.cpu.pending = s.cpu.pending ∧
        u.cpu.regs = { (m.resolve .byte s.cpu.regs).2 with pc := i.nextPc }

/-- At the address of the status register the core answers itself in every step.  The register shows the pending interrupts
12 to 17 in its bits 0 to 5, and what is written to it takes back those of them whose bits are zero, and no others. -/
theorem status_register_intercepted (hisr : config.isrAddress = some isr) :
    Intercepts β config isr ∧
    ∀ (p : InterruptSet) (k : Nat),
      p.status.toNat.testBit k = (decide (k < 6) && p.mask.toNat.testBit (12 + k)) ∧
      (∀ value : UInt8, (p.acknowledge value).mask.toNat.testBit k =
        (p.mask.toNat.testBit k && (decide (k < 12) || decide (18 ≤ k) || value.toNat.testBit (k - 12)))) ∧
      (∀ n < 64, (p.erase n).mask.toNat.testBit k = (p.mask.toNat.testBit k && decide (k ≠ n.toNat))) := by
  refine ⟨?_, fun p k =>
    ⟨p.testBit_status k, fun value => p.testBit_acknowledge value k, fun n hn => p.testBit_erase hn k⟩⟩
  exact
    { spared := fun h view hview => step_spared hisr h hview
      dwindles := step_dwindles
      executes := fun h => by
        obtain ⟨log, l, hex⟩ := h.executes
        exact ⟨log, l, hex, hex.pending⟩
      fetched := fun hd k b hb haddr => (decode_ok hd).2.2.status hisr haddr hb
      read := fun s => read8_status hisr
      readSized := fun h k b hb haddr => readSized_status hisr h haddr hb
      write := fun s value => write8_status hisr value
      writeSized := fun hroom h => writeSized_takesBack hisr hroom h
      writeSized_only := fun hroom h => writeSized_leads hisr hroom h
      readSized_beside := fun hroom hbeside s => CpuM.readSized_beside hisr hroom hbeside s
      writeSized_beside := fun hroom hbeside value s => CpuM.writeSized_beside hisr hroom hbeside value s
      bclr := by
        intro i number m s t hawake hdue hd hi haddr n hn hlt
        obtain ⟨u, carry, hu, hbus, -, hpending⟩ := carriesOut_bit rfl hisr hawake hdue hd hi haddr
        refine ⟨u, hu, hbus, ?_⟩
        rw [hpending]
        exact s.cpu.pending.acknowledge_status_clear hlt (hn ▸ bitMask_toNat _)
      bset := by
        intro i number m s t hawake hdue hd hi haddr
        obtain ⟨u, carry, hu, hbus, hregs, hpending⟩ := carriesOut_bit rfl hisr hawake hdue hd hi haddr
        refine ⟨u, hu, hbus, ?_, hregs⟩
        rw [hpending]
        exact s.cpu.pending.acknowledge_status_or _ }

/-- `BCLR #2,@FFFFF6`, with the interrupts 0, 12 and 14 pending and masked. -/
def clearing : System Memory where
  cpu := { regs := { ccr := { i := true } }, pending := ⟨0x5001⟩ }
  bus := ({ size := 4 } : Memory).storeAll 0 [0x7F, 0xF6, 0x72, 0x20]

/-- Of three interrupts an instruction takes one back. -/
theorem status_register_intercepted_clearing :
    ({} : Config).isrAddress = some 0xFFFFF6 ∧ ∃ i u, CarriesOut {} i clearing u ∧ u.cpu.pending = ⟨0x1001⟩ := by
  have hcode : Code {} clearing.bus (Address.even 0) [0x7F, 0xF6, 0x72, 0x20] := by
    refine code_storeAll (by decide) (by decide) ?_
    intro isr hi
    cases hi
    decide
  obtain ⟨t, hf⟩ := fetches_of_code hcode
  have hd : Instruction.decode read8 clearing.cpu.regs.pc {} clearing =
      .ok ⟨0, .bit .bclr (.imm 2) (.mem (.absolute 0xFFFFF6)), [0x7F, 0xF6, 0x72, 0x20]⟩ t := decode_of_fetches hf rfl
  have hintercepts : Intercepts Memory {} 0xFFFFF6 := (status_register_intercepted rfl).1
  obtain ⟨u, hu, -, hpending⟩ := hintercepts.bclr (s := clearing) rfl rfl hd rfl rfl 2 (by decide) (by decide)
  have hleft : clearing.cpu.pending.erase (InterruptSet.firstGated + 2) = ⟨0x1001⟩ := by decide
  exact ⟨rfl, _, u, hu, hpending.trans hleft⟩

end H8S.CpuM
