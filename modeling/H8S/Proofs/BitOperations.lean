import H8S.Proofs.CanonicalEncodings
import H8S.Proofs.DistinctEncodings
import H8S.Proofs.Executions
import H8S.Proofs.RegisterViews
import H8S.Proofs.StepCosts
import H8S.Proofs.WellFormedOperations

/-!
# Operations on one bit

`BitOp.Operates` says bit by bit what an operation makes of a byte and of the flags: the bit it is about is what
`BitOp.bitAfter` says and the others stay, and only `Z` or `C` changes.  The arithmetic with masks is of this kind for every
number (`BitOp.operates`), and as nothing is left open (`BitOp.Operates.unique`), the same byte, number and flags give the
same result wherever the byte lies.

Execution is gone through once for registers and once for memory.  A byte in memory is recorded with its accesses, so that it
shows when and where it is written back (`ChangesMemoryBit`).  Of the places in memory only pointers and absolute addresses
are encoded (`Operation.Encoded.place`): the two bytes that select the bit, which is all that would be left of any other
place, begin operations on registers.
-/

namespace H8S

open Encoding

namespace BitOp

/-! ### One bit of a byte -/

/-- What an operation makes of its bit. -/
def bitAfter (op : BitOp) (bit carry : Bool) : Bool :=
  match op with
  | .bset => true
  | .bclr => false
  | .bnot => !bit
  | .bst | .bist => carry ^^ inverted op
  | _ => bit

/-- What an operation makes of the carry. -/
def carryAfter (op : BitOp) (bit carry : Bool) : Bool :=
  match op with
  | .bld | .bild => bit ^^ inverted op
  | .bor | .bior => carry || (bit ^^ inverted op)
  | .bxor | .bixor => carry ^^ (bit ^^ inverted op)
  | .band | .biand => carry && (bit ^^ inverted op)
  | _ => carry

/-- What an operation makes of the zero flag. -/
def zeroAfter (op : BitOp) (bit zero : Bool) : Bool := if op = .btst then !bit else zero

/-- An operation on bit `k` makes the byte `y` of `x` and the flags `g` of `f`. -/
structure Operates (op : BitOp) (k : Nat) (x y : UInt8) (f g : ConditionCodes) : Prop where
  bit : y.toNat.testBit k = op.bitAfter (x.toNat.testBit k) f.c
  others : ∀ i, i ≠ k → y.toNat.testBit i = x.toNat.testBit i
  flags : g = { f with z := op.zeroAfter (x.toNat.testBit k) f.z, c := op.carryAfter (x.toNat.testBit k) f.c }

private theorem bitMask_toBitVec : ∀ n : UInt8, (bitMask n).toBitVec = BitVec.twoPow 8 (n.toNat % 8) :=
  forall_byte (by decide)

private theorem testBit_bitMask (n : UInt8) (i : Nat) : (bitMask n).toNat.testBit i = decide (n.toNat % 8 = i) := by
  have hlt : n.toNat % 8 < 8 := Nat.mod_lt _ (by decide)
  show (bitMask n).toBitVec.getLsbD i = _
  rw [bitMask_toBitVec, BitVec.getLsbD_twoPow, decide_eq_true hlt, Bool.true_and]

private theorem and_bitMask (x n : UInt8) : (x &&& bitMask n != 0) = x.toNat.testBit (n.toNat % 8) := by
  have hlt : n.toNat % 8 < 8 := Nat.mod_lt _ (by decide)
  have hbits : (x &&& bitMask n != 0) = (x.toBitVec &&& (bitMask n).toBitVec != 0#8) := by
    rw [← UInt8.toBitVec_and]
    simp [bne, BEq.beq, ← UInt8.toBitVec_inj]
  have hnonzero : BitVec.twoPow 8 (n.toNat % 8) ≠ 0#8 := by
    intro hzero
    have hbit := congrArg (BitVec.getLsbD · (n.toNat % 8)) hzero
    simp [hlt] at hbit
  show _ = x.toBitVec.getLsbD (n.toNat % 8)
  rw [hbits, bitMask_toBitVec, BitVec.and_twoPow]
  cases x.toBitVec.getLsbD (n.toNat % 8) with
  | false => rfl
  | true => simpa using hnonzero

private theorem testBit_assign (x n : UInt8) (value : Bool) (i : Nat) :
    (assign x (bitMask n) value).toNat.testBit i = if i = n.toNat % 8 then value else x.toNat.testBit i := by
  have hlt : n.toNat % 8 < 8 := Nat.mod_lt _ (by decide)
  cases value with
  | true =>
    show (x ||| bitMask n).toNat.testBit i = _
    rw [UInt8.toNat_or, Nat.testBit_or, testBit_bitMask]
    by_cases hi : i = n.toNat % 8
    · simp [hi]
    · simp [hi, Ne.symm hi]
  | false =>
    show (x.toBitVec &&& ~~~(bitMask n).toBitVec).getLsbD i = if i = n.toNat % 8 then false else x.toBitVec.getLsbD i
    rw [BitVec.getLsbD_and, BitVec.getLsbD_not, bitMask_toBitVec, BitVec.getLsbD_twoPow, decide_eq_true hlt]
    by_cases hi : i = n.toNat % 8
    · simp [hi]
    · -- a byte has no bits from the eighth on
      have hx : (x.toBitVec.getLsbD i && decide (i < 8)) = x.toBitVec.getLsbD i := by
        by_cases h8 : i < 8
        · simp [h8]
        · simp [BitVec.getLsbD_of_ge x.toBitVec i (by omega)]
      simp [hi, Ne.symm hi, hx]

/-- The bit of the number is what the operation makes of it, and the others are as they were. -/
private theorem testBit_updated (op : BitOp) (x n : UInt8) (carry : Bool) (i : Nat) :
    (op.updated x (bitMask n) carry).toNat.testBit i =
      if i = n.toNat % 8 then op.bitAfter (x.toNat.testBit (n.toNat % 8)) carry else x.toNat.testBit i := by
  have hkept : x.toNat.testBit i = if i = n.toNat % 8 then x.toNat.testBit (n.toNat % 8) else x.toNat.testBit i := by
    split
    · next hi => rw [hi]
    · rfl
  cases op with
  | bset | bclr => exact testBit_assign x n _ i
  | bst => exact (testBit_assign x n carry i).trans (by simp [bitAfter, inverted])
  | bist => exact (testBit_assign x n (!carry) i).trans (by simp [bitAfter, inverted])
  | bnot =>
    show (x ^^^ bitMask n).toNat.testBit i = _
    rw [UInt8.toNat_xor, Nat.testBit_xor, testBit_bitMask]
    by_cases hi : i = n.toNat % 8
    · simp [hi, bitAfter]
    · simp [hi, Ne.symm hi]
  | _ => exact hkept

/-- An operation on a byte and the flags, with the number modulo eight. -/
theorem operates (op : BitOp) (x n : UInt8) (f : ConditionCodes) :
    op.Operates (n.toNat % 8) x (op.updated x (bitMask n) f.c) f (op.observed (x &&& bitMask n != 0) f) where
  bit := by rw [testBit_updated, if_pos rfl]
  others i hi := by rw [testBit_updated, if_neg hi]
  flags := by
    rw [and_bitMask]
    cases op <;> simp [observed, carryAfter, zeroAfter, inverted]

/-- The bits and the flags are all that there is. -/
theorem Operates.unique {op : BitOp} {k : Nat} {x y y' : UInt8} {f g g' : ConditionCodes} (h : op.Operates k x y f g)
    (h' : op.Operates k x y' f g') : y = y' ∧ g = g' := by
  refine ⟨UInt8.toNat_inj.1 (Nat.eq_of_testBit_eq fun i => ?_), h.flags.trans h'.flags.symm⟩
  by_cases hi : i = k
  · rw [hi, h.bit, h'.bit]
  · rw [h.others i hi, h'.others i hi]

theorem updated_of_reads {op : BitOp} (h : op.modifies = false) (x mask : UInt8) (carry : Bool) :
    op.updated x mask carry = x := by
  cases op <;> first | rfl | cases h

theorem observed_of_modifies {op : BitOp} (h : op.modifies = true) (bit : Bool) (f : ConditionCodes) :
    op.observed bit f = f := by
  cases op <;> first | rfl | cases h

end BitOp

/-! ### Targets that are encoded -/

section Targets

open Decoding

/-- The operation is not one on a bit in memory. -/
private def SparesMemory (_ : List UInt8) : Operation → Prop
  | .bit _ _ (.mem _) => False
  | _ => True

private theorem page6_spares : ∀ code ∈ [0, 1, 2, 3, 4, 5, 6, 7], Leaves SparesMemory [] (page6 code) := by
  have hindexed : ∀ code, Leaves SparesMemory [] (indexedRegisterBit code) := by
    simp [indexedRegisterBit, SparesMemory]
  have hcarry : Leaves SparesMemory [] carryIntoRegisterBit := by
    simp [carryIntoRegisterBit, SparesMemory]
  have halu : ∀ op width, Leaves SparesMemory [] (aluRegisters op width) := by
    simp [aluRegisters, SparesMemory]
  simp only [List.forall_mem_cons, List.not_mem_nil, false_imp_iff, implies_true, and_true]
  exact ⟨hindexed 0, hindexed 1, hindexed 2, hindexed 3, halu .or .word, halu .xor .word, halu .and .word, hcarry⟩

private theorem page7_spares : ∀ code ∈ [0, 1, 2, 3, 4, 5, 6, 7], Leaves SparesMemory [] (page7 code) := by
  have hnumbered : ∀ code, Leaves SparesMemory [] (numberedRegisterBit code) := by
    simp [numberedRegisterBit, SparesMemory]
  simp only [List.forall_mem_cons, List.not_mem_nil, false_imp_iff, implies_true, and_true]
  exact ⟨hnumbered 0, hnumbered 1, hnumbered 2, hnumbered 3, hnumbered 4, hnumbered 5, hnumbered 6, hnumbered 7⟩

/-- The two bytes that select a bit are by themselves no operation on a bit in memory. -/
private theorem feed_bitSelection {start : UInt32} {op : BitOp} {number : BitNumber} {result : Operation}
    (h : (operation start).feed (bitSelection op number 0) = some (.done result)) : SparesMemory [] result := by
  have hhalf : bitHalf op ∈ [0, 1, 2, 3, 4, 5, 6, 7] := by cases op <;> decide
  have hpage : ∃ code ∈ [0, 1, 2, 3, 4, 5, 6, 7], ∃ b,
      (operation start).feed (bitSelection op number 0) = (page6 code).feed [b] ∨
      (operation start).feed (bitSelection op number 0) = (page7 code).feed [b] := by
    cases number with
    | reg id => exact ⟨bitHalf op, hhalf, halves id 0, by cases op <;> exact .inl rfl⟩
    | imm n =>
      refine ⟨bitHalf op, hhalf, marked (inverted op) (halves n 0), ?_⟩
      -- the stores are on the page of the registers
      cases op
      case bst | bist => exact .inl rfl
      all_goals exact .inr rfl
  obtain ⟨code, hcode, b, he | he⟩ := hpage
  · exact leaves_iff_feed.1 (page6_spares code hcode) [b] result (he ▸ h)
  · exact leaves_iff_feed.1 (page7_spares code hcode) [b] result (he ▸ h)

end Targets

/-- Some code is an encoding of the operation. -/
def Operation.Encoded (op : Operation) : Prop :=
  ∃ (addr : UInt32) (code : List UInt8), Instruction.ofCode addr code.toArray = .ok ⟨Address.even addr, op, code⟩

theorem Operation.Encoded.wellFormed {op : Operation} (h : op.Encoded) : op.WellFormed := by
  obtain ⟨addr, code, hcode⟩ := h
  have hleaves : Decoding.Leaves (fun _ op => op.WellFormed) [] (Decoding.operation (Address.even addr)) :=
    Decoding.operation_wellFormed
  exact Decoding.leaves_iff_feed.1 hleaves code op (Instruction.ofCode_ok_iff.1 hcode)

/-- The address of a bit in memory is a pointer or in the code. -/
theorem Operation.Encoded.place {op : BitOp} {number : BitNumber} {m : MemOperand}
    (h : (Operation.bit op number (.mem m)).Encoded) : (∃ p, m = .indirect p) ∨ ∃ a, m = .absolute a := by
  obtain ⟨addr, code, hcode⟩ := h
  have hfeed := Instruction.ofCode_ok_iff.1 hcode
  have hcanonical := Decoding.leaves_iff_feed.1 (Decoding.operation_canonical _) code _ hfeed
  cases m with
  | indirect p => exact .inl ⟨p, rfl⟩
  | absolute a => exact .inr ⟨a, rfl⟩
  | postInc p | preDec p | displaced disp base =>
    have hbytes : bitSelection op number 0 = code := hcanonical
    have hspares : SparesMemory [] (.bit op number (.mem _)) := feed_bitSelection (hbytes ▸ hfeed)
    exact hspares.elim

/-- No pointer moves. -/
private theorem Operation.Encoded.resolve_snd {op : BitOp} {number : BitNumber} {m : MemOperand}
    (h : (Operation.bit op number (.mem m)).Encoded) (r : Registers) : (m.resolve .byte r).2 = r := by
  rcases h.place with ⟨p, rfl⟩ | ⟨a, rfl⟩ <;> rfl

/-! ### Numbers of bits -/

/-- The bit that a number is about: an immediate, or the low three bits of a register. -/
def Registers.bitIndex (r : Registers) : BitNumber → Nat
  | .imm n => n.toNat
  | .reg id => (r.readByte id).toNat % 8

private theorem bitNumber_mod (r : Registers) {number : BitNumber} (h : number.WellFormed) :
    (r.bitNumber number).toNat % 8 = r.bitIndex number := by
  cases number with
  | imm n => exact Nat.mod_eq_of_lt (UInt8.lt_iff_toNat_lt.1 h)
  | reg id => rfl

/-- The byte that an operation leaves of another. -/
def Registers.bitResult (r : Registers) (op : BitOp) (number : BitNumber) (x : UInt8) : UInt8 :=
  op.updated x (bitMask (r.bitNumber number)) r.ccr.c

/-- The flags that an operation on a byte leaves. -/
def Registers.bitFlags (r : Registers) (op : BitOp) (number : BitNumber) (x : UInt8) : ConditionCodes :=
  op.observed (x &&& bitMask (r.bitNumber number) != 0) r.ccr

/-- The registers after an operation on a bit of one of them. -/
def Registers.withBit (r : Registers) (op : BitOp) (number : BitNumber) (id : UInt8) : Registers :=
  let x := r.readByte id
  { (if op.modifies then r.writeByte id (r.bitResult op number x) else r) with ccr := r.bitFlags op number x }

/-- An operation that does not modify leaves the register as it was. -/
private theorem readByte_withBit (r : Registers) {op : BitOp} {number : BitNumber} {id : UInt8} :
    (r.withBit op number id).readByte id = r.bitResult op number (r.readByte id) := by
  show (if op.modifies then r.writeByte id (r.bitResult op number (r.readByte id)) else r).readByte id = _
  cases hm : op.modifies with
  | true => exact Registers.readByte_writeByte id _
  | false => exact (BitOp.updated_of_reads hm _ _ _).symm

private theorem bit_operates (r : Registers) (op : BitOp) {number : BitNumber} (h : number.WellFormed) (x : UInt8) :
    op.Operates (r.bitIndex number) x (r.bitResult op number x) r.ccr (r.bitFlags op number x) := by
  rw [← bitNumber_mod r h]
  exact op.operates x (r.bitNumber number) r.ccr

/-! ### What a recorder hides -/

section Recorded

variable {β α γ : Type} {view : β → γ}

private theorem logged_keeps {action : BusM β α} (access : BusAccess) (h : BusM.Keeps view action) :
    BusM.Keeps (fun r : Recorder β => view r.bus) (Recorder.logged access action) where
  ok {r a r'} hr := by
    obtain ⟨bus, he, rfl⟩ := Recorder.logged_ok.1 hr
    exact h.ok he
  error {r e r'} hr := by
    obtain ⟨bus, he, rfl⟩ := Recorder.logged_error.1 hr
    exact h.error he

/-- What byte reads leave alone below a recorder, all reads leave alone. -/
theorem Recorder.keptByReads [Bus β] (h : ∀ addr, BusM.Keeps view (Bus.read8 addr)) :
    Bus.KeptByReads fun r : Recorder β => view r.bus where
  read8 addr := logged_keeps (.read addr) (h addr)
  read16 addr :=
    (logged_keeps (.read addr) (h addr)).bind fun _ =>
      (logged_keeps (.read (addressAfter addr)) (h (addressAfter addr))).bind fun _ => .pure _

end Recorded

namespace CpuM

variable {config : Config} {op : BitOp} {number : BitNumber} {id : UInt8} {m : MemOperand}

/-! ### What an operation does -/

/-- A bit operation on a register, which leaves the byte `y` and the flags `f`, and reads no memory but its own bytes. -/
structure ChangesRegisterBit (op : BitOp) (id y : UInt8) (f : ConditionCodes) (s t : System (Recorder Memory)) : Prop where
  byte : t.cpu.regs.readByte id = y
  /-- The register is written exactly if the operation modifies. -/
  regs : ∃ pc, t.cpu.regs = { (if op.modifies then s.cpu.regs.writeByte id y else s.cpu.regs) with pc := pc, ccr := f }
  memory : t.bus.bus = s.bus.bus
  log : ∃ fetched, (∀ a ∈ fetched, a.direction = .read) ∧ t.bus.log.toList = s.bus.log.toList ++ fetched

/-- A bit operation on the byte at an address, which leaves the byte `y` and the flags `f`. -/
structure ChangesMemoryBit (op : BitOp) (addr : UInt32) (y : UInt8) (f : ConditionCodes) (s t : System (Recorder Memory)) :
    Prop where
  byte : t.bus.bus.get addr = y
  regs : ∃ pc, t.cpu.regs = { s.cpu.regs with pc := pc, ccr := f }
  memory : t.bus.bus = if op.modifies then s.bus.bus.store addr y else s.bus.bus
  /-- After the bytes of the instruction the address is read, and it is written, once, exactly if the operation modifies. -/
  log : ∃ fetched, (∀ a ∈ fetched, a.direction = .read) ∧
    t.bus.log.toList = s.bus.log.toList ++ fetched ++ .read addr :: (if op.modifies then [.write addr y] else [])

/-! ### On a register -/

private theorem run_operateBit {β : Type} [Bus β] {b : System β} (mask byte : UInt8)
    (writeBack : UInt8 → CpuM β Unit) :
    operateBit op mask byte writeBack config b =
      if op.modifies then writeBack (op.updated byte mask b.cpu.regs.ccr.c) config b
      else .ok () { b with
        cpu := { b.cpu with regs := { b.cpu.regs with ccr := op.observed (byte &&& mask != 0) b.cpu.regs.ccr } } } := by
  rw [operateBit_eq]
  split <;> rfl

theorem perform_bit_reg {β : Type} [Bus β] (b : System β) :
    perform (.bit op number (.reg id)) config b =
      .ok () { b with cpu := { b.cpu with regs := b.cpu.regs.withBit op number id } } := by
  change operateBit op (bitMask (b.cpu.regs.bitNumber number)) (b.cpu.regs.readByte id)
    (fun value => modifyRegs (·.writeByte id value)) config b = _
  rw [run_operateBit]
  unfold Registers.withBit Registers.bitFlags Registers.bitResult
  cases hm : op.modifies with
  | true =>
    simp only [if_true, BitOp.observed_of_modifies hm]
    exact run_modifyRegs _
  | false => rfl

/-! ### In memory -/

/-- An address in memory beside the status register. -/
def PlainByte (config : Config) (memory : Memory) (addr : UInt32) : Prop :=
  addr.toNat < memory.size ∧ config.isrAddress ≠ some addr

variable {b : System (Recorder Memory)} {addr : UInt32}

private theorem read8_recorded (h : PlainByte config b.bus.bus addr) :
    read8 addr config b = .ok (b.bus.bus.get addr)
      { b with cpu := b.cpu.charged .read addr, bus := ⟨b.bus.bus, b.bus.log.push (.read addr)⟩ } := by
  have hread : (Bus.read8 addr : BusM (Recorder Memory) UInt8) b.bus =
      .ok (b.bus.bus.get addr) ⟨b.bus.bus, b.bus.log.push (.read addr)⟩ :=
    Recorder.logged_ok.2 ⟨_, Memory.busRead_ok.2 ⟨h.1, rfl, rfl⟩, rfl⟩
  unfold read8 load8
  rw [bind_of_ok (run_charge .read addr), bind_of_ok run_read, if_neg h.2]
  exact onBus_ok.2 ⟨_, hread, rfl⟩

private theorem write8_recorded (value : UInt8) (h : PlainByte config b.bus.bus addr) :
    write8 addr value config b = .ok () { b with
      cpu := b.cpu.charged .write addr
      bus := ⟨b.bus.bus.store addr value, b.bus.log.push (.write addr value)⟩ } := by
  have hwrite : (Bus.write8 addr value : BusM (Recorder Memory) Unit) b.bus =
      .ok () ⟨b.bus.bus.store addr value, b.bus.log.push (.write addr value)⟩ :=
    Recorder.logged_ok.2 ⟨_, Memory.busWrite_ok.2 ⟨h.1, rfl⟩, rfl⟩
  unfold write8 store8
  rw [bind_of_ok (run_charge .write addr), bind_of_ok run_read, if_neg h.2]
  exact onBus_ok.2 ⟨_, hwrite, rfl⟩

/-- The byte is read once, and a byte is written to the same address exactly if the operation modifies. -/
private theorem perform_bit_mem (op : BitOp) (number : BitNumber) (ha : m.resolve .byte b.cpu.regs = (addr, b.cpu.regs))
    (h : PlainByte config b.bus.bus addr) :
    ∃ v, perform (.bit op number (.mem m)) config b = .ok () v ∧
      ChangesMemoryBit op addr (b.cpu.regs.bitResult op number (b.bus.bus.get addr))
        (b.cpu.regs.bitFlags op number (b.bus.bus.get addr)) b v := by
  have hresolve : resolve m .byte config b = .ok addr b := by
    have hrun : resolve m .byte config b = .ok (m.resolve .byte b.cpu.regs).1
        { b with cpu := { b.cpu with regs := (m.resolve .byte b.cpu.regs).2 } } := rfl
    rw [hrun, ha]
  have hperform : perform (.bit op number (.mem m)) config b =
      operateBit op (bitMask (b.cpu.regs.bitNumber number)) (b.bus.bus.get addr) (write8 addr) config
        { b with cpu := b.cpu.charged .read addr, bus := ⟨b.bus.bus, b.bus.log.push (.read addr)⟩ } := by
    change (resolve m .byte >>= fun addr => read8 addr >>= fun byte =>
      operateBit op (bitMask (b.cpu.regs.bitNumber number)) byte (write8 addr)) config b = _
    rw [bind_of_ok hresolve, bind_of_ok (read8_recorded h)]
  rw [hperform, run_operateBit]
  cases hmod : op.modifies with
  | true =>
    refine ⟨_, write8_recorded _ h, ?_, ⟨b.cpu.regs.pc, ?_⟩, ?_, [], by simp, ?_⟩
    · exact (Memory.get_store ..).trans (if_pos rfl)
    · simp only [Registers.bitFlags, BitOp.observed_of_modifies hmod]
      rfl
    · rw [hmod]
      rfl
    · simp [hmod, Registers.bitResult]
      rfl
  | false =>
    refine ⟨_, rfl, ?_, ⟨b.cpu.regs.pc, rfl⟩, ?_, [], by simp, ?_⟩
    · exact (BitOp.updated_of_reads hmod _ _ _).symm
    · rw [hmod]
      rfl
    · simp [hmod]

/-! ### Wherever the operation is executed -/

/-- Before an operation is performed nothing but its own bytes is read. -/
theorem Executed.fetched_first {β : Type} [Bus β] {op : Operation} {s t : System β} {view : β → List BusAccess}
    (h : Executed config op s t) (hview : Bus.Notes view) :
    ∃ b v fetched, Readied s b ∧ view b.bus = view s.bus ++ fetched ∧ (∀ a ∈ fetched, a.direction = .read) ∧
      perform op config b = .ok () v ∧ t = v.spent op.internalCycles.toUInt64 := by
  cases h with
  | alone i hop h =>
    subst hop
    obtain ⟨v, hp, ht⟩ := execute_ok.1 h
    exact ⟨_, v, [], readied_alone s i.nextPc, (List.append_nil _).symm, by simp, hp, ht⟩
  | fetched i hop h =>
    subst hop
    obtain ⟨-, -, f, v, hd, hp, ht⟩ := carriesOut_iff.1 h
    obtain ⟨-, -, hf⟩ := decode_ok hd
    refine ⟨_, v, (fetchesFrom i.addr i.bytes.length).filter (reachesBus config), readied_fetched hd, ?_, ?_, hp, ht⟩
    · rw [System.begun_bus]
      exact hf.accounts.noted view hview
    · intro a ha
      obtain ⟨k, -, rfl⟩ := List.mem_map.1 (List.mem_of_mem_filter ha)
      rfl

variable {s t : System (Recorder Memory)}

private theorem executed_bit_reg (h : Executed config (.bit op number (.reg id)) s t) :
    ChangesRegisterBit op id (s.cpu.regs.bitResult op number (s.cpu.regs.readByte id))
      (s.cpu.regs.bitFlags op number (s.cpu.regs.readByte id)) s t := by
  obtain ⟨b, v, fetched, hb, hlog, hreads, hp, rfl⟩ := h.fetched_first Recorder.notes
  obtain ⟨pc, hregs⟩ := hb.regs
  rw [perform_bit_reg] at hp
  cases hp
  have hmemory : b.bus.bus = s.bus.bus := hb.bus (Recorder.keptByReads keptByReads_memory.read8)
  refine ⟨?_, ⟨pc, ?_⟩, hmemory, fetched, hreads, hlog⟩
  · show (b.cpu.regs.withBit op number id).readByte id = _
    rw [hregs]
    exact readByte_withBit { s.cpu.regs with pc := pc }
  · show b.cpu.regs.withBit op number id = _
    rw [hregs]
    unfold Registers.withBit
    cases op.modifies <;> rfl

/-- Fetching comes before the accesses of the operation. -/
private theorem ChangesMemoryBit.of_fetched {b v : System (Recorder Memory)} {addr : UInt32} {y : UInt8} {f : ConditionCodes}
    {fetched : List BusAccess} (h : ChangesMemoryBit op addr y f b v) (hb : Readied s b)
    (hlog : b.bus.log.toList = s.bus.log.toList ++ fetched) (hreads : ∀ a ∈ fetched, a.direction = .read)
    (cycles : UInt64) :
    ChangesMemoryBit op addr y f s (v.spent cycles) where
  byte := h.byte
  regs := by
    obtain ⟨pc, hv⟩ := h.regs
    obtain ⟨pc', hregs⟩ := hb.regs
    exact ⟨pc, by rw [System.spent, hv, hregs]⟩
  memory := by
    have hmemory : b.bus.bus = s.bus.bus := hb.bus (Recorder.keptByReads keptByReads_memory.read8)
    rw [← hmemory]
    exact h.memory
  log := by
    obtain ⟨own, hown, hv⟩ := h.log
    refine ⟨fetched ++ own, fun a ha => (List.mem_append.1 ha).elim (hreads a) (hown a), ?_⟩
    rw [← List.append_assoc, ← hlog]
    exact hv

/-- Fetching leaves the address and what is there alone. -/
private theorem performed_bit_mem (op : BitOp) (number : BitNumber) {addr : UInt32} (hm : ∀ r, (m.resolve .byte r).2 = r)
    (ha : (m.resolve .byte s.cpu.regs).1 = addr) (hplain : PlainByte config s.bus.bus addr) {b : System (Recorder Memory)}
    (hb : Readied s b) :
    ∃ v, perform (.bit op number (.mem m)) config b = .ok () v ∧
      ChangesMemoryBit op addr (s.cpu.regs.bitResult op number (s.bus.bus.get addr))
        (s.cpu.regs.bitFlags op number (s.bus.bus.get addr)) b v := by
  obtain ⟨pc, hregs⟩ := hb.regs
  have hmemory : b.bus.bus = s.bus.bus := hb.bus (Recorder.keptByReads keptByReads_memory.read8)
  have haddr : m.resolve .byte b.cpu.regs = (addr, b.cpu.regs) := by
    refine Prod.ext ?_ (hm b.cpu.regs)
    rw [hregs, ← ha]
    cases m <;> rfl
  obtain ⟨v, hv, hchange⟩ := perform_bit_mem op number haddr (hmemory ▸ hplain)
  rw [hmemory, hregs] at hchange
  exact ⟨v, hv, hchange⟩

private theorem executed_bit_mem {addr : UInt32} (hm : ∀ r, (m.resolve .byte r).2 = r)
    (ha : (m.resolve .byte s.cpu.regs).1 = addr) (hplain : PlainByte config s.bus.bus addr)
    (h : Executed config (.bit op number (.mem m)) s t) :
    ChangesMemoryBit op addr (s.cpu.regs.bitResult op number (s.bus.bus.get addr))
      (s.cpu.regs.bitFlags op number (s.bus.bus.get addr)) s t := by
  obtain ⟨b, v, fetched, hb, hlog, hreads, hp, rfl⟩ := h.fetched_first Recorder.notes
  obtain ⟨v', hv, hchange⟩ := performed_bit_mem op number hm ha hplain hb
  rw [hp] at hv
  cases hv
  exact hchange.of_fetched hb hlog hreads _

/-- A bit operation makes the same byte and the same flags of a byte in a register and of that byte in memory. -/
theorem bit_operations_agree {number' : BitNumber} {s s' : System (Recorder Memory)} {addr : UInt32}
    (hreg : (Operation.bit op number (.reg id)).Encoded) (hmem : (Operation.bit op number' (.mem m)).Encoded)
    (haddr : (m.resolve .byte s'.cpu.regs).1 = addr) (hplain : PlainByte config s'.bus.bus addr)
    (hindex : s.cpu.regs.bitIndex number = s'.cpu.regs.bitIndex number')
    (hbyte : s.cpu.regs.readByte id = s'.bus.bus.get addr) (hflags : s.cpu.regs.ccr = s'.cpu.regs.ccr) :
    Ends config (.bit op number (.reg id)) s ∧ Ends config (.bit op number' (.mem m)) s' ∧
      ∃ y f, op.Operates (s.cpu.regs.bitIndex number) (s.cpu.regs.readByte id) y s.cpu.regs.ccr f ∧
        (∀ t, Executed config (.bit op number (.reg id)) s t → ChangesRegisterBit op id y f s t) ∧
        ∀ t, Executed config (.bit op number' (.mem m)) s' t → ChangesMemoryBit op addr y f s' t := by
  have hr := bit_operates s.cpu.regs op hreg.wellFormed.1 (s.cpu.regs.readByte id)
  have hm := bit_operates s'.cpu.regs op hmem.wellFormed.1 (s'.bus.bus.get addr)
  rw [← hindex, ← hbyte, ← hflags] at hm
  obtain ⟨hy, hf⟩ := hm.unique hr
  refine ⟨ends_of_performs fun b _ => ⟨_, perform_bit_reg b⟩, ends_of_performs fun b hb => ?_, _, _, hr,
    fun t ht => executed_bit_reg ht, fun t ht => ?_⟩
  · obtain ⟨v, hv, -⟩ := performed_bit_mem op number' hmem.resolve_snd haddr hplain hb
    exact ⟨v, hv⟩
  · rw [← hy, ← hf, hbyte]
    exact executed_bit_mem hmem.resolve_snd haddr hplain ht

/-- The number of the bit may be in the target of the one and in the pointer of the other. -/
theorem bit_operations_agree_of_aliased :
    let r : Registers := Registers.writeLong {} 1 0x500
    let s : System (Recorder Memory) := { cpu := { regs := r }, bus := ⟨⟨0x1000, {}⟩, #[]⟩ }
    let s' : System (Recorder Memory) := { cpu := { regs := r }, bus := ⟨Memory.store ⟨0x1000, {}⟩ 0x500 5, #[]⟩ }
    Ends {} (.bit .bset (.reg 1) (.reg 1)) s ∧ Ends {} (.bit .bset (.reg 1) (.mem (.indirect 1))) s' ∧
      (∀ t, Executed {} (.bit .bset (.reg 1) (.reg 1)) s t → ChangesRegisterBit .bset 1 0x25 {} s t) ∧
      ∀ t, Executed {} (.bit .bset (.reg 1) (.mem (.indirect 1))) s' t → ChangesMemoryBit .bset 0x500 0x25 {} s' t := by
  intro r s s'
  have hreg : (Operation.bit .bset (.reg 1) (.reg 1)).Encoded := ⟨0, [0x60, 0x11], Instruction.ofCode_ok_iff.2 rfl⟩
  have hmem : (Operation.bit .bset (.reg 1) (.mem (.indirect 1))).Encoded :=
    ⟨0, [0x7D, 0x10, 0x60, 0x10], Instruction.ofCode_ok_iff.2 rfl⟩
  have hlong : r.readLong 1 = 0x500 := Registers.readLong_writeLong 1 0x500
  have hx : r.readByte 1 = 5 := by
    unfold Registers.readByte
    rw [hlong]
    rfl
  have hindex : r.bitIndex (.reg 1) = 5 := congrArg (fun x : UInt8 => x.toNat % 8) hx
  have haddr : ((MemOperand.indirect 1).resolve .byte s'.cpu.regs).1 = 0x500 := congrArg Address.trunc hlong
  have hbyte : s.cpu.regs.readByte 1 = s'.bus.bus.get 0x500 := hx.trans ((Memory.get_store _ 0x500 0x500 5).trans rfl).symm
  have hplain : PlainByte {} s'.bus.bus 0x500 := ⟨by decide, by decide⟩
  have hsame : s.cpu.regs.bitIndex (.reg 1) = s'.cpu.regs.bitIndex (.reg 1) := rfl
  have hflags : s.cpu.regs.ccr = s'.cpu.regs.ccr := rfl
  obtain ⟨hends, hends', y, f, hoperates, hr, hm⟩ := bit_operations_agree hreg hmem haddr hplain hsame hbyte hflags
  have hvalue : BitOp.Operates .bset 5 5 0x25 {} {} := BitOp.operates .bset 5 5 {}
  have hfound : BitOp.Operates .bset 5 5 y {} f := hindex ▸ hx ▸ hoperates
  obtain ⟨rfl, rfl⟩ := hfound.unique hvalue
  exact ⟨hends, hends', hr, hm⟩

end CpuM

end H8S
