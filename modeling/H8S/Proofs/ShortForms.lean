import H8S.Proofs.Comparisons
import H8S.Proofs.DistinctEncodings
import H8S.Proofs.FlatMemory
import H8S.Proofs.PlaceForms
import H8S.Proofs.TwoRuns

/-!
# Short and long forms

An assembler may encode an operand in the shortest form that reaches it, so all forms that mean one place have to be the same
to the core.  They are decoded to one operation (`PlaceUse.feed_encode`).  The decoder drops the top byte of an address; that
of a displacement it keeps, but it is of no consequence, as the sum with the base is cut (`CpuM.perform_cut`).

What is done with a place does not depend on the program counter, on the clock or on the lines traced so far: on systems that
differ in nothing else (`CpuM.Twins`) it comes to the same and leaves such systems (`CpuM.Timeless`).  So it makes no
difference either that the forms differ in length.  Branches with displacements of either width are decoded to operations that
only tell the widths apart (`Branch.feed_code`).  `short_forms_agree` puts this together.
-/

namespace H8S

open BusM Encoding

/-! ### Branches -/

/-- What has a target in two widths of displacement: a branch on a condition or to a subroutine. -/
inductive Branch where
  | conditional (cond : Condition)
  | subroutine

namespace Branch

def operation (target : UInt32) (wide : Bool) : Branch → Operation
  | conditional cond => .bcc cond target wide
  | subroutine => .bsr target wide

/-- The branch with a displacement, of which the bits that do not fit are lost. -/
def code (wide : Bool) (disp : UInt32) : Branch → List UInt8
  | conditional cond => branchCode cond wide disp
  | subroutine => if wide then [0x5C, 0x00] ++ wordBytes disp else [0x55, disp.toUInt8]

/-- Where the branch at an address leads. -/
def target (start : UInt32) (wide : Bool) (disp : UInt32) : UInt32 :=
  Decoding.branchTarget start (branchLen wide) ((displacementWidth wide).signExtend disp)

theorem feed_code (b : Branch) (start : UInt32) (wide : Bool) (disp : UInt32) :
    (Decoding.operation start).feed (b.code wide disp) = some (.done (b.operation (target start wide disp) wide)) := by
  cases b with
  | conditional cond => exact Decoding.feed_branch cond wide disp
  | subroutine =>
    cases wide with
    | false =>
      have h : (Decoding.operation start).feed (subroutine.code false disp) = some (.done
          (.bsr (Decoding.branchTarget start 2 (Width.byte.signExtend disp.toUInt8.toUInt32)) false)) := rfl
      rw [h, Width.signExtend_congr (byte_and_mask disp)]
      rfl
    | true =>
      have h : (Decoding.operation start).feed (subroutine.code true disp) = some (.done
          (.bsr (Decoding.branchTarget start 4 (Width.word.signExtend
            ((disp >>> 8).toUInt8.toUInt32 <<< 8 ||| disp.toUInt8.toUInt32))) true)) := rfl
      rw [h, Width.signExtend_congr (word_and_mask disp)]
      rfl

end Branch

/-! ### What counts of a displacement -/

/-- The operand with its displacement cut to the address space, where the sum with the base is cut anyway. -/
def MemOperand.cut : MemOperand → MemOperand
  | .displaced disp base => .displaced (Address.trunc disp) base
  | m => m

theorem MemOperand.resolve_cut (m : MemOperand) (width : Width) (r : Registers) :
    m.cut.resolve width r = m.resolve width r := by
  cases m with
  | displaced disp base =>
    have h : Address.trunc (r.readLong base + Address.trunc disp) = Address.trunc (r.readLong base + disp) := by
      apply UInt32.toNat_inj.1
      rw [Address.trunc_toNat, Address.trunc_toNat, UInt32.toNat_add, UInt32.toNat_add, Address.trunc_toNat, Address.spaceSize]
      omega
    exact congrArg (·, r) h
  | _ => rfl

theorem MemOperand.afterAccess_cut (m : MemOperand) : m.cut.afterAccess = m.afterAccess := by
  cases m <;> rfl

/-- The address that a place is at. -/
def PlaceField.address (f : PlaceField) (r : Registers) : UInt32 := (f.place.resolve .byte r).1

namespace CpuM

variable {β α γ : Type}

theorem resolve_cut (m : MemOperand) (width : Width) : (resolve m.cut width : CpuM β UInt32) = resolve m width := by
  unfold resolve
  simp only [MemOperand.resolve_cut]

/-- What is done with a place depends on its displacement only as far as that counts. -/
theorem perform_cut [Bus β] (u : PlaceUse) (m : MemOperand) :
    (perform (u.operation m.cut) : CpuM β Unit) = perform (u.operation m) := by
  cases u with
  | move width store reg =>
    cases store with
    | true =>
      have hdeliver (addr : Option UInt32) (value : UInt32) :
          (deliver width (.mem m.cut) addr value : CpuM β Unit) = deliver width (.mem m) addr value := by
        cases addr <;> rfl
      show move width (.reg reg) (.mem m.cut) = move width (.reg reg) (.mem m)
      simp only [move, destinationAddress, hdeliver, resolve_cut]
    | false =>
      show move width (.mem m.cut) (.reg reg) = move width (.mem m) (.reg reg)
      simp only [move, sourceValue, advanceSource, resolve_cut, MemOperand.afterAccess_cut]
  | control reg store =>
    cases store with
    | true =>
      show storeControl reg (.mem m.cut) = storeControl reg (.mem m)
      simp only [storeControl, resolve_cut]
    | false =>
      show loadControl (.mem m.cut) reg = loadControl (.mem m) reg
      simp only [loadControl, controlValue, loadOperand, resolve_cut, MemOperand.afterAccess_cut]
  | bit op number =>
    show bitOperation op number (.mem m.cut) = bitOperation op number (.mem m)
    simp only [bitOperation, resolve_cut]

/-! ### Systems that differ in time -/

/-- The systems differ in nothing but the program counter, the clock and the lines traced. -/
structure Twins (s t : System β) : Prop where
  regs : t.cpu.regs = { s.cpu.regs with pc := t.cpu.regs.pc }
  pending : s.cpu.pending = t.cpu.pending
  sleeping : s.cpu.sleeping = t.cpu.sleeping
  depth : s.cpu.depth = t.cpu.depth
  bus : s.bus = t.bus

/-- What the action does depends neither on the program counter nor on the clock. -/
abbrev Timeless (m : CpuM β α) : Prop := Respects Twins m

namespace Timeless

theorem modifyRegs {f : Registers → Registers} (hf : ∀ r pc, f { r with pc := pc } = { f r with pc := pc }) :
    Timeless (modifyRegs f : CpuM β Unit) := by
  intro config s t h
  have hr : f t.cpu.regs = { f s.cpu.regs with pc := (f t.cpu.regs).pc } := by rw [h.regs, hf]
  exact .ok () { h with regs := hr }

theorem readRegs {f : Registers → CpuM β α} (hf : ∀ r pc, f { r with pc := pc } = f r) (hr : ∀ r, Timeless (f r)) :
    Timeless (getRegs >>= f) := by
  refine Respects.reading (fun s t h => ?_) fun s => hr s.cpu.regs
  have hsame := hf s.cpu.regs t.cpu.regs.pc
  rw [← h.regs] at hsame
  exact hsame.symm

variable [Bus β]

theorem lasting_twins : Lasting (Twins : System β → System β → Prop) where
  bus h := h.bus
  pending h := h.pending
  moved h _ := { h with bus := rfl }
  charge _ _ := fun _ _ _ h => .ok () ⟨h.regs, h.pending, h.sleeping, h.depth, h.bus⟩
  acknowledge value := fun _ _ _ h => .ok () { h with pending := congrArg (·.acknowledge value) h.pending }

omit [Bus β] in
theorem resolve (f : PlaceField) (width : Width) : Timeless (CpuM.resolve f.place width : CpuM β UInt32) := by
  intro config s t h
  have hrun : ∀ s : System β, CpuM.resolve f.place width config s = .ok (f.address s.cpu.regs) s := by
    intro s
    cases f <;> rfl
  have haddress : f.address s.cpu.regs = f.address t.cpu.regs := by
    rw [h.regs]
    cases f <;> rfl
  rw [hrun, hrun, haddress]
  exact .ok _ h

omit [Bus β] in
theorem afterAccess (f : PlaceField) (width : Width) :
    Timeless (CpuM.modifyRegs (f.place.afterAccess width) : CpuM β Unit) := by
  refine modifyRegs fun r pc => ?_
  cases f <;> rfl

omit [Bus β] in
theorem write (width : Width) (id : UInt8) (value : UInt32) :
    Timeless (CpuM.modifyRegs (·.write width id value) : CpuM β Unit) :=
  modifyRegs fun r pc => by cases width <;> rfl

theorem move (width : Width) (store : Bool) (reg : UInt8) (f : PlaceField) :
    Timeless (perform ((PlaceUse.move width store reg).operation f.place) : CpuM β Unit) := by
  cases store with
  | true =>
    have hstore : Timeless (CpuM.move width (.reg reg) (.mem f.place) : CpuM β Unit) := by
      refine ((resolve f width).map some).bind fun addr => ?_
      refine Respects.bind (readRegs (fun r pc => ?_) fun r => .pure _) fun value => ?_
      · cases width <;> rfl
      refine (modifyRegs fun r pc => rfl).bind fun _ => Respects.bind ?_ fun _ => .pure ()
      cases addr with
      | some addr => exact lasting_twins.writeSized width addr value
      | none => exact .pure ()
    exact hstore
  | false =>
    have hload : Timeless (CpuM.move width (.mem f.place) (.reg reg) : CpuM β Unit) := by
      refine (Respects.pure none).bind fun addr => ?_
      refine Respects.bind ((resolve f width).bind fun place => lasting_twins.readSized width place) fun value => ?_
      refine (modifyRegs fun r pc => rfl).bind fun _ => Respects.bind ?_ fun _ => afterAccess f width
      cases addr with
      | some addr => exact lasting_twins.writeSized width addr value
      | none => exact write width reg value
    exact hload

theorem control (reg : ControlReg) (store : Bool) (f : PlaceField) :
    Timeless (perform ((PlaceUse.control reg store).operation f.place) : CpuM β Unit) := by
  cases store with
  | true =>
    have hstore : Timeless (storeControl reg (.mem f.place) : CpuM β Unit) := by
      refine readRegs (fun r pc => ?_) fun r => (resolve f .word).bind fun addr => lasting_twins.write16 addr _
      cases reg <;> rfl
    exact hstore
  | false =>
    have hload : Timeless (loadControl (.mem f.place) reg : CpuM β Unit) := by
      refine Respects.bind ?_ fun value => modifyRegs fun r pc => ?_
      · refine Respects.bind ((resolve f .word).bind fun addr => ?_) fun value => .pure _
        exact (lasting_twins.readSized .word addr).bind fun value => (afterAccess f .word).bind fun _ => .pure value
      · cases reg <;> rfl
    exact hload

theorem bit (op : BitOp) (number : BitNumber) (f : PlaceField) :
    Timeless (perform ((PlaceUse.bit op number).operation f.place) : CpuM β Unit) := by
  have hbit : Timeless (bitOperation op number (.mem f.place) : CpuM β Unit) := by
    refine readRegs (fun r pc => ?_) fun r => ?_
    · cases number <;> rfl
    · refine (resolve f .byte).bind fun addr => (lasting_twins.read8 addr).bind fun byte => ?_
      rw [operateBit_eq]
      split
      · exact readRegs (fun r pc => rfl) fun r => lasting_twins.write8 addr _
      · exact modifyRegs fun r pc => rfl
  exact hbit

/-- Nothing that is done with a place depends on them. -/
theorem use (u : PlaceUse) (f : PlaceField) : Timeless (perform (u.operation f.place) : CpuM β Unit) := by
  cases u with
  | move width store reg => exact move width store reg f
  | control reg store => exact control reg store f
  | bit op number => exact bit op number f

end Timeless

/-! ### Instructions -/

variable [Bus β] {config : Config} {s t : System β} {i j : Instruction}

omit [Bus β] in
theorem Twins.moved (h : Twins s t) (a b : UInt32) :
    Twins { s with cpu := { s.cpu with regs := { s.cpu.regs with pc := a } } }
      { t with cpu := { t.cpu with regs := { t.cpu.regs with pc := b } } } :=
  have hr : { t.cpu.regs with pc := b } = { s.cpu.regs with pc := b } := by rw [h.regs]
  { h with regs := hr }

omit [Bus β] in
theorem Twins.traced (h : Twins s t) (config : Config) (i j : Instruction) : Twins (s.traced config i) (t.traced config j) := by
  unfold System.traced
  cases config.trace <;> exact ⟨h.regs, h.pending, h.sleeping, h.depth, h.bus⟩

/-- Instructions that do the same come to the same, however long they are. -/
theorem execute_twins (config : Config) (hdo : (perform i.op : CpuM β Unit) = perform j.op)
    (hp : Timeless (perform j.op : CpuM β Unit)) (h : Twins s t) : Matched Twins (execute i config s) (execute j config t) := by
  have hm := hp config _ _ (h.moved i.nextPc j.nextPc)
  unfold execute
  rw [bind_of_ok (run_modifyRegs _), bind_of_ok (run_modifyRegs _), hdo]
  show Matched Twins (EStateM.bind _ _ _) (EStateM.bind _ _ _)
  unfold EStateM.bind
  revert hm
  generalize (perform j.op : CpuM β Unit) config _ = x, (perform j.op : CpuM β Unit) config _ = y
  intro hm
  cases hm with
  | ok a h => exact .ok () ⟨h.regs, h.pending, h.sleeping, h.depth, h.bus⟩
  | error e h => exact .error e h

/-- So do their steps, once they are decoded. -/
theorem executeNext_twins {s' t' : System β} (hi : Instruction.decode read8 s.cpu.regs.pc config s = .ok i s')
    (hj : Instruction.decode read8 t.cpu.regs.pc config t = .ok j t')
    (hdo : (perform i.op : CpuM β Unit) = perform j.op) (hp : Timeless (perform j.op : CpuM β Unit)) (h : Twins s' t') :
    Matched Twins (executeNext config s) (executeNext config t) := by
  have hm := execute_twins config hdo hp (h.traced config i j)
  unfold executeNext executeAt
  rw [bind_of_ok run_getRegs, bind_of_ok run_getRegs]
  unfold retreatingTo
  rw [bind_of_ok hi, bind_of_ok hj, bind_of_ok (run_traceInstruction i), bind_of_ok (run_traceInstruction j)]
  revert hm
  generalize (execute i : CpuM β Unit) config _ = x, (execute j : CpuM β Unit) config _ = y
  intro hm
  cases hm with
  | ok a h => exact .ok () h
  | error e h => exact .error e (h.moved _ _)

/-- Systems still differ in nothing else after fetches of any bytes. -/
theorem Twins.fetches {s t s' t' : System Memory} {a b : UInt32} {x y : List UInt8} (h : Twins s t)
    (hs : Fetches config s a x s') (ht : Fetches config t b y t') : Twins s' t' where
  regs := by rw [hs.cpu, ht.cpu]; exact h.regs
  pending := by rw [hs.cpu, ht.cpu]; exact h.pending
  sleeping := by rw [hs.cpu, ht.cpu]; exact h.sleeping
  depth := by rw [hs.cpu, ht.cpu]; exact h.depth
  bus := by rw [hs.memory, ht.memory]; exact h.bus

end CpuM

open CpuM

/-- Forms that mean one place are decoded to one operation, so moves, control registers and bits do not depend on the form: the
steps of systems that differ only in time come to the same.  For this a displacement need only be the same up to the size of the
address space.  Branches that lead to one target from any addresses are decoded to operations that differ only in the width. -/
theorem short_forms_agree :
    (∀ (u : PlaceUse) (f g : PlaceField), u.Takes f → u.Takes g → f.place = g.place → ∀ a b : UInt32,
      Instruction.ofCode a (u.encode f).toArray = .ok ⟨Address.even a, u.operation f.place, u.encode f⟩ ∧
      Instruction.ofCode b (u.encode g).toArray = .ok ⟨Address.even b, u.operation f.place, u.encode g⟩) ∧
    (∀ (u : PlaceUse) (f g : PlaceField), u.Takes f → u.Takes g → f.place.cut = g.place.cut →
      ∀ (config : Config) (s t : System Memory), Twins s t →
        (∀ (a b : UInt32) (i j : Instruction),
          Instruction.ofCode a (u.encode f).toArray = .ok i → Instruction.ofCode b (u.encode g).toArray = .ok j →
            Matched Twins (execute i config s) (execute j config t)) ∧
        (Code config s.bus (Address.even s.cpu.regs.pc) (u.encode f) →
          Code config t.bus (Address.even t.cpu.regs.pc) (u.encode g) →
            Matched Twins (executeNext config s) (executeNext config t))) ∧
    ∀ (branch : Branch) (a b short long target : UInt32), Branch.target (Address.even a) false short = target →
      Branch.target (Address.even b) true long = target →
        Instruction.ofCode a (branch.code false short).toArray =
            .ok ⟨Address.even a, branch.operation target false, branch.code false short⟩ ∧
          Instruction.ofCode b (branch.code true long).toArray =
            .ok ⟨Address.even b, branch.operation target true, branch.code true long⟩ := by
  have decodes {u : PlaceUse} {f : PlaceField} (h : u.Takes f) (a : UInt32) :
      Instruction.ofCode a (u.encode f).toArray = .ok ⟨Address.even a, u.operation f.place, u.encode f⟩ :=
    Instruction.ofCode_ok_iff.2 (PlaceUse.feed_encode h)
  refine ⟨fun u f g hf hg hplace a b => ?_, fun u f g hf hg hcut config s t h => ?_, ?_⟩
  · exact ⟨decodes hf a, hplace ▸ decodes hg b⟩
  · have hdo : (perform (u.operation f.place) : CpuM Memory Unit) = perform (u.operation g.place) := by
      rw [← perform_cut, hcut, perform_cut]
    constructor
    · intro a b i j hi hj
      rw [decodes hf] at hi
      rw [decodes hg] at hj
      cases hi
      cases hj
      exact execute_twins config hdo (.use u g) h
    · intro hs ht
      obtain ⟨s', hs⟩ := fetches_of_code hs
      obtain ⟨t', ht⟩ := fetches_of_code ht
      exact executeNext_twins (decode_of_fetches hs (PlaceUse.feed_encode hf)) (decode_of_fetches ht (PlaceUse.feed_encode hg))
        hdo (.use u g) (h.fetches hs ht)
  · rintro branch a b short long target rfl htarget
    refine ⟨Instruction.ofCode_ok_iff.2 (branch.feed_code (Address.even a) false short), ?_⟩
    rw [← htarget]
    exact Instruction.ofCode_ok_iff.2 (branch.feed_code (Address.even b) true long)

/-- Two loads of a byte in one memory, at displacements from a register that differ by the size of the address space. -/
def twoLoads (pc : UInt32) : System Memory :=
  let loads := [0x6E, 0x10, 0x00, 0x10, 0x78, 0x10, 0x6A, 0x20, 0x01, 0x00, 0x00, 0x10]
  { cpu := { regs := { pc := pc } }, bus := ({ size := 0x200 } : Memory).storeAll 0x100 loads }

/-- A byte is loaded from an address of 16 bits and from one of 32 bits whose top byte is ignored, loads at a short and at a
long displacement come to the same, and a branch forwards and a wide one backwards meet. -/
theorem short_forms_agree_loads :
    (Instruction.ofCode 0x100 #[0x6A, 0x00, 0x00, 0x10] =
        .ok ⟨0x100, .mov .byte (.mem (.absolute 0x10)) (.reg 0), [0x6A, 0x00, 0x00, 0x10]⟩ ∧
      Instruction.ofCode 0x200 #[0x6A, 0x20, 0xAA, 0x00, 0x00, 0x10] =
        .ok ⟨0x200, .mov .byte (.mem (.absolute 0x10)) (.reg 0), [0x6A, 0x20, 0xAA, 0x00, 0x00, 0x10]⟩) ∧
    Matched Twins (executeNext {} (twoLoads 0x100)) (executeNext {} (twoLoads 0x104)) ∧
    Instruction.ofCode 0x100 #[0x40, 0x10] = .ok ⟨0x100, .bcc .always 0x112 false, [0x40, 0x10]⟩ ∧
    Instruction.ofCode 0x200 #[0x58, 0x00, 0xFF, 0x0E] =
      .ok ⟨0x200, .bcc .always 0x112 true, [0x58, 0x00, 0xFF, 0x0E]⟩ := by
  obtain ⟨hdecode, hrun, hbranch⟩ := short_forms_agree
  refine ⟨?_, ?_, ?_⟩
  · exact hdecode (.move .byte false 0) (.absolute16 0x10) (.absolute32 0xAA000010) ⟨by decide, trivial⟩ ⟨by decide, trivial⟩
      rfl 0x100 0x200
  · have hcode : Code {} (twoLoads 0x100).bus 0x100
        [0x6E, 0x10, 0x00, 0x10, 0x78, 0x10, 0x6A, 0x20, 0x01, 0x00, 0x00, 0x10] :=
      code_storeAll (by decide) (by decide) fun _ h => .inr (by cases h; decide)
    have hshort : Code {} (twoLoads 0x100).bus (Address.even 0x100)
        ((PlaceUse.move .byte false 0).encode (.displaced16 0x10 1)) :=
      hcode.part [] [0x78, 0x10, 0x6A, 0x20, 0x01, 0x00, 0x00, 0x10] (by decide) (by decide)
    have hlong : Code {} (twoLoads 0x104).bus (Address.even 0x104)
        ((PlaceUse.move .byte false 0).encode (.displaced32 0x01000010 1)) :=
      hcode.part [0x6E, 0x10, 0x00, 0x10] [] (by decide) (by decide)
    have hbase : (1 : UInt8) < 8 := by decide
    have hcut : Address.trunc (Width.word.signExtend 0x10) = Address.trunc 0x01000010 := by decide
    have htwins : Twins (twoLoads 0x100) (twoLoads 0x104) := ⟨rfl, rfl, rfl, rfl, rfl⟩
    exact (hrun (.move .byte false 0) (.displaced16 0x10 1) (.displaced32 0x01000010 1) ⟨by decide, hbase⟩
      ⟨by decide, hbase⟩ (congrArg (MemOperand.displaced · 1) hcut) {} _ _ htwins).2 hshort hlong
  · exact hbranch (.conditional .always) 0x100 0x200 0x10 0xFF0E 0x112 rfl rfl

end H8S
