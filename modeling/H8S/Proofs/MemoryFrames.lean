import H8S.Proofs.FlatMemory
import H8S.Proofs.InstructionFrames
import Mathlib.Tactic.IntervalCases

/-!
# Which bytes an instruction stores

With the registers that an operation begins with its stores are known (`Operation.stores`): moves, control registers and bits
at the address of their operand, calls, traps and pushed registers in longs below the stack pointer, and blocks byte by byte
from their destination on.  An operation that ends has changed no other byte of a flat memory (`perform_stored`).
Together with what it leaves alone of registers, flags and pending interrupts this is the frame of an instruction
(`execute_frame`).
-/

namespace H8S

/-- A number of bytes from an address on. -/
structure Stretch where
  start : UInt32
  len : Nat
  deriving DecidableEq

namespace Stretch

def Holds (x : Stretch) (a : UInt32) : Prop := ∃ j < x.len, a = x.start + j.toUInt32

/-- The longs that are pushed one after the other from a stack pointer. -/
def pushed (sp : UInt32) : Nat → List Stretch
  | 0 => []
  | n + 1 => ⟨Address.trunc (sp - 4), 4⟩ :: pushed (sp - 4) n

/-- The bytes that a block is copied to. -/
def copied (dst : UInt32) : Nat → List Stretch
  | 0 => []
  | n + 1 => ⟨Address.trunc dst, 1⟩ :: copied (dst + 1) n

end Stretch

/-- What an operation stores to, with the registers it begins with. -/
def Operation.stores (r : Registers) : Operation → List Stretch
  | .mov width _ (.mem m) => [⟨(m.resolve width r).1, width.bytes.toNat⟩]
  | .bit op _ (.mem m) => if op.modifies then [⟨(m.resolve .byte r).1, 1⟩] else []
  | .stc _ (.mem m) => [⟨(m.resolve .word r).1, 2⟩]
  | .tas pointer => [⟨Address.trunc (r.readLong pointer), 1⟩]
  | .bsr _ _ | .jsr _ | .trapa _ => Stretch.pushed r.sp 1
  | .stm _ count => Stretch.pushed r.sp count.toNat
  | .eepmov width =>
    Stretch.copied (r.readLong CpuM.blockDestination) (r.read width (CpuM.blockCounter width)).toNat
  | _ => []

/-- A memory has changed at most in some stretches. -/
structure Memory.StoredAt (xs : List Stretch) (m m' : Memory) : Prop where
  size : m'.size = m.size
  get : ∀ a, (∀ x ∈ xs, ¬x.Holds a) → m'.get a = m.get a

namespace Memory.StoredAt

variable {xs ys : List Stretch} {m m' m'' : Memory}

theorem refl (m : Memory) : StoredAt xs m m := ⟨rfl, fun _ _ => rfl⟩

theorem of_eq (h : m' = m) : StoredAt xs m m' := h ▸ refl m'

theorem trans (h : StoredAt xs m m') (k : StoredAt xs m' m'') : StoredAt xs m m'' :=
  ⟨k.size.trans h.size, fun a ha => (k.get a ha).trans (h.get a ha)⟩

theorem mono (h : StoredAt xs m m') (hs : xs ⊆ ys) : StoredAt ys m m' :=
  ⟨h.size, fun a ha => h.get a fun x hx => ha x (hs hx)⟩

theorem store {addr : UInt32} (b : UInt8) (h : ∃ x ∈ xs, x.Holds addr) : StoredAt xs m (m.store addr b) where
  size := rfl
  get a ha := by
    rw [get_store, if_neg]
    rintro rfl
    obtain ⟨x, hx, hh⟩ := h
    exact ha x hx hh

end Memory.StoredAt

namespace CpuM

variable {α γ : Type} {config : Config} {s t : System Memory} {addr : UInt32}

/-! ### Actions -/

/-- A run of the action that ends has stored at most in these stretches. -/
structure Storing (xs : List Stretch) (m : CpuM Memory α) : Prop where
  ok : ∀ {config s a t}, m config s = .ok a t → Memory.StoredAt xs s.bus t.bus

namespace Storing

variable {xs : List Stretch}

theorem bind {m : CpuM Memory α} {f : α → CpuM Memory γ} (hm : Storing xs m) (hf : ∀ a, Storing xs (f a)) :
    Storing xs (m >>= f) where
  ok h := by
    obtain ⟨a, t, h₁, h₂⟩ := bind_ok.1 h
    exact (hm.ok h₁).trans ((hf a).ok h₂)

theorem ofKeeps {m : CpuM Memory α} (h : Keeps System.bus m) : Storing xs m := ⟨fun hr => .of_eq (h.ok hr)⟩

private theorem store8 (value : UInt8) (h : ∃ x ∈ xs, x.Holds addr) :
    Storing xs (store8 addr value : CpuM Memory Unit) where
  ok {config s _ t} hr := by
    unfold CpuM.store8 at hr
    rw [bind_of_ok run_read] at hr
    split at hr
    · cases hr
      exact .refl _
    · obtain ⟨bus, hb, rfl⟩ := onBus_ok.1 hr
      obtain ⟨-, rfl⟩ := Memory.busWrite_ok.1 hb
      exact .store value h

theorem write8 (addr : UInt32) (value : UInt8) : Storing [⟨addr, 1⟩] (write8 addr value : CpuM Memory Unit) :=
  (ofKeeps (.modifyCpu fun _ => rfl)).bind fun _ =>
    store8 value ⟨_, .head _, 0, Nat.zero_lt_one, (UInt32.add_zero addr).symm⟩

private theorem store16 (value : UInt16) (h : ∃ x ∈ xs, x.Holds addr) (h' : ∃ x ∈ xs, x.Holds (addr + 1)) :
    Storing xs (store16 addr value : CpuM Memory Unit) where
  ok {config s _ t} hr := by
    have hr := widening_ok.1 hr
    rw [bind_of_ok run_read] at hr
    split at hr
    · exact ((store8 _ h).bind fun _ => store8 _ h').ok hr
    · -- the last address of all is followed by itself
      have hafter : ∃ x ∈ xs, x.Holds (addressAfter addr) := by
        unfold addressAfter
        split
        · exact h
        · exact h'
      obtain ⟨bus, hb, rfl⟩ := onBus_ok.1 hr
      obtain ⟨_, mid, h₁, h₂⟩ := BusM.bind_ok.1 hb
      obtain ⟨-, rfl⟩ := Memory.busWrite_ok.1 h₁
      obtain ⟨-, rfl⟩ := Memory.busWrite_ok.1 h₂
      exact (Memory.StoredAt.store _ h).trans (.store _ hafter)

private theorem wide16 (value : UInt16) (h : ∃ x ∈ xs, x.Holds addr) (h' : ∃ x ∈ xs, x.Holds (addr + 1)) :
    Storing xs (CpuM.write16 addr value : CpuM Memory Unit) :=
  (ofKeeps (.modifyCpu fun _ => rfl)).bind fun _ => (ofKeeps (.modifyCpu fun _ => rfl)).bind fun _ => store16 value h h'

theorem write16 (addr : UInt32) (value : UInt16) : Storing [⟨addr, 2⟩] (write16 addr value : CpuM Memory Unit) :=
  wide16 value ⟨_, .head _, 0, by simp, (UInt32.add_zero addr).symm⟩ ⟨_, .head _, 1, by simp, rfl⟩

theorem write32 (addr value : UInt32) : Storing [⟨addr, 4⟩] (write32 addr value : CpuM Memory Unit) where
  ok hr := by
    have h₀ : ∃ x ∈ ([⟨addr, 4⟩] : List Stretch), x.Holds addr := ⟨_, .head _, 0, by simp, (UInt32.add_zero addr).symm⟩
    have h₁ : ∃ x ∈ ([⟨addr, 4⟩] : List Stretch), x.Holds (addr + 1) := ⟨_, .head _, 1, by simp, rfl⟩
    have h₂ : ∃ x ∈ ([⟨addr, 4⟩] : List Stretch), x.Holds (addr + 2) := ⟨_, .head _, 2, by simp, rfl⟩
    have h₃ : ∃ x ∈ ([⟨addr, 4⟩] : List Stretch), x.Holds (addr + 2 + 1) :=
      ⟨_, .head _, 3, by simp, UInt32.add_assoc addr 2 1⟩
    exact ((wide16 _ h₀ h₁).bind fun _ => wide16 _ h₂ h₃).ok (widening_ok.1 hr)

theorem writeSized (width : Width) (addr value : UInt32) :
    Storing [⟨addr, width.bytes.toNat⟩] (writeSized width addr value : CpuM Memory Unit) := by
  cases width with
  | byte => exact write8 addr _
  | word => exact write16 addr _
  | long => exact write32 addr value

end Storing

/-! ### Reads -/

private theorem bus_ignoresRegs : IgnoresRegs (System.bus : System Memory → Memory) := fun _ _ => rfl

namespace Keeps

theorem readSized (width : Width) (addr : UInt32) : Keeps System.bus (readSized width addr : CpuM Memory UInt32) := by
  cases width with
  | byte => exact (read8_keeps_memory addr).bind fun _ => .pure _
  | word => exact (read16_keepsBus keptByReads_memory addr : Keeps System.bus _).bind fun _ => .pure _
  | long => exact read32_keeps_memory addr

theorem loadOperand (m : MemOperand) (width : Width) : Keeps System.bus (loadOperand m width : CpuM Memory UInt32) :=
  (bus_ignoresRegs.resolve m width).bind fun addr => (readSized width addr).bind fun _ =>
    (bus_ignoresRegs.modifyRegs _).bind fun _ => .pure _

theorem readOperand (width : Width) (src : Operand) : Keeps System.bus (readOperand width src : CpuM Memory UInt32) := by
  cases src with
  | reg id => exact getRegs.bind fun _ => .pure _
  | imm value => exact .pure _
  | mem m => exact loadOperand m width

theorem sourceValue (width : Width) (src : Operand) : Keeps System.bus (sourceValue width src : CpuM Memory UInt32) := by
  cases src with
  | reg id => exact getRegs.bind fun _ => .pure _
  | imm value => exact .pure _
  | mem m => exact (bus_ignoresRegs.resolve m width).bind fun addr => readSized width addr

theorem pop32 : Keeps System.bus (pop32 : CpuM Memory UInt32) :=
  getRegs.bind fun _ => (read32_keeps_memory _).bind fun _ => (bus_ignoresRegs.modifyRegs _).bind fun _ => .pure _

theorem popRegisters (n : Nat) (last : UInt8) : Keeps System.bus (popRegisters last n : CpuM Memory Unit) := by
  induction n generalizing last with
  | zero => exact .pure _
  | succ n ih => exact pop32.bind fun _ => (bus_ignoresRegs.modifyRegs _).bind fun _ => ih (last - 1)

theorem loadControl (src : Operand) (dst : ControlReg) : Keeps System.bus (loadControl src dst : CpuM Memory Unit) := by
  refine Keeps.bind ?_ fun _ => bus_ignoresRegs.modifyRegs _
  cases src with
  | reg id => exact getRegs.bind fun _ => .pure _
  | imm value => exact .pure _
  | mem m => exact (loadOperand m .word).bind fun _ => .pure _

theorem jumpAddress (target : JumpTarget) : Keeps System.bus (jumpAddress target : CpuM Memory UInt32) := by
  cases target with
  | indirect p => exact getRegs.bind fun _ => .pure _
  | absolute addr => exact .pure addr
  | stored addr => exact read32_keeps_memory _

end Keeps

/-! ### Stores -/

private theorem move_stored {width : Width} {src : Operand} {m : MemOperand}
    (h : move width src (.mem m) config s = .ok () t) :
    Memory.StoredAt [⟨(m.resolve width s.cpu.regs).1, width.bytes.toNat⟩] s.bus t.bus := by
  have hd : destinationAddress width (.mem m) config s = .ok (some (m.resolve width s.cpu.regs).1)
      { s with cpu := { s.cpu with regs := (m.resolve width s.cpu.regs).2 } } := rfl
  unfold move at h
  rw [bind_of_ok hd] at h
  have stored : ∀ v, Storing [⟨(m.resolve width s.cpu.regs).1, width.bytes.toNat⟩]
      (deliver width (.mem m) (some (m.resolve width s.cpu.regs).1) v) := fun v => .writeSized width _ v
  have k := ((Storing.ofKeeps (.sourceValue width src)).bind fun v =>
    (Storing.ofKeeps (bus_ignoresRegs.modifyRegs _)).bind fun _ => (stored v).bind fun _ =>
      .ofKeeps (bus_ignoresRegs.advanceSource width src)).ok h
  exact k

private theorem move_kept {width : Width} {src dst : Operand} {xs : List Stretch}
    (hd : destinationAddress width dst config s = .ok none s)
    (hk : ∀ v, Keeps System.bus (deliver width dst none v : CpuM Memory Unit)) (h : move width src dst config s = .ok () t) :
    Memory.StoredAt xs s.bus t.bus := by
  unfold move at h
  rw [bind_of_ok hd] at h
  exact .of_eq (((Keeps.sourceValue width src).bind fun v => (bus_ignoresRegs.modifyRegs _).bind fun _ =>
    (hk v).bind fun _ => bus_ignoresRegs.advanceSource width src).ok h)

private theorem bitOperation_stored {op : BitOp} {number : BitNumber} {m : MemOperand}
    (h : bitOperation op number (.mem m) config s = .ok () t) :
    Memory.StoredAt (if op.modifies then [⟨(m.resolve .byte s.cpu.regs).1, 1⟩] else []) s.bus t.bus := by
  have hr : resolve m .byte config s = .ok (m.resolve .byte s.cpu.regs).1
      { s with cpu := { s.cpu with regs := (m.resolve .byte s.cpu.regs).2 } } := rfl
  unfold bitOperation at h
  rw [bind_of_ok run_getRegs] at h
  simp only at h
  rw [bind_of_ok hr] at h
  have operate : ∀ mask byte, Storing (if op.modifies then [⟨(m.resolve .byte s.cpu.regs).1, 1⟩] else [])
      (operateBit op mask byte (write8 (m.resolve .byte s.cpu.regs).1)) := fun mask byte => by
    rw [operateBit_eq]
    split
    · exact (Storing.ofKeeps .getRegs).bind fun _ => .write8 _ _
    · exact .ofKeeps (bus_ignoresRegs.modifyRegs _)
  have k := ((Storing.ofKeeps (read8_keeps_memory _)).bind fun byte => operate _ byte).ok h
  exact k

/-- A push stores a long below the stack pointer, and moves the stack pointer there. -/
private theorem push32_stored {value : UInt32} (h : push32 value config s = .ok () t) :
    Memory.StoredAt (Stretch.pushed s.cpu.regs.sp 1) s.bus t.bus ∧ t.cpu.regs.sp = s.cpu.regs.sp - 4 := by
  unfold push32 at h
  rw [bind_of_ok run_getRegs, bind_of_ok (run_modifyRegs _)] at h
  have hregs : t.cpu.regs = s.cpu.regs.setSp (s.cpu.regs.sp - 4) := congrArg Prod.fst ((write32_keeps _ _).ok h)
  have hstored := (Storing.write32 _ _).ok h
  exact ⟨hstored, by rw [hregs, Registers.setSp_sp]⟩

private theorem call_stored {target : UInt32} (h : call target config s = .ok () t) :
    Memory.StoredAt (Stretch.pushed s.cpu.regs.sp 1) s.bus t.bus := by
  unfold call at h
  rw [bind_of_ok run_getRegs] at h
  obtain ⟨_, u, h₁, h₂⟩ := bind_ok.1 h
  have entered : Keeps System.bus (do jump target; modifyCpu Cpu.entered : CpuM Memory Unit) :=
    (bus_ignoresRegs.jump target).bind fun _ => .modifyCpu fun _ => rfl
  exact (push32_stored h₁).1.trans (.of_eq (entered.ok h₂))

private theorem trap_stored {n : UInt8} (h : trap n config s = .ok () t) :
    Memory.StoredAt (Stretch.pushed s.cpu.regs.sp 1) s.bus t.bus := by
  unfold trap at h
  obtain ⟨_, u, h₁, h₂⟩ := bind_ok.1 h
  unfold pushFrame at h₁
  rw [bind_of_ok run_getRegs] at h₁
  have enable : Keeps System.bus (userEnable : CpuM Memory Bool) :=
    Keeps.readConfig.bind fun _ => (read8_keeps_memory _).bind fun _ => .pure _
  have through : ∀ addr, Keeps System.bus (jumpThrough addr : CpuM Memory Unit) := fun addr =>
    (read32_keeps_memory _).bind fun _ => bus_ignoresRegs.jump _
  exact (push32_stored h₁).1.trans <| Memory.StoredAt.of_eq <|
    (enable.bind fun _ => (bus_ignoresRegs.modifyRegs _).bind fun _ => (through _).bind fun _ =>
      .modifyCpu fun _ => rfl).ok h₂

private theorem jumpAddress_regs {target : JumpTarget} {addr : UInt32} (h : jumpAddress target config s = .ok addr t) :
    t.cpu.regs = s.cpu.regs := by
  cases target with
  | indirect p =>
    cases h
    rfl
  | absolute a =>
    cases h
    rfl
  | stored a => exact congrArg (fun v => v.1.1) ((read32_keeps _).ok h)

private theorem pushRegisters_stored {n : Nat} {first : UInt8} (h : pushRegisters first n config s = .ok () t) :
    Memory.StoredAt (Stretch.pushed s.cpu.regs.sp n) s.bus t.bus := by
  induction n generalizing first s with
  | zero =>
    cases h
    exact .refl _
  | succ n ih =>
    unfold pushRegisters at h
    rw [bind_of_ok run_getRegs] at h
    obtain ⟨_, u, h₁, h₂⟩ := bind_ok.1 h
    obtain ⟨hstored, hsp⟩ := push32_stored h₁
    have hrest := ih h₂
    rw [hsp] at hrest
    exact (hstored.mono (by simp [Stretch.pushed])).trans (hrest.mono (by simp [Stretch.pushed]))

/-- The counter of a block move is not its destination. -/
private theorem blockDestination_counted (r : Registers) (width : Width) (src dst count : UInt32) :
    (((r.writeLong blockSource src).writeLong blockDestination dst).write width (blockCounter width) count).readLong
      blockDestination = dst := by
  have hne : Registers.cell (blockCounter width) ≠ Registers.cell blockDestination := by
    cases width <;> decide
  exact (Registers.er_write_of_ne count hne).trans (Registers.readLong_writeLong blockDestination dst)

private theorem copyBlock_stored {width : Width} {n : Nat} (h : copyBlock width n config s = .ok () t) :
    Memory.StoredAt (Stretch.copied (s.cpu.regs.readLong blockDestination) n) s.bus t.bus := by
  induction n generalizing s with
  | zero =>
    cases h
    exact .refl _
  | succ n ih =>
    unfold copyBlock at h
    rw [bind_of_ok run_getRegs] at h
    obtain ⟨byte, u, h₁, h⟩ := bind_ok.1 h
    obtain ⟨_, v, h₂, h⟩ := bind_ok.1 h
    rw [bind_of_ok (run_modifyRegs _)] at h
    have hread : u.bus = s.bus := (read8_keeps_memory _).ok h₁
    have hstored := (Storing.write8 _ _).ok h₂
    have hrest := ih h
    rw [blockDestination_counted] at hrest
    rw [hread] at hstored
    exact (hstored.mono (by simp [Stretch.copied])).trans (hrest.mono (by simp [Stretch.copied]))

private theorem blockMove_stored {width : Width} (h : blockMove width config s = .ok () t) :
    Memory.StoredAt ((Operation.eepmov width).stores s.cpu.regs) s.bus t.bus := by
  unfold blockMove at h
  rw [bind_of_ok run_getRegs] at h
  exact copyBlock_stored h

private theorem testAndSet_stored {pointer : UInt8} (h : testAndSet pointer config s = .ok () t) :
    Memory.StoredAt ((Operation.tas pointer).stores s.cpu.regs) s.bus t.bus := by
  unfold testAndSet at h
  rw [bind_of_ok run_getRegs] at h
  exact ((Storing.ofKeeps (read8_keeps_memory _)).bind fun v =>
    (Storing.ofKeeps (bus_ignoresRegs.modifyRegs _)).bind fun _ => .write8 _ _).ok h

private theorem storeControl_stored {src : ControlReg} {m : MemOperand}
    (h : storeControl src (.mem m) config s = .ok () t) :
    Memory.StoredAt ((Operation.stc src (.mem m)).stores s.cpu.regs) s.bus t.bus := by
  have hr : resolve m .word config s = .ok (m.resolve .word s.cpu.regs).1
      { s with cpu := { s.cpu with regs := (m.resolve .word s.cpu.regs).2 } } := rfl
  unfold storeControl at h
  rw [bind_of_ok run_getRegs] at h
  simp only at h
  rw [bind_of_ok hr] at h
  have k := (Storing.write16 _ _).ok h
  exact k

private theorem callThrough_stored {target : JumpTarget} (h : (jumpAddress target >>= call) config s = .ok () t) :
    Memory.StoredAt ((Operation.jsr target).stores s.cpu.regs) s.bus t.bus := by
  obtain ⟨addr, u, h₁, h₂⟩ := bind_ok.1 h
  have hread : u.bus = s.bus := (Keeps.jumpAddress target).ok h₁
  have hregs : u.cpu.regs = s.cpu.regs := jumpAddress_regs h₁
  have hstored := call_stored h₂
  rw [hread, hregs] at hstored
  exact hstored

/-- A bit operation on a register leaves the memory alone. -/
private theorem bitOperation_kept (op : BitOp) (number : BitNumber) (id : UInt8) :
    Keeps System.bus (bitOperation op number (.reg id) : CpuM Memory Unit) := by
  refine Keeps.getRegs.bind fun _ => Keeps.getRegs.bind fun _ => ?_
  rw [operateBit_eq]
  split
  · exact Keeps.getRegs.bind fun _ => bus_ignoresRegs.modifyRegs _
  · exact bus_ignoresRegs.modifyRegs _

/-- An operation that ends has changed the memory only where it stores. -/
theorem perform_stored {op : Operation} (h : perform op config s = .ok () t) :
    Memory.StoredAt (op.stores s.cpu.regs) s.bus t.bus := by
  have kept : Keeps System.bus (perform op : CpuM Memory Unit) → Memory.StoredAt (op.stores s.cpu.regs) s.bus t.bus :=
    fun hk => .of_eq (hk.ok h)
  cases op with
  | nop => exact kept (.pure _)
  | mov width src dst =>
    cases dst with
    | mem m => exact move_stored h
    | reg id =>
      have kept : ∀ v, Keeps System.bus (deliver width (.reg id) none v : CpuM Memory Unit) := fun v => by
        unfold deliver
        exact bus_ignoresRegs.modifyRegs _
      exact move_kept rfl kept h
    | imm value =>
      have kept : ∀ v, Keeps System.bus (deliver width (.imm value) none v : CpuM Memory Unit) := fun v => .pure ()
      exact move_kept rfl kept h
  | alu op width src dst => exact kept ((Keeps.readOperand width src).bind fun _ => bus_ignoresRegs.modifyRegs _)
  | bit op number target =>
    cases target with
    | mem m => exact bitOperation_stored h
    | reg id => exact kept (bitOperation_kept op number id)
  | bcc cond target wide =>
    refine kept (Keeps.getRegs.bind fun r => ?_)
    split
    · exact bus_ignoresRegs.jump target
    · exact .pure _
  | bsr target wide => exact call_stored h
  | jmp target => exact kept ((Keeps.jumpAddress target).bind fun addr => bus_ignoresRegs.jump addr)
  | jsr target => exact callThrough_stored h
  | rts => exact kept (Keeps.pop32.bind fun addr => (bus_ignoresRegs.jump addr).bind fun _ => .modifyCpu fun _ => rfl)
  | rte =>
    exact kept <| Keeps.pop32.bind fun frame => (bus_ignoresRegs.modifyRegs _).bind fun _ =>
      (bus_ignoresRegs.jump frame).bind fun _ => .modifyCpu fun _ => rfl
  | trapa n => exact trap_stored h
  | ldc src dst => exact kept (.loadControl src dst)
  | stc src dst =>
    cases dst with
    | mem m => exact storeControl_stored h
    | reg id => exact kept (Keeps.getRegs.bind fun _ => bus_ignoresRegs.modifyRegs _)
    | imm value => exact kept (Keeps.getRegs.bind fun _ => .pure _)
  | ldm last count => exact kept (.popRegisters _ last)
  | stm first count => exact pushRegisters_stored h
  | tas pointer => exact testAndSet_stored h
  | eepmov width => exact blockMove_stored h
  | sleep | adds | subs | inc | dec | unary | daa | das | mulDiv | shift | controlLogic =>
    cases h
    exact .refl _

/-! ### Frames -/

/-- What an operation leaves alone: registers and flags that it does not write, bytes that it does not store, and pending
interrupts that it does not take back.  One that writes no view of a register leaves all of them. -/
structure Framed (op : Operation) (s t : System Memory) : Prop where
  alters : op.Alters s.cpu.regs t.cpu.regs
  er : op.views = [] → t.cpu.regs.er = s.cpu.regs.er
  stored : Memory.StoredAt (op.stores s.cpu.regs) s.bus t.bus
  pending : ∀ n < 64, t.cpu.pending.contains n = true → s.cpu.pending.contains n = true

theorem perform_framed {op : Operation} (h : perform op config s = .ok () t) : Framed op s t where
  alters := (Altering.perform op).ok h
  er := ((Altering.perform op).ok h).er_eq
  stored := perform_stored h
  pending n hn hp := by
    obtain ⟨log, v, l, hr, -, rfl⟩ := perform_ok h
    have hl : (l.apply v.cpu).pending = v.cpu.pending := by
      cases l <;> rfl
    rw [hl, hr.pending, contains_foldl_acknowledge _ _ hn] at hp
    exact (Bool.and_eq_true _ _ ▸ hp).1

/-- Where a program counter points is not looked at. -/
private theorem stores_pc (op : Operation) (r : Registers) (pc : UInt32) : op.stores { r with pc := pc } = op.stores r := by
  have resolved : ∀ (m : MemOperand) width, (m.resolve width { r with pc := pc }).1 = (m.resolve width r).1 :=
    fun m width => by cases m <;> rfl
  cases op with
  | mov width src dst =>
    cases dst with
    | mem m => simp only [Operation.stores, resolved]
    | reg id => rfl
    | imm value => rfl
  | bit op number target =>
    cases target with
    | mem m => simp only [Operation.stores, resolved]
    | reg id => rfl
  | stc src dst =>
    cases dst with
    | mem m => simp only [Operation.stores, resolved]
    | reg id => rfl
    | imm value => rfl
  | eepmov width => cases width <;> rfl
  | _ => rfl

/-- The counters and the program counter before an operation do not matter to its frame. -/
private theorem Framed.of_begun {op : Operation} {s' : System Memory} {pc : UInt32} (h : Framed op s' t)
    (hr : s'.cpu.regs = { s.cpu.regs with pc := pc }) (hb : s'.bus = s.bus) (hp : s'.cpu.pending = s.cpu.pending) :
    Framed op s t where
  alters := by
    have k := h.alters
    rw [hr] at k
    exact ⟨k.flags, k.extended, k.bits⟩
  er hv := (h.er hv).trans (by rw [hr])
  stored := by
    have k := h.stored
    rwa [hr, hb, stores_pc] at k
  pending n hn ht := hp ▸ h.pending n hn ht

/-- An instruction that is executed with success on a flat memory, by itself or by a step that fetches it, changes of
registers, flags, memory and pending interrupts only what its operation writes, stores and takes back. -/
theorem execute_frame (config : Config) (i : Instruction) (s t : System Memory) :
    (execute i config s = .ok () t → Framed i.op s t) ∧ (CarriesOut config i s t → Framed i.op s t) := by
  constructor
  · intro h
    unfold execute at h
    rw [bind_of_ok (run_modifyRegs _)] at h
    obtain ⟨_, u, h₁, h₂⟩ := bind_ok.1 h
    cases h₂
    have k : Framed i.op s u := (perform_framed h₁).of_begun rfl rfl rfl
    exact ⟨k.alters, k.er, k.stored, k.pending⟩
  · intro h
    obtain ⟨-, -, f, v, hd, hp, rfl⟩ := carriesOut_iff.1 h
    obtain ⟨-, -, hf⟩ := decode_ok hd
    have hregs : (f.begun config i).cpu.regs = { s.cpu.regs with pc := i.nextPc } := by rw [System.begun_cpu, hf.cpu]
    have hbus : (f.begun config i).bus = s.bus := by rw [System.begun_bus, hf.memory]
    have hpending : (f.begun config i).cpu.pending = s.cpu.pending := by rw [System.begun_cpu, hf.cpu]
    have k : Framed i.op s v := (perform_framed hp).of_begun hregs hbus hpending
    exact ⟨k.alters, k.er, k.stored, k.pending⟩

/-- A core whose second register points into its memory. -/
def pointing : System Memory := { cpu := { regs := ({} : Registers).writeLong 1 0x102 }, bus := { size := 0x200 } }

/-- A move of a word through a pointer that moves down stores two bytes, and leaves the byte after them, the carry and all
other registers alone. -/
theorem execute_frame_of_move :
    ∃ t, execute ⟨0, .mov .word (.reg 0) (.mem (.preDec 1)), [0x6D, 0x90]⟩ {} pointing = .ok () t ∧
      t.cpu.regs.readLong 1 = 0x100 ∧ t.bus.get 0x102 = pointing.bus.get 0x102 ∧
      t.cpu.regs.ccr.c = pointing.cpu.regs.ccr.c ∧ ∀ i, t.cpu.regs.bit 0 i = pointing.cpu.regs.bit 0 i := by
  obtain ⟨t, h, hp⟩ : ∃ t, execute ⟨0, .mov .word (.reg 0) (.mem (.preDec 1)), [0x6D, 0x90]⟩ {} pointing = .ok () t ∧
      t.cpu.regs.readLong 1 = 0x100 := ⟨_, by with_unfolding_all rfl, by with_unfolding_all rfl⟩
  have k := (execute_frame {} _ pointing t).1 h
  refine ⟨t, h, hp, k.stored.get 0x102 fun x hx => ?_, k.alters.flags.carry rfl, fun i => k.alters.bits 0 i fun v hv => ?_⟩
  · have he : Operation.stores pointing.cpu.regs (.mov .word (.reg 0) (.mem (.preDec 1))) = [⟨0x100, 2⟩] := by decide +kernel
    rw [he, List.mem_singleton] at hx
    subst hx
    rintro ⟨j, hj, ha⟩
    have hlt : j < 2 := hj
    interval_cases j <;> exact absurd ha (by decide)
  · have he : (Operation.mov .word (.reg 0) (.mem (.preDec 1))).views = [⟨.long, 1⟩] := rfl
    rw [he, List.mem_singleton] at hv
    subst hv
    exact fun hh => absurd hh.1 (by decide)

end CpuM

end H8S
