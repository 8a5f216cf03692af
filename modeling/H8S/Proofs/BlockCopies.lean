import H8S.Proofs.AccessBounds
import H8S.Proofs.Executions
import H8S.Proofs.Limbs
import H8S.Proofs.RegisterViews

/-!
# Block moves

A block move copies bytes upwards, one after the other, and a byte may be one that was stored before it: what it makes of a
memory is `Memory.copyUp`.  If the blocks share no byte this is the original source (`Memory.get_copyUp_of_disjoint`).

The pointers and the counter keep up with every byte (`Counted`).  So a move of which a byte cannot be accessed has copied the
bytes before it and no other, and its registers describe the move of the rest: executed again, on a memory where more is in
reach, it makes the copy that an undisturbed move would have made there (`block_move_resumes`).
-/

namespace H8S

/-! ### Copies -/

namespace Memory

variable {m m' : Memory} {src dst a : UInt32} {k n : Nat}

section Places

variable {source target : Nat → UInt32}

/-- The memory after bytes were copied from some places to others, each after those before it were stored. -/
def copied (m : Memory) (source target : Nat → UInt32) : Nat → Memory
  | 0 => m
  | n + 1 => (m.copied source target n).store (target n) ((m.copied source target n).get (source n))

@[simp] theorem size_copied (m : Memory) (source target : Nat → UInt32) (n : Nat) :
    (m.copied source target n).size = m.size := by
  induction n with
  | zero => rfl
  | succ n ih => exact ih

/-- No byte but those that are copied to is changed. -/
theorem get_copied_of_outside (h : ∀ k < n, a ≠ target k) : (m.copied source target n).get a = m.get a := by
  induction n with
  | zero => rfl
  | succ n ih =>
    rw [copied, get_store, if_neg (h n (Nat.lt_succ_self n)).symm]
    exact ih fun k hk => h k (Nat.lt_succ_of_lt hk)

/-- The last byte that is copied to a place comes from the memory as it was, if its source was not copied to before. -/
theorem get_copied_of_last (hk : k < n) (hlast : ∀ j < n, k < j → target j ≠ target k)
    (hfresh : ∀ j < k, target j ≠ source k) :
    (m.copied source target n).get (target k) = m.get (source k) := by
  induction n with
  | zero => cases hk
  | succ n ih =>
    rw [copied, get_store]
    rcases Nat.lt_succ_iff_lt_or_eq.1 hk with hlt | rfl
    · rw [if_neg (hlast n (Nat.lt_succ_self n) hlt)]
      exact ih hlt fun j hj => hlast j (Nat.lt_succ_of_lt hj)
    · rw [if_pos rfl]
      exact get_copied_of_outside fun j hj => (hfresh j hj).symm

end Places

/-- The memory after bytes of a block were copied upwards, each after those before it were stored. -/
def copyUp (m : Memory) (src dst : UInt32) : Nat → Memory
  | 0 => m
  | n + 1 =>
    let copied := m.copyUp src dst n
    copied.store (Address.trunc (dst + n.toUInt32)) (copied.get (Address.trunc (src + n.toUInt32)))

theorem copyUp_eq_copied (m : Memory) (src dst : UInt32) (n : Nat) :
    m.copyUp src dst n =
      m.copied (fun k => Address.trunc (src + k.toUInt32)) (fun k => Address.trunc (dst + k.toUInt32)) n := by
  induction n with
  | zero => rfl
  | succ n ih => rw [copyUp, copied, ih]

theorem add_index (a : UInt32) (j k : Nat) : a + (j + k).toUInt32 = a + j.toUInt32 + k.toUInt32 := by
  rw [UInt32.add_assoc]
  congr 1
  apply UInt32.toNat_inj.1
  simp

@[simp] theorem size_copyUp (m : Memory) (src dst : UInt32) (n : Nat) : (m.copyUp src dst n).size = m.size := by
  rw [copyUp_eq_copied, size_copied]

/-- A copy goes on where a part of it has ended. -/
theorem copyUp_add (m : Memory) (src dst : UInt32) (j k : Nat) :
    m.copyUp src dst (j + k) = (m.copyUp src dst j).copyUp (src + j.toUInt32) (dst + j.toUInt32) k := by
  induction k with
  | zero => rfl
  | succ k ih =>
    rw [← Nat.add_assoc, copyUp, copyUp, ih, add_index, add_index]

/-- No byte but those of the destination is changed. -/
theorem get_copyUp_of_outside (h : ∀ k < n, a ≠ Address.trunc (dst + k.toUInt32)) :
    (m.copyUp src dst n).get a = m.get a := by
  rw [copyUp_eq_copied]
  exact get_copied_of_outside h

/-- The places of a block that fits in the address space are different. -/
private theorem trunc_add_inj {j k : Nat} (hj : j < Address.spaceSize) (hk : k < Address.spaceSize)
    (h : Address.trunc (dst + j.toUInt32) = Address.trunc (dst + k.toUInt32)) : j = k := by
  have h := congrArg UInt32.toNat h
  unfold Address.spaceSize at hj hk
  rw [Address.trunc_toNat, Address.trunc_toNat, UInt32.toNat_add, UInt32.toNat_add] at h
  simp only [Nat.toUInt32_eq, UInt32.toNat_ofNat', Address.spaceSize] at h
  omega

/-- Of blocks that share no byte, the destination is the source as it was. -/
theorem get_copyUp_of_disjoint (hn : n ≤ Address.spaceSize)
    (h : ∀ j < n, ∀ k < n, Address.trunc (src + j.toUInt32) ≠ Address.trunc (dst + k.toUInt32)) {k : Nat} (hk : k < n) :
    (m.copyUp src dst n).get (Address.trunc (dst + k.toUInt32)) = m.get (Address.trunc (src + k.toUInt32)) := by
  rw [copyUp_eq_copied]
  refine get_copied_of_last hk (fun j hj hkj he => ?_) fun j hj => (h k hk j (by omega)).symm
  have := trunc_add_inj (by omega) (by omega) he
  omega

theorem copyUp_congr (h : ∀ a, m'.get a = m.get a) (src dst : UInt32) (n : Nat) (a : UInt32) :
    (m'.copyUp src dst n).get a = (m.copyUp src dst n).get a := by
  induction n generalizing a with
  | zero => exact h a
  | succ n ih => rw [copyUp, copyUp, get_store, get_store, ih, ih]

/-- The same bytes with more in reach. -/
structure Grows (m m' : Memory) : Prop where
  size : m.size ≤ m'.size
  get : ∀ a, a.toNat < m.size → m'.get a = m.get a

/-- A copy of bytes in a memory is the same in a larger one. -/
theorem Grows.copyUp (h : Grows m m') (hin : ∀ k < n, (Address.trunc (src + k.toUInt32)).toNat < m.size) :
    Grows (m.copyUp src dst n) (m'.copyUp src dst n) where
  size := by
    rw [size_copyUp, size_copyUp]
    exact h.size
  get a ha := by
    rw [size_copyUp] at ha
    induction n generalizing a with
    | zero => exact h.get a ha
    | succ n ih =>
      have before := fun k hk => hin k (Nat.lt_succ_of_lt hk)
      have hread := ih before _ (hin n (Nat.lt_succ_self n))
      rw [Memory.copyUp, Memory.copyUp, get_store, get_store, hread, ih before a ha]

end Memory

namespace CpuM

variable {config : Config} {width : Width} {s t u : System Memory} {r r' r'' : Registers} {j k n : Nat}

/-! ### Registers -/

/-- The number of bytes that a block move has still to copy. -/
def blockLength (width : Width) (r : Registers) : Nat := (r.read width (blockCounter width)).toNat

/-- Some bytes of a block move are counted: the pointers have gone up and the counter has gone down by as many, and nothing
beside them has changed. -/
structure Counted (width : Width) (k : Nat) (r r' : Registers) : Prop where
  source : r'.readLong blockSource = r.readLong blockSource + k.toUInt32
  destination : r'.readLong blockDestination = r.readLong blockDestination + k.toUInt32
  counter : blockLength width r' + k = blockLength width r
  others : ∀ c i, c ≠ Registers.cell blockSource → c ≠ Registers.cell blockDestination →
    ¬View.Holds ⟨width, blockCounter width⟩ c i → r'.bit c i = r.bit c i
  ccr : r'.ccr = r.ccr
  exr : r'.exr = r.exr

namespace Counted

theorem refl (width : Width) (r : Registers) : Counted width 0 r r where
  source := (UInt32.add_zero _).symm
  destination := (UInt32.add_zero _).symm
  counter := rfl
  others _ _ _ _ _ := rfl
  ccr := rfl
  exr := rfl

theorem trans (h : Counted width j r r') (h' : Counted width k r' r'') : Counted width (j + k) r r'' where
  source := by rw [h'.source, h.source, Memory.add_index]
  destination := by rw [h'.destination, h.destination, Memory.add_index]
  counter := by
    have h₁ := h.counter
    have h₂ := h'.counter
    omega
  others c i h₅ h₆ hv := (h'.others c i h₅ h₆ hv).trans (h.others c i h₅ h₆ hv)
  ccr := h'.ccr.trans h.ccr
  exr := h'.exr.trans h.exr

end Counted

/-- The pointers of a block move and its counter are parts of different registers. -/
private theorem block_registers (width : Width) :
    Registers.cell blockDestination ≠ Registers.cell blockSource ∧
      Registers.cell (blockCounter width) ≠ Registers.cell blockSource ∧
      Registers.cell (blockCounter width) ≠ Registers.cell blockDestination := by
  cases width <;> decide

/-- The registers after a byte was copied, of which one less than `n + 1` are left. -/
def countByte (width : Width) (n : Nat) (src dst : UInt32) (r : Registers) : Registers :=
  ((r.writeLong blockSource (src + 1)).writeLong blockDestination (dst + 1)).write width (blockCounter width) n.toUInt32

private theorem counted_countByte (h : blockLength width r = n + 1) :
    Counted width 1 r (countByte width n (r.readLong blockSource) (r.readLong blockDestination) r) where
  source := by
    obtain ⟨h₆₅, h₄₅, -⟩ := block_registers width
    unfold countByte
    rw [Registers.readLong_write_of_ne _ h₄₅]
    exact (Registers.er_writeLong_of_ne _ h₆₅).trans (Registers.readLong_writeLong ..)
  destination := by
    obtain ⟨-, -, h₄₆⟩ := block_registers width
    unfold countByte
    rw [Registers.readLong_write_of_ne _ h₄₆]
    exact Registers.readLong_writeLong ..
  counter := by
    have hle := UInt32.le_iff_toNat_le.1 (Registers.read_le_mask r (blockCounter width) width)
    have hn : n.toUInt32.toNat = n := by
      have hlt := (r.read width (blockCounter width)).toNat_lt
      unfold blockLength at h
      simp
      omega
    unfold blockLength countByte at *
    rw [Registers.read_write, Alu.and_mask (UInt32.le_iff_toNat_le.2 (by omega)), hn, h]
  others c i h₅ h₆ hv := by
    unfold countByte
    rw [Registers.bit_write_of_not_holds _ hv, Registers.bit_writeLong_of_ne _ h₆, Registers.bit_writeLong_of_ne _ h₅]
  ccr := Registers.write_ccr ..
  exr := Registers.write_exr ..

/-! ### Bytes of a block -/

/-- Where a byte of a block move comes from. -/
def sourceOf (r : Registers) (k : Nat) : UInt32 := Address.trunc (r.readLong blockSource + k.toUInt32)

/-- Where a byte of a block move goes. -/
def destinationOf (r : Registers) (k : Nat) : UInt32 := Address.trunc (r.readLong blockDestination + k.toUInt32)

/-- Both places of a byte of a block move lie in memory. -/
def InReach (m : Memory) (r : Registers) (k : Nat) : Prop :=
  (sourceOf r k).toNat < m.size ∧ (destinationOf r k).toNat < m.size

/-- The status register is no byte of the block move. -/
def BlockAside (config : Config) (r : Registers) (n : Nat) : Prop :=
  ∀ k < n, config.isrAddress ≠ some (sourceOf r k) ∧ config.isrAddress ≠ some (destinationOf r k)

/-- How a byte that is not in reach is reported: where it comes from, or else where it goes. -/
def blockFault (m : Memory) (r : Registers) (k : Nat) : Fault :=
  if m.size ≤ (sourceOf r k).toNat then .outOfRange (sourceOf r k) ⟨.read, 8⟩
  else .outOfRange (destinationOf r k) ⟨.write, 8⟩

/-- Some bytes of a block move are copied and counted. -/
structure Moved (width : Width) (k : Nat) (s t : System Memory) : Prop where
  regs : Counted width k s.cpu.regs t.cpu.regs
  bus : t.bus = s.bus.copyUp (s.cpu.regs.readLong blockSource) (s.cpu.regs.readLong blockDestination) k

theorem Counted.sourceOf_eq (h : Counted width j r r') (k : Nat) : sourceOf r' k = sourceOf r (j + k) := by
  unfold sourceOf
  rw [h.source, Memory.add_index]

theorem Counted.destinationOf_eq (h : Counted width j r r') (k : Nat) :
    destinationOf r' k = destinationOf r (j + k) := by
  unfold destinationOf
  rw [h.destination, Memory.add_index]

namespace Moved

theorem refl (width : Width) (s : System Memory) : Moved width 0 s s := ⟨.refl width s.cpu.regs, rfl⟩

theorem trans (h : Moved width j s t) (h' : Moved width k t u) : Moved width (j + k) s u where
  regs := h.regs.trans h'.regs
  bus := by rw [h'.bus, h.bus, h.regs.source, h.regs.destination, Memory.copyUp_add]

theorem inReach_iff (h : Moved width j s t) (k : Nat) : InReach t.bus t.cpu.regs k ↔ InReach s.bus s.cpu.regs (j + k) := by
  unfold InReach
  rw [h.regs.sourceOf_eq, h.regs.destinationOf_eq, h.bus, Memory.size_copyUp]

theorem blockFault_eq (h : Moved width j s t) (k : Nat) :
    blockFault t.bus t.cpu.regs k = blockFault s.bus s.cpu.regs (j + k) := by
  unfold blockFault
  rw [h.regs.sourceOf_eq, h.regs.destinationOf_eq, h.bus, Memory.size_copyUp]

end Moved

theorem BlockAside.rest (h : BlockAside config r (j + n)) (hr : Counted width j r r') : BlockAside config r' n := by
  intro k hk
  rw [hr.sourceOf_eq, hr.destinationOf_eq]
  exact h (j + k) (by omega)

/-! ### The loop -/

private theorem not_covers_of_ne {a : UInt32} (h : config.isrAddress ≠ some a) : coversStatus config a 1 = false := by
  cases hc : coversStatus config a 1 with
  | false => rfl
  | true =>
    obtain ⟨isr, hisr, h₁, h₂⟩ := coversStatus_iff.1 hc
    have hl : (1 : UInt32).toNat = 1 := rfl
    have he : isr = a := UInt32.toNat_inj.1 (by omega)
    exact absurd (he ▸ hisr) h

/-- Nothing but registers, memory and the clock differs. -/
def OnlyMoved (s t : System Memory) : Prop :=
  t = { s with
    cpu := { s.cpu with regs := t.cpu.regs, cycles := t.cpu.cycles, timer := t.cpu.timer }
    bus := t.bus }

theorem OnlyMoved.trans (h : OnlyMoved s t) (h' : OnlyMoved t u) : OnlyMoved s u := by
  unfold OnlyMoved at h h' ⊢
  rw [h', h]

private theorem copyBlock_succ :
    copyBlock width (n + 1) config s =
      (do let byte ← read8 (sourceOf s.cpu.regs 0)
          write8 (destinationOf s.cpu.regs 0) byte
          modifyRegs (countByte width n (s.cpu.regs.readLong blockSource) (s.cpu.regs.readLong blockDestination))
          copyBlock width n : CpuM Memory Unit) config s := by
  have e₁ : sourceOf s.cpu.regs 0 = Address.trunc (s.cpu.regs.readLong blockSource) :=
    congrArg Address.trunc (UInt32.add_zero _)
  have e₂ : destinationOf s.cpu.regs 0 = Address.trunc (s.cpu.regs.readLong blockDestination) :=
    congrArg Address.trunc (UInt32.add_zero _)
  rw [e₁, e₂]
  exact bind_of_ok run_getRegs

/-- A byte in reach is copied and counted, and the rest of the block is next. -/
private theorem copyBlock_next (hlen : blockLength width s.cpu.regs = n + 1) (haside : BlockAside config s.cpu.regs (n + 1))
    (hin : InReach s.bus s.cpu.regs 0) :
    ∃ u, copyBlock width (n + 1) config s = copyBlock width n config u ∧ Moved width 1 s u ∧ OnlyMoved s u := by
  obtain ⟨h₁, h₂⟩ := haside 0 (Nat.succ_pos n)
  have hr := (read8_memory (s := s) (not_covers_of_ne h₁)).2 ⟨hin.1, rfl, rfl⟩
  have hw : write8 (destinationOf s.cpu.regs 0) (s.bus.get (sourceOf s.cpu.regs 0)) config
      { s with cpu := s.cpu.charged .read (sourceOf s.cpu.regs 0) } = .ok () _ :=
    (write8_memory (not_covers_of_ne h₂)).2 ⟨hin.2, rfl⟩
  rw [copyBlock_succ, bind_of_ok hr, bind_of_ok hw, bind_of_ok (run_modifyRegs _)]
  exact ⟨_, rfl, ⟨counted_countByte hlen, rfl⟩, rfl⟩

/-- A byte that is not in reach is reported, with nothing of it copied or counted. -/
private theorem copyBlock_stuck (haside : BlockAside config s.cpu.regs (n + 1)) (hout : ¬InReach s.bus s.cpu.regs 0) :
    ∃ t, copyBlock width (n + 1) config s = .error (blockFault s.bus s.cpu.regs 0) t ∧ Moved width 0 s t ∧
      OnlyMoved s t := by
  obtain ⟨h₁, h₂⟩ := haside 0 (Nat.succ_pos n)
  rw [copyBlock_succ]
  unfold blockFault
  rcases Nat.lt_or_ge (sourceOf s.cpu.regs 0).toNat s.bus.size with hlt | hge
  · have hr := (read8_memory (s := s) (not_covers_of_ne h₁)).2 ⟨hlt, rfl, rfl⟩
    have hge : s.bus.size ≤ (destinationOf s.cpu.regs 0).toNat := Nat.le_of_not_lt fun h => hout ⟨hlt, h⟩
    have hw := write8_beyond (s := { s with cpu := s.cpu.charged .read (sourceOf s.cpu.regs 0) }) (not_covers_of_ne h₂) hge
      (s.bus.get (sourceOf s.cpu.regs 0))
    rw [if_neg (Nat.not_le_of_lt hlt), bind_of_ok hr]
    exact ⟨_, bind_error.2 (.inl hw), ⟨.refl width s.cpu.regs, rfl⟩, rfl⟩
  · rw [if_pos hge]
    exact ⟨_, bind_error.2 (.inl (read8_beyond (not_covers_of_ne h₁) hge)), ⟨.refl width s.cpu.regs, rfl⟩, rfl⟩

/-- A block in reach is copied as a whole. -/
theorem copyBlock_ok (hlen : blockLength width s.cpu.regs = n) (haside : BlockAside config s.cpu.regs n)
    (hin : ∀ k < n, InReach s.bus s.cpu.regs k) :
    ∃ t, copyBlock width n config s = .ok () t ∧ Moved width n s t := by
  induction n generalizing s with
  | zero => exact ⟨s, rfl, .refl width s⟩
  | succ n ih =>
    obtain ⟨u, hu, hmoved, -⟩ := copyBlock_next hlen haside (hin 0 (Nat.succ_pos n))
    have hcount := hmoved.regs.counter
    rw [Nat.add_comm] at haside
    obtain ⟨t, ht, hrest⟩ := ih (by omega) (haside.rest hmoved.regs) fun k hk =>
      (hmoved.inReach_iff k).2 (hin (1 + k) (by omega))
    have h := hmoved.trans hrest
    rw [Nat.add_comm] at h
    exact ⟨t, hu.trans ht, h⟩

/-- A block that is not in reach as a whole is copied up to the first byte that is not. -/
theorem copyBlock_error (hlen : blockLength width s.cpu.regs = n) (haside : BlockAside config s.cpu.regs n) (hk : k < n)
    (hin : ∀ j < k, InReach s.bus s.cpu.regs j) (hout : ¬InReach s.bus s.cpu.regs k) :
    ∃ t, copyBlock width n config s = .error (blockFault s.bus s.cpu.regs k) t ∧ Moved width k s t ∧ OnlyMoved s t := by
  induction k generalizing n s with
  | zero =>
    obtain ⟨n, rfl⟩ := Nat.exists_eq_add_one.2 hk
    exact copyBlock_stuck haside hout
  | succ k ih =>
    obtain ⟨n, rfl⟩ := Nat.exists_eq_add_one.2 (Nat.zero_lt_of_lt hk)
    obtain ⟨u, hu, hmoved, honly⟩ := copyBlock_next hlen haside (hin 0 (Nat.succ_pos k))
    have hcount := hmoved.regs.counter
    rw [Nat.add_comm n] at haside
    obtain ⟨t, ht, hrest, honly'⟩ := ih (n := n) (by omega) (haside.rest hmoved.regs) (by omega)
      (fun j hj => (hmoved.inReach_iff j).2 (hin (1 + j) (by omega)))
      (fun h => hout (by rw [Nat.add_comm]; exact (hmoved.inReach_iff k).1 h))
    rw [hmoved.blockFault_eq] at ht
    have h := hmoved.trans hrest
    rw [Nat.add_comm] at h ht
    exact ⟨t, hu.trans ht, h, honly.trans honly'⟩

/-- Only a block in reach is copied as a whole. -/
theorem inReach_of_copyBlock (hlen : blockLength width s.cpu.regs = n) (haside : BlockAside config s.cpu.regs n)
    (h : copyBlock width n config s = .ok () t) (hk : k < n) : InReach s.bus s.cpu.regs k := by
  induction k using Nat.strongRecOn with
  | _ k ih =>
    by_contra hout
    obtain ⟨u, hu, -⟩ := copyBlock_error hlen haside hk (fun j hj => ih j hj (by omega)) hout
    rw [hu] at h
    cases h

/-! ### Executed moves -/

@[simp] theorem blockLength_pc (width : Width) (r : Registers) (pc : UInt32) :
    blockLength width { r with pc := pc } = blockLength width r :=
  congrArg UInt32.toNat (Registers.read_congr rfl width _)

/-- Where the program counter points does not matter to a block move. -/
private theorem Counted.of_pc {pc : UInt32} (h : Counted width k { r with pc := pc } r') : Counted width k r r' where
  source := h.source
  destination := h.destination
  counter := h.counter.trans (blockLength_pc width r pc)
  others := h.others
  ccr := h.ccr
  exr := h.exr

/-- A block move on a system that is ready for it copies the whole block as the move describes it. -/
private theorem readied_block (width : Width) (hb : Readied s u) :
    blockLength width u.cpu.regs = blockLength width s.cpu.regs ∧
      (∀ n, BlockAside config s.cpu.regs n → BlockAside config u.cpu.regs n) ∧
      (∀ k, InReach u.bus u.cpu.regs k ↔ InReach s.bus s.cpu.regs k) ∧
      (∀ k, blockFault u.bus u.cpu.regs k = blockFault s.bus s.cpu.regs k) ∧
      ∀ k t, Moved width k u t → Moved width k s t := by
  obtain ⟨pc, hregs⟩ := hb.regs
  have hbus := hb.memory
  rw [hregs, hbus]
  refine ⟨blockLength_pc width _ pc, fun n h => h, fun k => .rfl, fun k => rfl, ?_⟩
  intro k t h
  have hr := h.regs
  have hm := h.bus
  rw [hregs] at hr hm
  rw [hbus] at hm
  exact ⟨hr.of_pc, hm⟩

private theorem perform_block (config : Config) (width : Width) (u : System Memory) :
    perform (.eepmov width) config u = copyBlock width (blockLength width u.cpu.regs) config u :=
  bind_of_ok run_getRegs

/-- A move that ends has copied the whole block, all of which was in reach. -/
theorem Executed.moved (haside : BlockAside config s.cpu.regs (blockLength width s.cpu.regs))
    (h : Executed config (.eepmov width) s t) :
    (∀ k < blockLength width s.cpu.regs, InReach s.bus s.cpu.regs k) ∧
      Moved width (blockLength width s.cpu.regs) s t := by
  obtain ⟨b, v, hb, hv, rfl⟩ := h.performed
  obtain ⟨hlen, hbeside, hreach, -, hmoved⟩ := readied_block width hb
  rw [perform_block, hlen] at hv
  have hin := fun k hk => (hreach k).1 (inReach_of_copyBlock hlen (hbeside _ haside) hv hk)
  obtain ⟨w, hw, hwhole⟩ := copyBlock_ok hlen (hbeside _ haside) fun k hk => (hreach k).2 (hin k hk)
  rw [hv] at hw
  cases hw
  have k := hmoved _ _ hwhole
  exact ⟨hin, k.regs, k.bus⟩

/-- A move of a block in reach ends. -/
theorem ends_of_inReach (haside : BlockAside config s.cpu.regs (blockLength width s.cpu.regs))
    (hin : ∀ k < blockLength width s.cpu.regs, InReach s.bus s.cpu.regs k) : Ends config (.eepmov width) s := by
  refine ends_of_performs fun b hb => ?_
  obtain ⟨hlen, hbeside, hreach, -, -⟩ := readied_block width hb
  rw [perform_block, hlen]
  obtain ⟨v, hv, -⟩ := copyBlock_ok hlen (hbeside _ haside) fun k hk => (hreach k).2 (hin k hk)
  exact ⟨v, hv⟩

/-- The program counter is no part of what a block move counts. -/
private theorem Counted.put_pc (h : Counted width k r r') (pc : UInt32) : Counted width k r { r' with pc := pc } where
  source := h.source
  destination := h.destination
  counter := by
    rw [blockLength_pc]
    exact h.counter
  others := h.others
  ccr := h.ccr
  exr := h.exr

/-- A step that comes to a byte out of reach fails there, with the bytes before it copied and counted, and the core still
at the move. -/
theorem step_of_outOfReach {i : Instruction} {f : System Memory} (hop : i.op = .eepmov width)
    (hawake : s.cpu.sleeping = false) (hquiet : s.cpu.dueInterrupt? = none)
    (hd : Instruction.decode read8 s.cpu.regs.pc config s = .ok i f)
    (haside : BlockAside config s.cpu.regs (blockLength width s.cpu.regs)) (hk : k < blockLength width s.cpu.regs)
    (hin : ∀ j < k, InReach s.bus s.cpu.regs j) (hout : ¬InReach s.bus s.cpu.regs k) :
    ∃ t, step config s = .error (blockFault s.bus s.cpu.regs k) t ∧ Moved width k s t ∧
      t.cpu.regs.pc = s.cpu.regs.pc ∧ t.cpu.sleeping = false ∧ t.cpu.dueInterrupt? = none := by
  cases hstep : step config s with
  | ok c t =>
    have hmoved := Executed.moved haside (.fetched i hop ⟨hawake, hquiet, ⟨f, hd⟩, c, hstep⟩)
    exact absurd (hmoved.1 k hk) hout
  | error e t =>
    have hnext := step_error.1 hstep
    rw [advance_of_awake hquiet hawake] at hnext
    obtain ⟨v, rfl, hfail | ⟨i', f', hd', hp⟩⟩ := executeNext_error hnext
    · rw [hd] at hfail
      cases hfail
    · rw [hd] at hd'
      cases hd'
      obtain ⟨hlen, hbeside, hreach, hfault, hmoved⟩ := readied_block width (readied_fetched hd)
      obtain ⟨w, hw, hpart, honly⟩ := copyBlock_error hlen (hbeside _ haside) hk (fun j hj => (hreach j).2 (hin j hj))
        fun h => hout ((hreach k).1 h)
      rw [hop, perform_block, hlen, hw] at hp
      cases hp
      have hs := hmoved k v hpart
      have hcore : v.cpu.pending = s.cpu.pending ∧ v.cpu.sleeping = s.cpu.sleeping := by
        rw [honly, System.begun_cpu, (decode_ok hd).2.2.cpu]
        exact ⟨rfl, rfl⟩
      refine ⟨{ v with cpu := { v.cpu with regs := { v.cpu.regs with pc := s.cpu.regs.pc } } }, by rw [hfault],
        ⟨hs.regs.put_pc _, hs.bus⟩, rfl, hcore.2.trans hawake, ?_⟩
      have hccr : v.cpu.regs.ccr = s.cpu.regs.ccr := hs.regs.ccr
      rw [← hquiet]
      unfold Cpu.dueInterrupt?
      rw [hcore.1]
      show (if v.cpu.regs.ccr.i = true then _ else _) = _
      rw [hccr]

/-! ### Resumption -/

/-- The system goes on with a move that stopped: its registers are as the move left them, and its memory holds what the move
left, with more in reach.  `m` is the memory with as much in reach from the beginning. -/
structure GoesOn (s t : System Memory) (m : Memory) (u : System Memory) : Prop where
  regs : u.cpu.regs = t.cpu.regs
  grows : s.bus.Grows m
  size : u.bus.size = m.size
  below : ∀ a, a.toNat < s.bus.size → u.bus.get a = t.bus.get a
  above : ∀ a, s.bus.size ≤ a.toNat → u.bus.get a = m.get a

/-- A move goes on where more memory is put behind the old one. -/
theorem Moved.goesOn {size : Nat} (hmoved : Moved width k s t) (hin : ∀ j < k, InReach s.bus s.cpu.regs j)
    (hsize : s.bus.size ≤ size) :
    GoesOn s t { s.bus with size := size } { t with bus := { t.bus with size := size } } where
  regs := rfl
  grows := ⟨hsize, fun _ _ => rfl⟩
  size := rfl
  below _ _ := rfl
  above a ha := by
    show t.bus.get a = s.bus.get a
    rw [hmoved.bus, Memory.get_copyUp_of_outside]
    rintro j hj rfl
    exact absurd (hin j hj).2 (Nat.not_lt_of_le ha)

/-- What was copied before a move stopped is there when it goes on. -/
private theorem GoesOn.copied {m : Memory} (h : GoesOn s t m u) (hmoved : Moved width k s t)
    (hin : ∀ j < k, InReach s.bus s.cpu.regs j) (a : UInt32) :
    u.bus.get a =
      (m.copyUp (s.cpu.regs.readLong blockSource) (s.cpu.regs.readLong blockDestination) k).get a := by
  rcases Nat.lt_or_ge a.toNat s.bus.size with hlt | hge
  · have hgrows : Memory.Grows
        (s.bus.copyUp (s.cpu.regs.readLong blockSource) (s.cpu.regs.readLong blockDestination) k)
        (m.copyUp (s.cpu.regs.readLong blockSource) (s.cpu.regs.readLong blockDestination) k) :=
      h.grows.copyUp fun j hj => (hin j hj).1
    rw [h.below a hlt, hmoved.bus, hgrows.get a (by rwa [Memory.size_copyUp])]
  · rw [h.above a hge, Memory.get_copyUp_of_outside]
    rintro j hj rfl
    exact absurd (hin j hj).2 (Nat.not_lt_of_le hge)

theorem GoesOn.counted {m : Memory} (h : GoesOn s t m u) (hmoved : Moved width k s t) :
    Counted width k s.cpu.regs u.cpu.regs := by
  rw [h.regs]
  exact hmoved.regs

theorem GoesOn.length_eq {m : Memory} (h : GoesOn s t m u) (hmoved : Moved width k s t)
    (hrest : blockLength width s.cpu.regs = k + n) : blockLength width u.cpu.regs = n := by
  have := (h.counted hmoved).counter
  omega

theorem GoesOn.aside {m : Memory} (h : GoesOn s t m u) (hk : k ≤ blockLength width s.cpu.regs)
    (haside : BlockAside config s.cpu.regs (blockLength width s.cpu.regs)) (hmoved : Moved width k s t) :
    BlockAside config u.cpu.regs (blockLength width u.cpu.regs) := by
  obtain ⟨rest, hrest⟩ := Nat.exists_eq_add_of_le hk
  rw [h.length_eq hmoved hrest]
  rw [hrest] at haside
  exact haside.rest (h.counted hmoved)

/-- A move that goes on finishes the copy that it would have made from the beginning. -/
theorem GoesOn.finishes {m : Memory} (h : GoesOn s t m u) (hk : k ≤ blockLength width s.cpu.regs)
    (haside : BlockAside config s.cpu.regs (blockLength width s.cpu.regs)) (hmoved : Moved width k s t)
    (hin : ∀ j < k, InReach s.bus s.cpu.regs j) {v : System Memory} (hv : Executed config (.eepmov width) u v) :
    Counted width (blockLength width s.cpu.regs) s.cpu.regs v.cpu.regs ∧
      ∀ a, v.bus.get a = (m.copyUp (s.cpu.regs.readLong blockSource) (s.cpu.regs.readLong blockDestination)
        (blockLength width s.cpu.regs)).get a := by
  have hcounted := h.counted hmoved
  obtain ⟨rest, hrest⟩ := Nat.exists_eq_add_of_le hk
  obtain ⟨-, hall⟩ := hv.moved (h.aside hk haside hmoved)
  rw [h.length_eq hmoved hrest] at hall
  rw [hrest]
  refine ⟨hcounted.trans hall.regs, fun a => ?_⟩
  rw [hall.bus, hcounted.source, hcounted.destination, Memory.copyUp_add]
  exact Memory.copyUp_congr (h.copied hmoved hin) _ _ _ a

/-- A move that goes on ends if the rest of its block is in reach. -/
theorem GoesOn.ends {m : Memory} (h : GoesOn s t m u) (hk : k ≤ blockLength width s.cpu.regs)
    (haside : BlockAside config s.cpu.regs (blockLength width s.cpu.regs)) (hmoved : Moved width k s t)
    (hin : ∀ j < blockLength width s.cpu.regs, k ≤ j → InReach m s.cpu.regs j) : Ends config (.eepmov width) u := by
  have hcounted := h.counted hmoved
  obtain ⟨rest, hrest⟩ := Nat.exists_eq_add_of_le hk
  have hlen := h.length_eq hmoved hrest
  refine ends_of_inReach (h.aside hk haside hmoved) fun j hj => ?_
  unfold InReach
  rw [h.size, hcounted.sourceOf_eq, hcounted.destinationOf_eq]
  exact hin (k + j) (by omega) (by omega)

/-! ### Block moves -/

/-- A block move beside the status register, of bytes or of words of them.  If it ends, all of the block was in reach and has
been copied upwards byte by byte, the pointers are past their blocks and nothing is left to copy; a block in reach is copied so.
If a byte is the first that is not in reach, the step reports it and leaves the core at the move, with the bytes before it
copied and counted and nothing else changed.  Where the move then goes on, with more memory in reach, it finishes the copy
that it would have made there from the beginning. -/
theorem block_move_resumes (hwidth : width ≠ .long)
    (haside : BlockAside config s.cpu.regs (blockLength width s.cpu.regs)) :
    (∀ t, Executed config (.eepmov width) s t →
      (∀ k < blockLength width s.cpu.regs, InReach s.bus s.cpu.regs k) ∧
      Moved width (blockLength width s.cpu.regs) s t ∧ blockLength width t.cpu.regs = 0 ∧
      (∀ a, (∀ k < blockLength width s.cpu.regs, a ≠ destinationOf s.cpu.regs k) → t.bus.get a = s.bus.get a) ∧
      ((∀ j < blockLength width s.cpu.regs, ∀ k < blockLength width s.cpu.regs,
          sourceOf s.cpu.regs j ≠ destinationOf s.cpu.regs k) →
        ∀ k < blockLength width s.cpu.regs,
          t.bus.get (destinationOf s.cpu.regs k) = s.bus.get (sourceOf s.cpu.regs k))) ∧
    ((∀ k < blockLength width s.cpu.regs, InReach s.bus s.cpu.regs k) → Ends config (.eepmov width) s) ∧
    ∀ k < blockLength width s.cpu.regs, (∀ j < k, InReach s.bus s.cpu.regs j) → ¬InReach s.bus s.cpu.regs k →
      (∀ (i : Instruction) f, i.op = .eepmov width → s.cpu.sleeping = false → s.cpu.dueInterrupt? = none →
        Instruction.decode read8 s.cpu.regs.pc config s = .ok i f →
        ∃ t, step config s = .error (blockFault s.bus s.cpu.regs k) t ∧ Moved width k s t ∧
          t.cpu.regs.pc = s.cpu.regs.pc ∧ t.cpu.sleeping = false ∧ t.cpu.dueInterrupt? = none) ∧
      ∀ (t u : System Memory) (m : Memory), Moved width k s t → GoesOn s t m u →
        (∀ v, Executed config (.eepmov width) u v →
          Counted width (blockLength width s.cpu.regs) s.cpu.regs v.cpu.regs ∧
          ∀ a, v.bus.get a = (m.copyUp (s.cpu.regs.readLong blockSource) (s.cpu.regs.readLong blockDestination)
            (blockLength width s.cpu.regs)).get a) ∧
        ((∀ j < blockLength width s.cpu.regs, k ≤ j → InReach m s.cpu.regs j) → Ends config (.eepmov width) u) := by
  have hspace : blockLength width s.cpu.regs ≤ Address.spaceSize := by
    have hle := UInt32.le_iff_toNat_le.1 (Registers.read_le_mask s.cpu.regs (blockCounter width) width)
    unfold blockLength
    cases width with
    | byte => exact Nat.le_trans hle (by decide)
    | word => exact Nat.le_trans hle (by decide)
    | long => exact absurd rfl hwidth
  refine ⟨fun t ht => ?_, ends_of_inReach haside, fun k hk hin hout => ⟨?_, ?_⟩⟩
  · obtain ⟨hin, hmoved⟩ := ht.moved haside
    have hcounter := hmoved.regs.counter
    refine ⟨hin, hmoved, by omega, fun a ha => ?_, fun hdisjoint k hk => ?_⟩
    · rw [hmoved.bus]
      exact Memory.get_copyUp_of_outside ha
    · rw [hmoved.bus]
      exact Memory.get_copyUp_of_disjoint hspace hdisjoint hk
  · exact fun i f hop hawake hquiet hd => step_of_outOfReach hop hawake hquiet hd haside hk hin hout
  · exact fun t u m hmoved hu =>
      ⟨fun v hv => hu.finishes (Nat.le_of_lt hk) haside hmoved hin hv, hu.ends (Nat.le_of_lt hk) haside hmoved⟩

/-- A core before a move of three bytes, the last of which lies beyond its memory. -/
def beforeEdge : System Memory where
  cpu := { regs := { er := #v[0, 0, 0, 0, 3, 0x100, 0x40, 0], pc := 0x10 } }
  bus := ({ size := 0x102 } : Memory).storeAll 0x10 [0x7B, 0x5C, 0x59, 0x8F]

/-- Two bytes are copied, and the move waits for the third, which is copied once there is more memory. -/
theorem block_move_resumes_at_edge :
    BlockAside {} beforeEdge.cpu.regs (blockLength .byte beforeEdge.cpu.regs) ∧
      ∃ t, step {} beforeEdge = .error (.outOfRange 0x102 ⟨.read, 8⟩) t ∧ Moved .byte 2 beforeEdge t ∧
        t.cpu.regs.pc = 0x10 ∧ Ends {} (.eepmov .byte) { t with bus := { t.bus with size := 0x200 } } := by
  have hlen : blockLength .byte beforeEdge.cpu.regs = 3 := by decide +kernel
  have haside : BlockAside {} beforeEdge.cpu.regs 3 := by
    unfold BlockAside
    decide +kernel
  have hcode : Code {} beforeEdge.bus 0x10 [0x7B, 0x5C, 0x59, 0x8F] :=
    code_storeAll (by decide) (by decide) fun isr h => by
      cases h
      exact .inr (by decide)
  obtain ⟨f, hf⟩ := fetches_of_code hcode
  have hd : Instruction.decode read8 beforeEdge.cpu.regs.pc {} beforeEdge =
      .ok ⟨0x10, .eepmov .byte, [0x7B, 0x5C, 0x59, 0x8F]⟩ f := decode_of_fetches hf rfl
  have hin : ∀ j < 2, InReach beforeEdge.bus beforeEdge.cpu.regs j := by
    unfold InReach
    decide +kernel
  have hout : ¬InReach beforeEdge.bus beforeEdge.cpu.regs 2 := by
    unfold InReach
    decide +kernel
  have hwhole : BlockAside {} beforeEdge.cpu.regs (blockLength .byte beforeEdge.cpu.regs) := hlen ▸ haside
  rw [hlen]
  obtain ⟨-, -, hstop⟩ := block_move_resumes (by decide) hwhole
  obtain ⟨hfail, hgoes⟩ := hstop 2 (by rw [hlen]; decide) hin hout
  obtain ⟨t, ht, hmoved, hpc, -⟩ := hfail _ f rfl rfl (by decide +kernel) hd
  refine ⟨haside, t, ht, hmoved, hpc, (hgoes t _ _ hmoved (hmoved.goesOn hin (by decide))).2 fun j hj hk => ?_⟩
  rw [hlen] at hj
  obtain rfl : j = 2 := by omega
  unfold InReach
  decide +kernel

end CpuM

end H8S
