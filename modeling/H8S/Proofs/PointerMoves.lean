import H8S.Proofs.RegisterLists
import H8S.Proofs.WordNumbers

/-!
# Stores below a pointer and loads that bring them back

A pointer that moves down before a store and up after a load passes the same bytes both ways.  A store leaves the value, as it is
after the pointer moved, in the bytes below the old pointer and nowhere else (`StoredBelow`).  As long as those bytes and the
pointer are not disturbed, a load takes the value from there, wherever it is executed, and the pointer is back
(`StoredBelow.loads`, `StoredBelow.controlLoads`).  Arithmetic on pointers is that of words of 32 bits, so it does not matter
whether the pointer passes zero, nor what its upper byte is.

Together the two are a move from one view to another, and keep a control register over anything that is done to it between
(`stored_comes_back`).  With the last register as the pointer they are a push and a pop.
-/

namespace H8S

namespace Registers

variable (r : Registers)

/-- Where a value of a width goes that is stored below a pointer. -/
def beneath (width : Width) (p : UInt8) : UInt32 := Address.trunc (r.readLong p - width.bytes)

/-- The registers with a pointer moved down by a width. -/
def lowered (width : Width) (p : UInt8) : Registers := r.writeLong p (r.readLong p - width.bytes)

/-- The registers with a pointer moved up by a width. -/
def raised (width : Width) (p : UInt8) : Registers := r.writeLong p (r.readLong p + width.bytes)

theorem beneath_toNat_le (width : Width) (p : UInt8) : (r.beneath width p).toNat + 4 ≤ 2 ^ 32 := by
  have h := Address.trunc_lt (r.readLong p - width.bytes)
  unfold Address.spaceSize at h
  unfold beneath
  omega

variable {r} {width : Width} {p : UInt8}

theorem readLong_raised : (r.raised width p).readLong p = r.readLong p + width.bytes := readLong_writeLong p _

end Registers

/-- A value is the bytes from its address on. -/
theorem Memory.sizedAt_congr {m m' : Memory} {width : Width} {addr : UInt32}
    (h : ∀ a, (Stretch.mk addr width.bytes.toNat).Holds a → m'.get a = m.get a) :
    m'.sizedAt width addr = m.sizedAt width addr := by
  cases width with
  | byte => exact congrArg UInt8.toUInt32 (h addr ⟨0, Nat.zero_lt_one, (UInt32.add_zero addr).symm⟩)
  | word =>
    have h₀ := h addr ⟨0, Nat.zero_lt_two, (UInt32.add_zero addr).symm⟩
    have h₁ := h (addr + 1) ⟨1, Nat.one_lt_two, rfl⟩
    unfold sizedAt
    rw [h₀, h₁]
  | long => exact longAt_congr h

namespace CpuM

variable {config : Config} {s t u b v : System Memory} {width : Width} {p src dst : UInt8}

/-! ### Stores -/

theorem move_store (h : move width (.reg src) (.mem (.preDec p)) config s = .ok () t) :
    writeSized width (s.cpu.regs.beneath width p) ((s.cpu.regs.lowered width p).read width src) config
      { s with
        cpu := { s.cpu with
          regs := { s.cpu.regs.lowered width p with
            ccr := Alu.moveFlags width ((s.cpu.regs.lowered width p).read width src) s.cpu.regs.ccr } } } = .ok () t := by
  obtain ⟨_, v, h₁, h₂⟩ := bind_ok.1 (show (writeSized width (s.cpu.regs.beneath width p)
    ((s.cpu.regs.lowered width p).read width src) >>= fun _ => pure ()) config _ = .ok () t from h)
  cases h₂
  exact h₁

theorem storeControl_store {reg : ControlReg} (h : storeControl reg (.mem (.preDec p)) config s = .ok () t) :
    writeSized .word (s.cpu.regs.beneath .word p) (s.cpu.regs.control reg).toUInt32 config
      { s with cpu := { s.cpu with regs := s.cpu.regs.lowered .word p } } = .ok () t := by
  have hvalue : (s.cpu.regs.control reg).toUInt16 = (s.cpu.regs.control reg).toUInt32.toUInt16 := by simp
  have h' : write16 (s.cpu.regs.beneath .word p) (s.cpu.regs.control reg).toUInt16 config
      { s with cpu := { s.cpu with regs := s.cpu.regs.lowered .word p } } = .ok () t := h
  rw [hvalue] at h'
  exact h'

/-! ### Loads -/

private theorem readSized_ends {value : UInt32}
    (hc : coversStatus config (Address.trunc (s.cpu.regs.readLong p)) width.bytes = false)
    (hroom : (Address.trunc (s.cpu.regs.readLong p)).toNat + width.bytes.toNat ≤ s.bus.size)
    (hvalue : value = s.bus.sizedAt width (Address.trunc (s.cpu.regs.readLong p))) :
    ∃ b, readSized width (Address.trunc (s.cpu.regs.readLong p)) config s = .ok value b ∧ b.cpu.regs = s.cpu.regs ∧
      b.bus = s.bus := by
  have ha := Address.trunc_lt (s.cpu.regs.readLong p)
  unfold Address.spaceSize at ha
  exact ⟨_, (readSized_memory hc (by omega)).2 ⟨hroom, hvalue, rfl⟩, Cpu.chargedSized_regs .., rfl⟩

theorem move_load {value : UInt32} (hc : coversStatus config (Address.trunc (s.cpu.regs.readLong p)) width.bytes = false)
    (hroom : (Address.trunc (s.cpu.regs.readLong p)).toNat + width.bytes.toNat ≤ s.bus.size)
    (hvalue : value = s.bus.sizedAt width (Address.trunc (s.cpu.regs.readLong p))) :
    ∃ t, move width (.mem (.postInc p)) (.reg dst) config s = .ok () t ∧ t.bus = s.bus ∧
      t.cpu.regs =
        ({ s.cpu.regs with ccr := Alu.moveFlags width value s.cpu.regs.ccr }.write width dst value).raised width p := by
  obtain ⟨b, hread, hregs, hbus⟩ := readSized_ends hc hroom hvalue
  have hsource : sourceValue width (.mem (.postInc p)) config s = .ok value b := hread
  have hdestination : destinationAddress width (.reg dst) config s = .ok none s := rfl
  rw [move, bind_of_ok hdestination, bind_of_ok hsource, bind_of_ok (run_modifyRegs _), ← hregs]
  exact ⟨_, rfl, hbus, rfl⟩

theorem loadControl_load (reg : ControlReg) {value : UInt32}
    (hc : coversStatus config (Address.trunc (s.cpu.regs.readLong p)) 2 = false)
    (hroom : (Address.trunc (s.cpu.regs.readLong p)).toNat + 2 ≤ s.bus.size)
    (hvalue : value = s.bus.sizedAt .word (Address.trunc (s.cpu.regs.readLong p))) :
    ∃ t, loadControl (.mem (.postInc p)) reg config s = .ok () t ∧ t.bus = s.bus ∧
      t.cpu.regs = (s.cpu.regs.raised .word p).setControl reg value.toUInt8 := by
  obtain ⟨b, hread, hregs, hbus⟩ := readSized_ends (show coversStatus config _ Width.word.bytes = false from hc) hroom hvalue
  have hresolve : resolve (.postInc p) .word config s = .ok (Address.trunc (s.cpu.regs.readLong p)) s := rfl
  have hload : (loadOperand (.postInc p) .word >>= fun v => pure v.toUInt8) config s = .ok value.toUInt8
      { b with cpu := { b.cpu with regs := b.cpu.regs.raised .word p } } := by
    rw [loadOperand, bind_assoc, bind_of_ok hresolve, bind_assoc, bind_of_ok hread, bind_assoc,
      bind_of_ok (run_modifyRegs _)]
    rfl
  have hvalue' : controlValue (.mem (.postInc p)) config s = .ok value.toUInt8 _ := hload
  rw [loadControl, bind_of_ok hvalue', ← hregs]
  exact ⟨_, rfl, hbus, rfl⟩

/-! ### Values below a pointer -/

private theorem Readied.beneath (h : Readied s b) : b.cpu.regs.beneath width p = s.cpu.regs.beneath width p :=
  congrArg (fun a => Address.trunc (a - width.bytes)) (h.readLong p)

/-- From `s` to `t` a value was stored below a pointer, and the pointer moved there. -/
structure StoredBelow (width : Width) (p : UInt8) (value : UInt32) (s t : System Memory) : Prop where
  er : t.cpu.regs.er = (s.cpu.regs.lowered width p).er
  exr : t.cpu.regs.exr = s.cpu.regs.exr
  room : (s.cpu.regs.beneath width p).toNat + width.bytes.toNat ≤ t.bus.size
  value : t.bus.sizedAt width (s.cpu.regs.beneath width p) = value
  stored : Memory.StoredAt [⟨s.cpu.regs.beneath width p, width.bytes.toNat⟩] s.bus t.bus

private theorem storedBelow {value : UInt32} {r : Registers}
    (hc : coversStatus config (s.cpu.regs.beneath width p) width.bytes = false) (hvalue : value &&& width.mask = value)
    (her : r.er = (s.cpu.regs.lowered width p).er) (hexr : r.exr = s.cpu.regs.exr) (hbus : b.bus = s.bus)
    (h : writeSized width (s.cpu.regs.beneath width p) value config { b with cpu := { b.cpu with regs := r } } = .ok () v) :
    StoredBelow width p value s v ∧ v.cpu.regs.ccr = r.ccr := by
  have hstored := (Storing.writeSized width _ value).ok h
  obtain ⟨hroom, hv⟩ := (writeSized_memory hc (s.cpu.regs.beneath_toNat_le width p)).1 h
  have hregs : v.cpu.regs = r := by
    rw [hv]
    exact Cpu.chargedSized_regs ..
  have hmemory : v.bus = s.bus.storeSized width (s.cpu.regs.beneath width p) value := by
    rw [hv, ← hbus]
  rw [hbus] at hroom hstored
  refine ⟨⟨hregs ▸ her, hregs ▸ hexr, ?_, ?_, hstored⟩, by rw [hregs]⟩
  · rw [hmemory, Memory.size_storeSized]
    exact hroom
  · rw [hmemory, Memory.sizedAt_storeSized, hvalue]

/-- The pointer stands where the value was stored. -/
private theorem StoredBelow.pointer {value : UInt32} {t' : System Memory} {xs : List Stretch}
    (h : StoredBelow width p value s t) (hu : Undisturbed p xs t t') :
    t'.cpu.regs.readLong p = s.cpu.regs.readLong p - width.bytes :=
  (hu.pointer.trans (Registers.read_congr h.er .long p)).trans (Registers.readLong_writeLong p _)

/-- A value that was stored below a pointer can be read where the pointer points. -/
private theorem StoredBelow.ready {value : UInt32} {t' : System Memory} (h : StoredBelow width p value s t)
    (hu : Undisturbed p [⟨s.cpu.regs.beneath width p, width.bytes.toNat⟩] t t') :
    Address.trunc (t'.cpu.regs.readLong p) = s.cpu.regs.beneath width p ∧
      (s.cpu.regs.beneath width p).toNat + width.bytes.toNat ≤ t'.bus.size ∧
      value = t'.bus.sizedAt width (s.cpu.regs.beneath width p) := by
  refine ⟨?_, ?_, ?_⟩
  · exact congrArg Address.trunc (h.pointer hu)
  · rw [hu.size]
    exact h.room
  · rw [← h.value]
    exact (Memory.sizedAt_congr fun a ha => hu.bytes _ (List.mem_singleton.2 rfl) a ha).symm

theorem Executed.storedBelow (h : Executed config (.mov width (.reg src) (.mem (.preDec p))) s t)
    (hc : coversStatus config (s.cpu.regs.beneath width p) width.bytes = false) :
    StoredBelow width p ((s.cpu.regs.lowered width p).read width src) s t ∧
      t.cpu.regs.ccr = Alu.moveFlags width ((s.cpu.regs.lowered width p).read width src) s.cpu.regs.ccr := by
  obtain ⟨b, v, hb, hp, rfl⟩ := h.performed
  obtain ⟨pc, hregs⟩ := hb.regs
  have hstore := move_store hp
  have hread : (b.cpu.regs.lowered width p).read width src = (s.cpu.regs.lowered width p).read width src := by
    rw [hregs]
    exact Registers.read_congr rfl width src
  rw [hread, hb.beneath] at hstore
  obtain ⟨hstored, hccr⟩ := CpuM.storedBelow hc (Registers.read_and_mask ..) (by rw [hregs]; rfl) (by rw [hregs]; rfl)
    hb.memory hstore
  refine ⟨⟨hstored.er, hstored.exr, hstored.room, hstored.value, hstored.stored⟩, hccr.trans ?_⟩
  rw [hregs]

theorem Executed.controlStoredBelow {reg : ControlReg} (h : Executed config (.stc reg (.mem (.preDec p))) s t)
    (hc : coversStatus config (s.cpu.regs.beneath .word p) 2 = false) :
    StoredBelow .word p (s.cpu.regs.control reg).toUInt32 s t ∧ t.cpu.regs.ccr = s.cpu.regs.ccr := by
  obtain ⟨b, v, hb, hp, rfl⟩ := h.performed
  obtain ⟨pc, hregs⟩ := hb.regs
  have hstore := storeControl_store hp
  have hcontrol : b.cpu.regs.control reg = s.cpu.regs.control reg := by
    rw [hregs]
    cases reg <;> rfl
  rw [hcontrol, hb.beneath] at hstore
  have hvalue : (s.cpu.regs.control reg).toUInt32 &&& Width.word.mask = (s.cpu.regs.control reg).toUInt32 := by
    have hlt := (s.cpu.regs.control reg).toNat_lt
    refine Alu.and_mask_of_lt (Nat.lt_of_lt_of_le ?_ (show 256 ≤ 2 * Alu.half .word by decide))
    rwa [UInt8.toNat_toUInt32]
  obtain ⟨hstored, hccr⟩ := CpuM.storedBelow hc hvalue (by rw [hregs]; rfl) (by rw [hregs]; rfl) hb.memory hstore
  refine ⟨⟨hstored.er, hstored.exr, hstored.room, hstored.value, hstored.stored⟩, hccr.trans ?_⟩
  rw [hregs]
  rfl

/-! ### Values that come back -/

/-- From `t'` to `u` a value was loaded, and the pointer is where it was in `s`. -/
structure LoadedBack (width : Width) (p dst : UInt8) (value : UInt32) (s t' u : System Memory) : Prop where
  bus : u.bus = t'.bus
  view : u.cpu.regs.read width dst = value
  pointer : u.cpu.regs.readLong p = s.cpu.regs.readLong p
  others : ∀ k i, k ≠ Registers.cell p → ¬View.Holds ⟨width, dst⟩ k i → u.cpu.regs.bit k i = t'.cpu.regs.bit k i
  ccr : u.cpu.regs.ccr = { t'.cpu.regs.ccr with
    n := decide (Alu.signed width value < 0), z := decide (Alu.signed width value = 0), v := false }
  exr : u.cpu.regs.exr = t'.cpu.regs.exr

variable {value : UInt32} {t' : System Memory}

theorem StoredBelow.loads (h : StoredBelow width p value s t) (hvalue : value &&& width.mask = value)
    (hc : coversStatus config (s.cpu.regs.beneath width p) width.bytes = false)
    (hdst : Registers.cell dst ≠ Registers.cell p)
    (hu : Undisturbed p [⟨s.cpu.regs.beneath width p, width.bytes.toNat⟩] t t') :
    Ends config (.mov width (.mem (.postInc p)) (.reg dst)) t' ∧
      ∀ u, Executed config (.mov width (.mem (.postInc p)) (.reg dst)) t' u → LoadedBack width p dst value s t' u := by
  have loads : ∀ b, Readied t' b → ∃ v, perform (.mov width (.mem (.postInc p)) (.reg dst)) config b = .ok () v ∧
      v.bus = b.bus ∧ v.cpu.regs =
        ({ b.cpu.regs with ccr := Alu.moveFlags width value b.cpu.regs.ccr }.write width dst value).raised width p :=
    fun b hb => by
    obtain ⟨haddr, hroom, hvalue⟩ := h.ready (hu.of_readied hb)
    rw [← haddr] at hc hroom hvalue
    exact move_load hc hroom hvalue
  obtain ⟨hends, hexecuted⟩ := executed_of_performs loads
  refine ⟨hends, fun u hl => ?_⟩
  obtain ⟨b, v, hb, ⟨hbus, hregs⟩, rfl⟩ := hexecuted u hl
  obtain ⟨pc, hb'⟩ := hb.regs
  have hflags : Alu.moveFlags width value b.cpu.regs.ccr = { t'.cpu.regs.ccr with
      n := decide (Alu.signed width value < 0), z := decide (Alu.signed width value = 0), v := false } := by
    rw [Alu.moveFlags, Alu.signFlags_signed, hb']
  refine ⟨hbus.trans hb.memory, ?_, ?_, fun k i hk hview => ?_, ?_, ?_⟩
  · show v.cpu.regs.read width dst = value
    rw [hregs, Registers.raised, Registers.read_writeLong_of_ne _ hdst, Registers.read_write, hvalue]
  · show v.cpu.regs.readLong p = _
    rw [hregs, Registers.readLong_raised, Registers.readLong_write_of_ne value hdst]
    exact (congrArg (· + width.bytes) (h.pointer (hu.of_readied hb))).trans (UInt32.sub_add_cancel _ _)
  · show v.cpu.regs.bit k i = _
    rw [hregs, Registers.raised, Registers.bit_writeLong_of_ne _ hk, Registers.bit_write_of_not_holds value hview, hb']
    rfl
  · show v.cpu.regs.ccr = _
    rw [hregs, ← hflags]
    exact Registers.write_ccr _ dst width value
  · show v.cpu.regs.exr = _
    rw [hregs]
    exact (Registers.write_exr _ dst width value).trans (by rw [hb'])

/-- From `s` to `u` a value was moved to a view. -/
structure MovedTo (width : Width) (dst : UInt8) (value : UInt32) (s u : System Memory) : Prop where
  er : u.cpu.regs.er = (s.cpu.regs.write width dst value).er
  ccr : u.cpu.regs.ccr = { s.cpu.regs.ccr with
    n := decide (Alu.signed width value < 0), z := decide (Alu.signed width value = 0), v := false }
  exr : u.cpu.regs.exr = s.cpu.regs.exr

/-- Where the registers are as the store left them, storing and loading is moving. -/
theorem LoadedBack.moved (h : LoadedBack width p dst value s t' u) (hregs : t'.cpu.regs = t.cpu.regs)
    (hstored : StoredBelow width p value s t) (hccr : t.cpu.regs.ccr = Alu.moveFlags width value s.cpu.regs.ccr)
    (hdst : Registers.cell dst ≠ Registers.cell p) : MovedTo width dst value s u where
  er := by
    -- a bit belongs to the pointer, to the view that was loaded, or to neither
    refine Registers.er_ext fun k i => ?_
    by_cases hk : k = Registers.cell p
    · have hu : u.cpu.regs.bit k i = s.cpu.regs.bit k i := by
        rw [hk]
        exact congrArg (fun v => v.toNat.testBit i) h.pointer
      rw [hu, Registers.bit_write_of_not_holds value fun hh => hdst (hh.1.trans hk)]
    · by_cases hview : View.Holds ⟨width, dst⟩ k i
      · rw [Registers.bit_of_holds hview, h.view, Registers.bit_write_of_holds value hview]
      · have ht : t'.cpu.regs.bit k i = (s.cpu.regs.lowered width p).bit k i := by
          rw [hregs]
          unfold Registers.bit
          rw [hstored.er]
        rw [h.others k i hk hview, Registers.bit_write_of_not_holds value hview, ht]
        exact Registers.bit_writeLong_of_ne _ hk
  ccr := by rw [h.ccr, hregs, hccr, Alu.moveFlags, Alu.signFlags_signed]
  exr := by rw [h.exr, hregs, hstored.exr]

/-- From `t'` to `u` a control register was loaded as it is in `s`, and the pointer is where it was there. -/
structure ControlLoadedBack (reg : ControlReg) (p : UInt8) (s t' u : System Memory) : Prop where
  bus : u.bus = t'.bus
  control : u.cpu.regs.control reg = s.cpu.regs.control reg
  pointer : u.cpu.regs.readLong p = s.cpu.regs.readLong p
  others : ∀ k ≠ Registers.cell p, u.cpu.regs.er.get k = t'.cpu.regs.er.get k
  otherControl : ∀ reg' ≠ reg, u.cpu.regs.control reg' = t'.cpu.regs.control reg'

theorem StoredBelow.controlLoads {reg : ControlReg} (h : StoredBelow .word p (s.cpu.regs.control reg).toUInt32 s t)
    (hc : coversStatus config (s.cpu.regs.beneath .word p) 2 = false)
    (hu : Undisturbed p [⟨s.cpu.regs.beneath .word p, 2⟩] t t') :
    Ends config (.ldc (.mem (.postInc p)) reg) t' ∧
      ∀ u, Executed config (.ldc (.mem (.postInc p)) reg) t' u → ControlLoadedBack reg p s t' u := by
  have loads : ∀ b, Readied t' b → ∃ v, perform (.ldc (.mem (.postInc p)) reg) config b = .ok () v ∧ v.bus = b.bus ∧
      v.cpu.regs = (b.cpu.regs.raised .word p).setControl reg (s.cpu.regs.control reg) := fun b hb => by
    obtain ⟨haddr, hroom, hvalue⟩ := h.ready (hu.of_readied hb)
    rw [← haddr] at hc hroom hvalue
    have hload := loadControl_load reg hc hroom hvalue
    rwa [UInt8.toUInt8_toUInt32] at hload
  obtain ⟨hends, hexecuted⟩ := executed_of_performs loads
  refine ⟨hends, fun u hl => ?_⟩
  obtain ⟨b, v, hb, ⟨hbus, hregs⟩, rfl⟩ := hexecuted u hl
  obtain ⟨pc, hb'⟩ := hb.regs
  have her : v.cpu.regs.er = (b.cpu.regs.raised .word p).er := by rw [hregs, Registers.setControl_er]
  refine ⟨hbus.trans hb.memory, ?_, ?_, fun k hk => ?_, fun reg' hne => ?_⟩
  · show v.cpu.regs.control reg = _
    rw [hregs, Registers.control_setControl]
  · have hraised := @Registers.readLong_raised b.cpu.regs .word p
    rw [h.pointer (hu.of_readied hb), UInt32.sub_add_cancel] at hraised
    exact (Registers.read_congr her .long p).trans hraised
  · show v.cpu.regs.er.get k = _
    rw [her, Registers.raised, Registers.er_writeLong_of_ne _ hk.symm, hb']
  · show v.cpu.regs.control reg' = _
    rw [hregs, Registers.control_setControl_of_ne _ _ hne, hb']
    cases reg' <;> rfl

/-- A value that is stored below a pointer, and loaded by the pointer that moves up again, is moved, for every pointer, the stack
pointer among them, and wherever it points: what is stored is the view as it is after the pointer moved, nothing but its bytes is
changed in the memory, and the pointer comes back.  A control register that is stored and loaded in this way comes back as
well, whatever was done to it between. -/
theorem stored_comes_back (config : Config) (p : UInt8) (s : System Memory) :
    (∀ width src t, coversStatus config (s.cpu.regs.beneath width p) width.bytes = false →
      Executed config (.mov width (.reg src) (.mem (.preDec p))) s t →
        StoredBelow width p ((s.cpu.regs.lowered width p).read width src) s t ∧
          (Registers.cell src ≠ Registers.cell p →
            (s.cpu.regs.lowered width p).read width src = s.cpu.regs.read width src) ∧
          ∀ dst t', Registers.cell dst ≠ Registers.cell p →
            Undisturbed p [⟨s.cpu.regs.beneath width p, width.bytes.toNat⟩] t t' →
              Ends config (.mov width (.mem (.postInc p)) (.reg dst)) t' ∧
                ∀ u, Executed config (.mov width (.mem (.postInc p)) (.reg dst)) t' u →
                  LoadedBack width p dst ((s.cpu.regs.lowered width p).read width src) s t' u ∧
                    (t'.cpu.regs = t.cpu.regs →
                      MovedTo width dst ((s.cpu.regs.lowered width p).read width src) s u)) ∧
      ∀ reg t, coversStatus config (s.cpu.regs.beneath .word p) 2 = false →
        Executed config (.stc reg (.mem (.preDec p))) s t →
          StoredBelow .word p (s.cpu.regs.control reg).toUInt32 s t ∧ t.cpu.regs.ccr = s.cpu.regs.ccr ∧
            ∀ t', Undisturbed p [⟨s.cpu.regs.beneath .word p, 2⟩] t t' →
              Ends config (.ldc (.mem (.postInc p)) reg) t' ∧
                ∀ u, Executed config (.ldc (.mem (.postInc p)) reg) t' u → ControlLoadedBack reg p s t' u := by
  constructor
  · intro width src t hc h
    obtain ⟨hstored, hccr⟩ := h.storedBelow hc
    refine ⟨hstored, fun hsrc => ?_, fun dst t' hdst hu => ?_⟩
    · exact Registers.read_writeLong_of_ne _ hsrc
    · obtain ⟨hends, hloads⟩ := hstored.loads (Registers.read_and_mask ..) hc hdst hu
      exact ⟨hends, fun u hl => ⟨hloads u hl, fun hregs => (hloads u hl).moved hregs hstored hccr hdst⟩⟩
  · intro reg t hc h
    obtain ⟨hstored, hccr⟩ := h.controlStoredBelow hc
    exact ⟨hstored, hccr, fun t' hu => hstored.controlLoads hc hu⟩

/-- A core with a value in a register, and with a stack pointer whose upper byte is not zero. -/
def topped : System Memory :=
  { cpu := { regs := (({} : Registers).writeLong 1 0x12345678).setSp 0xFF000102 }, bus := { size := 0x200 } }

/-- A long that is pushed and popped into another register, and flags that are restored after all were set. -/
theorem stored_comes_back_by_pop :
    (∃ t u, Executed {} (.mov .long (.reg 1) (.mem (.preDec 7))) topped t ∧
      Executed {} (.mov .long (.mem (.postInc 7)) (.reg 2)) t u ∧ MovedTo .long 2 0x12345678 topped u) ∧
      ∃ t u, Executed {} (.stc .ccr (.mem (.preDec 7))) topped t ∧
        Executed {} (.ldc (.mem (.postInc 7)) .ccr)
          { t with cpu := { t.cpu with regs := { t.cpu.regs with ccr := .ofByte 0xFF } } } u ∧
        u.cpu.regs.control .ccr = 0 := by
  obtain ⟨hmoves, hcontrols⟩ := stored_comes_back {} 7 topped
  constructor
  · obtain ⟨t, ht⟩ : ∃ t, execute ⟨0, .mov .long (.reg 1) (.mem (.preDec 7)), []⟩ {} topped = .ok () t := ⟨_, rfl⟩
    have h : Executed {} (.mov .long (.reg 1) (.mem (.preDec 7))) topped t := .alone _ rfl ht
    obtain ⟨-, -, hback⟩ := hmoves .long 1 t (by decide) h
    obtain ⟨hends, hloads⟩ := hback 2 t (by decide) ⟨rfl, rfl, fun _ _ _ _ => rfl⟩
    obtain ⟨u, hu⟩ := hends.alone ⟨0, .mov .long (.mem (.postInc 7)) (.reg 2), []⟩ rfl
    exact ⟨t, u, h, .alone _ rfl hu, (hloads u (.alone _ rfl hu)).2 rfl⟩
  · obtain ⟨t, ht⟩ : ∃ t, execute ⟨0, .stc .ccr (.mem (.preDec 7)), []⟩ {} topped = .ok () t := ⟨_, rfl⟩
    have h : Executed {} (.stc .ccr (.mem (.preDec 7))) topped t := .alone _ rfl ht
    obtain ⟨-, -, hback⟩ := hcontrols .ccr t (by decide) h
    obtain ⟨hends, hloads⟩ := hback { t with cpu := { t.cpu with regs := { t.cpu.regs with ccr := .ofByte 0xFF } } }
      ⟨rfl, rfl, fun _ _ _ _ => rfl⟩
    obtain ⟨u, hu⟩ := hends.alone ⟨0, .ldc (.mem (.postInc 7)) .ccr, []⟩ rfl
    exact ⟨t, u, h, .alone _ rfl hu, (hloads u (.alone _ rfl hu)).control⟩

end CpuM

end H8S
