import H8S.Proofs.Addresses
import H8S.Proofs.Executions
import H8S.Proofs.MemoryFrames
import H8S.Proofs.WellFormedOperations

/-!
# Registers saved and restored

Registers that are pushed in ascending order lie in longs below the stack pointer (`below`), which share no byte
(`below_apart`); what a push stores stays there under the pushes after it (`pushRegisters_memory`).  Registers that are popped in
descending order take the longs from the stack pointer upwards (`popRegisters_memory`).

The stack pointer may be one of the registers.  It is then stored as the pushes before it have left it, and popped where its own
pop leaves it anyway, so that the pops after it find their longs.  Therefore a list of registers is restored as a whole, and the
stack pointer with it (`saved_restores`).
-/

namespace H8S

namespace Registers

variable (r : Registers)

theorem setSp_setSp (a b : UInt32) : (r.setSp a).setSp b = r.setSp b := by
  simp [setSp, writeLong]

theorem setSp_self : r.setSp r.sp = r := r.write_read .long 7

variable {r}

/-- The stack pointer keeps its place when another register is written, or when it is written with it. -/
theorem sp_writeLong {id : UInt8} {value : UInt32} (h : cell id = cell 7 → value = r.sp) :
    (r.writeLong id value).sp = r.sp := by
  by_cases hid : cell id = cell 7
  · have hsame : r.writeLong id value = r.setSp value := by
      unfold setSp writeLong
      simp only [hid]
    rw [hsame, setSp_sp, h hid]
  · exact er_writeLong_of_ne value hid

end Registers

/-! ### Slots of a stack -/

private theorem sub_succ (sp : UInt32) (k : Nat) : sp - 4 - (4 * k).toUInt32 = sp - (4 * (k + 1)).toUInt32 := by
  apply UInt32.toNat_inj.1
  simp [UInt32.toNat_sub]
  omega

private theorem add_succ (sp : UInt32) (k : Nat) : sp + 4 + (4 * k).toUInt32 = sp + (4 * (k + 1)).toUInt32 := by
  apply UInt32.toNat_inj.1
  simp
  omega

private theorem count_up (first : UInt8) (k : Nat) : first + (k + 1).toUInt8 = first + 1 + k.toUInt8 := by
  apply UInt8.toNat_inj.1
  simp
  omega

private theorem count_down (last : UInt8) (k : Nat) : last - (k + 1).toUInt8 = last - 1 - k.toUInt8 := by
  apply UInt8.toNat_inj.1
  simp [UInt8.toNat_sub]
  omega

/-- Eight registers in a row are different ones. -/
private theorem cell_count_down_ne (last : UInt8) {k : Nat} (hk : k < 7) :
    Registers.cell (last - 1 - k.toUInt8) ≠ Registers.cell last := fun h => by
  have hval := congrArg Fin.val h
  simp [Registers.cell, UInt8.toNat_sub] at hval
  omega

namespace Stretch

/-- Where a long lies that is pushed after `k` others. -/
def below (sp : UInt32) (k : Nat) : UInt32 := Address.trunc (sp - (4 * (k + 1)).toUInt32)

/-- Where a long lies that is popped after `k` others. -/
def above (sp : UInt32) (k : Nat) : UInt32 := Address.trunc (sp + (4 * k).toUInt32)

theorem below_succ (sp : UInt32) (k : Nat) : below (sp - 4) k = below sp (k + 1) :=
  congrArg Address.trunc (sub_succ sp (k + 1))

theorem above_succ (sp : UInt32) (k : Nat) : above (sp + 4) k = above sp (k + 1) := congrArg Address.trunc (add_succ sp k)

theorem above_zero (sp : UInt32) : above sp 0 = Address.trunc sp := congrArg Address.trunc (UInt32.add_zero sp)

theorem below_toNat_le (sp : UInt32) (k : Nat) : (below sp k).toNat + 4 ≤ 2 ^ 32 := by
  have h := Address.trunc_lt (sp - (4 * (k + 1)).toUInt32)
  unfold Address.spaceSize at h
  unfold below
  omega

/-- Longs that are pushed one after the other share no byte. -/
theorem below_apart (sp : UInt32) {j k : Nat} (hjk : j < k) (hk : k < 2 ^ 16) : Memory.Apart (below sp k) (below sp j) := by
  have hsp := sp.toNat_lt
  unfold Memory.Apart below
  rw [Address.trunc_toNat, Address.trunc_toNat, Address.spaceSize]
  simp only [UInt32.toNat_sub, Nat.toUInt32_eq, UInt32.toNat_ofNat']
  omega

theorem mem_pushed {sp : UInt32} {n : Nat} {x : Stretch} : x ∈ pushed sp n ↔ ∃ k < n, x = ⟨below sp k, 4⟩ := by
  induction n generalizing sp with
  | zero => simp [pushed]
  | succ n ih =>
    rw [pushed, List.mem_cons, ih]
    constructor
    · rintro (rfl | ⟨k, hk, rfl⟩)
      · exact ⟨0, by omega, rfl⟩
      · exact ⟨k + 1, by omega, by rw [below_succ]⟩
    · rintro ⟨k, hk, rfl⟩
      cases k with
      | zero => exact .inl rfl
      | succ k => exact .inr ⟨k, by omega, by rw [below_succ]⟩

end Stretch

/-- A long is the four bytes from its address on. -/
theorem Memory.longAt_congr {m m' : Memory} {addr : UInt32} (h : ∀ a, (Stretch.mk addr 4).Holds a → m'.get a = m.get a) :
    m'.longAt addr = m.longAt addr := by
  have h₀ := h addr ⟨0, by simp, (UInt32.add_zero addr).symm⟩
  have h₁ := h (addr + 1) ⟨1, by simp, rfl⟩
  have h₂ := h (addr + 2) ⟨2, by simp, rfl⟩
  have h₃ := h (addr + 3) ⟨3, by simp, rfl⟩
  unfold longAt
  rw [h₀, h₁, h₂, h₃]

namespace CpuM

open Stretch

variable {config : Config} {s t u : System Memory} {first last count : UInt8} {n : Nat}

/-! ### Pushed registers -/

/-- From `s` to `t` the registers from `first` on were pushed, each as it was when its turn came. -/
structure Saved (first : UInt8) (n : Nat) (s t : System Memory) : Prop where
  regs : ∃ pc, t.cpu.regs = { s.cpu.regs.setSp (s.cpu.regs.sp - (4 * n).toUInt32) with pc := pc }
  size : t.bus.size = s.bus.size
  room : ∀ k < n, (below s.cpu.regs.sp k).toNat + 4 ≤ s.bus.size
  long : ∀ k < n, t.bus.longAt (below s.cpu.regs.sp k) =
    (s.cpu.regs.setSp (s.cpu.regs.sp - (4 * k).toUInt32)).readLong (first + k.toUInt8)
  kept : ∀ a, a.toNat + 4 ≤ 2 ^ 32 → (∀ k < n, Memory.Apart (below s.cpu.regs.sp k) a) →
    t.bus.longAt a = s.bus.longAt a

/-- One register was pushed. -/
private structure PushedOne (first : UInt8) (s v : System Memory) : Prop where
  regs : v.cpu.regs = s.cpu.regs.setSp (s.cpu.regs.sp - 4)
  room : (below s.cpu.regs.sp 0).toNat + 4 ≤ s.bus.size
  bus : v.bus = s.bus.storeLong (below s.cpu.regs.sp 0) (s.cpu.regs.readLong first)

private theorem pushRegisters_succ (hc : coversStatus config (below s.cpu.regs.sp 0) 4 = false)
    (h : pushRegisters first (n + 1) config s = .ok () t) :
    ∃ v, PushedOne first s v ∧ pushRegisters (first + 1) n config v = .ok () t := by
  unfold pushRegisters at h
  rw [bind_of_ok run_getRegs] at h
  obtain ⟨_, v, hpush, hrest⟩ := bind_ok.1 h
  obtain ⟨hroom, hv⟩ := (push32_memory hc).1 hpush
  refine ⟨v, ⟨?_, hroom, ?_⟩, hrest⟩
  · rw [hv]
    rfl
  · rw [hv]
    rfl

private theorem Saved.nil (first : UInt8) (s : System Memory) : Saved first 0 s s := by
  have hsp : s.cpu.regs.sp - (4 * 0).toUInt32 = s.cpu.regs.sp := UInt32.sub_zero _
  have none : ∀ {p : Nat → Prop}, ∀ k < 0, p k := fun _ hk => absurd hk (Nat.not_lt_zero _)
  exact ⟨⟨s.cpu.regs.pc, by rw [hsp, Registers.setSp_self]⟩, rfl, none, none, fun _ _ _ => rfl⟩

/-- The first long stays where it is under those that are pushed after it. -/
private theorem PushedOne.cons (h : PushedOne first s u) (hn : n + 1 < 2 ^ 16) (hrest : Saved (first + 1) n u t) :
    Saved first (n + 1) s t := by
  obtain ⟨⟨pc, hr⟩, hsize, hrooms, hlong, hkept⟩ := hrest
  simp only [h.regs, h.bus, Registers.setSp_sp, Registers.setSp_setSp, Memory.size_storeLong, below_succ, sub_succ]
    at hr hsize hrooms hlong hkept
  refine ⟨⟨pc, hr⟩, hsize, ?_, ?_, ?_⟩
  · intro k hk
    cases k with
    | zero => exact h.room
    | succ k => exact hrooms k (by omega)
  · intro k hk
    cases k with
    | zero =>
      have hsp : s.cpu.regs.sp - (4 * 0).toUInt32 = s.cpu.regs.sp := UInt32.sub_zero _
      have hfirst : first + (0 : Nat).toUInt8 = first := UInt8.add_zero first
      rw [hkept _ (below_toNat_le _ 0) fun j hj => below_apart _ (Nat.succ_pos j) (by omega), Memory.longAt_storeLong, hsp,
        Registers.setSp_self, hfirst]
    | succ k => rw [hlong k (by omega), count_up]
  · intro a ha hapart
    rw [hkept a ha fun k hk => hapart (k + 1) (by omega)]
    exact Memory.longAt_storeLong_of_apart _ (below_toNat_le _ 0) ha (hapart 0 (Nat.succ_pos n))

theorem pushRegisters_memory (hn : n < 2 ^ 16) (hc : ∀ k < n, coversStatus config (below s.cpu.regs.sp k) 4 = false)
    (h : pushRegisters first n config s = .ok () t) : Saved first n s t := by
  induction n generalizing first s with
  | zero =>
    cases h
    exact .nil first t
  | succ n ih =>
    obtain ⟨v, hone, hrest⟩ := pushRegisters_succ (hc 0 (Nat.succ_pos n)) h
    refine hone.cons hn (ih (by omega) (fun k hk => ?_) hrest)
    rw [hone.regs, Registers.setSp_sp, below_succ]
    exact hc (k + 1) (by omega)

/-! ### Popped registers -/

/-- From `s` to `t` the registers from `last` downwards were popped. -/
structure Restored (last : UInt8) (n : Nat) (s t : System Memory) : Prop where
  bus : t.bus = s.bus
  regs : ∃ pc, t.cpu.regs = { s.cpu.regs with er := t.cpu.regs.er, pc := pc }
  sp : t.cpu.regs.sp = s.cpu.regs.sp + (4 * n).toUInt32
  listed : ∀ k < n, Registers.cell (last - k.toUInt8) ≠ Registers.cell 7 →
    t.cpu.regs.readLong (last - k.toUInt8) = s.bus.longAt (above s.cpu.regs.sp k)
  others : ∀ c ≠ Registers.cell 7, (∀ k < n, Registers.cell (last - k.toUInt8) ≠ c) →
    t.cpu.regs.er.get c = s.cpu.regs.er.get c

/-- One register was popped. -/
private structure PoppedOne (last : UInt8) (s v : System Memory) : Prop where
  bus : v.bus = s.bus
  regs : v.cpu.regs = (s.cpu.regs.setSp (s.cpu.regs.sp + 4)).writeLong last (s.bus.longAt (above s.cpu.regs.sp 0))

private theorem popRegisters_succ (hc : coversStatus config (above s.cpu.regs.sp 0) 4 = false)
    (hroom : (above s.cpu.regs.sp 0).toNat + 4 ≤ s.bus.size) :
    ∃ v, popRegisters last (n + 1) config s = popRegisters (last - 1) n config v ∧ PoppedOne last s v := by
  rw [above_zero] at hc hroom
  have hpop := (pop32_memory hc).2 ⟨hroom, rfl, rfl⟩
  rw [popRegisters, bind_of_ok hpop, bind_of_ok (run_modifyRegs _)]
  refine ⟨_, rfl, rfl, ?_⟩
  rw [above_zero]

/-- The stack pointer moves up by a long, also where the long is its own. -/
private theorem PoppedOne.sp (h : PoppedOne last s u)
    (hself : Registers.cell last = Registers.cell 7 → s.bus.longAt (above s.cpu.regs.sp 0) = s.cpu.regs.sp + 4) :
    u.cpu.regs.sp = s.cpu.regs.sp + 4 := by
  rw [h.regs, Registers.sp_writeLong, Registers.setSp_sp]
  intro hcell
  rw [hself hcell, Registers.setSp_sp]

private theorem Restored.nil (last : UInt8) (s : System Memory) : Restored last 0 s s := by
  have hsp : s.cpu.regs.sp + (4 * 0).toUInt32 = s.cpu.regs.sp := UInt32.add_zero _
  exact ⟨rfl, ⟨_, rfl⟩, hsp.symm, fun _ hk => absurd hk (Nat.not_lt_zero _), fun _ _ _ => rfl⟩

/-- The first register is not loaded again. -/
private theorem PoppedOne.cons (h : PoppedOne last s u) (hn : n < 8) (hsp : u.cpu.regs.sp = s.cpu.regs.sp + 4)
    (hrest : Restored (last - 1) n u t) : Restored last (n + 1) s t := by
  have hlast : last - (0 : Nat).toUInt8 = last := UInt8.sub_zero last
  obtain ⟨hbus, ⟨pc, hregs⟩, hsp', hlisted, hothers⟩ := hrest
  refine ⟨hbus.trans h.bus, ⟨pc, ?_⟩, ?_, ?_, ?_⟩
  · rw [hregs, h.regs]
    rfl
  · rw [hsp', hsp, add_succ]
  · intro k hk hcell
    cases k with
    | zero =>
      rw [hlast] at hcell ⊢
      have hloaded : u.cpu.regs.readLong last = s.bus.longAt (above s.cpu.regs.sp 0) := by
        rw [h.regs, Registers.readLong_writeLong]
      exact (hothers _ hcell fun k hk => cell_count_down_ne last (by omega)).trans hloaded
    | succ k =>
      rw [count_down] at hcell ⊢
      rw [hlisted k (by omega) hcell, h.bus, hsp, above_succ]
  · intro c hc7 hne
    have hc : Registers.cell last ≠ c := hlast ▸ hne 0 (Nat.succ_pos n)
    rw [hothers c hc7 fun k hk => count_down last k ▸ hne (k + 1) (by omega), h.regs]
    exact (Registers.er_writeLong_of_ne _ hc).trans (Registers.er_writeLong_of_ne _ hc7.symm)

theorem popRegisters_memory (hn : n ≤ 8) (hc : ∀ k < n, coversStatus config (above s.cpu.regs.sp k) 4 = false)
    (hroom : ∀ k < n, (above s.cpu.regs.sp k).toNat + 4 ≤ s.bus.size)
    (hself : ∀ k < n, Registers.cell (last - k.toUInt8) = Registers.cell 7 →
      s.bus.longAt (above s.cpu.regs.sp k) = s.cpu.regs.sp + (4 * (k + 1)).toUInt32) :
    ∃ t, popRegisters last n config s = .ok () t ∧ Restored last n s t := by
  induction n generalizing last s with
  | zero => exact ⟨s, rfl, .nil last s⟩
  | succ n ih =>
    obtain ⟨v, heq, hone⟩ := @popRegisters_succ config s last n (hc 0 (Nat.succ_pos n)) (hroom 0 (Nat.succ_pos n))
    have hlast : last - (0 : Nat).toUInt8 = last := UInt8.sub_zero last
    have hsp := hone.sp fun hcell => hself 0 (Nat.succ_pos n) (hlast.symm ▸ hcell)
    -- what the other pops find is where it was before the first
    obtain ⟨t, ht, hrest⟩ : ∃ t, popRegisters (last - 1) n config v = .ok () t ∧ Restored (last - 1) n v t := by
      refine ih (by omega) (fun k hk => ?_) (fun k hk => ?_) fun k hk hcell => ?_
      · rw [hsp, above_succ]
        exact hc (k + 1) (by omega)
      · rw [hsp, above_succ, hone.bus]
        exact hroom (k + 1) (by omega)
      · rw [hsp, above_succ, hone.bus, add_succ]
        exact hself (k + 1) (by omega) (count_down last k ▸ hcell)
    exact ⟨t, heq.trans ht, hone.cons (by omega) hsp hrest⟩

/-! ### Lists that come back -/

/-- The registers that a list brings back, the stack pointer among them. -/
def Listed (first : UInt8) (n : Nat) (c : Fin 8) : Prop :=
  c = Registers.cell 7 ∨ ∃ k < n, Registers.cell (first + k.toUInt8) = c

/-- Some stored bytes and a pointer to them are as they were left. -/
structure Undisturbed (p : UInt8) (xs : List Stretch) (t t' : System Memory) : Prop where
  pointer : t'.cpu.regs.readLong p = t.cpu.regs.readLong p
  size : t'.bus.size = t.bus.size
  bytes : ∀ x ∈ xs, ∀ a, x.Holds a → t'.bus.get a = t.bus.get a

variable {t' : System Memory}

theorem Undisturbed.of_readied {p : UInt8} {xs : List Stretch} {b : System Memory} (h : Undisturbed p xs t t')
    (hb : Readied t' b) : Undisturbed p xs t b := by
  obtain ⟨hpointer, hsize, hbytes⟩ := h
  rw [← hb.memory] at hsize hbytes
  exact ⟨(hb.readLong p).trans hpointer, hsize, hbytes⟩

namespace Saved

/-- Where the program counter pointed does not matter to what was pushed. -/
private theorem of_readied {b v : System Memory} (h : Saved first n b v) (hb : Readied s b) (hregs : t.cpu.regs = v.cpu.regs)
    (hbus : t.bus = v.bus) : Saved first n s t := by
  obtain ⟨⟨pc, hr⟩, hsize, hroom, hlong, hkept⟩ := h
  obtain ⟨pc', hb'⟩ := hb.regs
  have hset : ∀ a id, (b.cpu.regs.setSp a).readLong id = (s.cpu.regs.setSp a).readLong id := fun a id => by
    rw [hb']
    rfl
  rw [hb.memory] at hsize hroom hkept
  rw [hb.sp] at hr hroom hlong hkept
  refine ⟨⟨pc, ?_⟩, hbus ▸ hsize, hroom, ?_, hbus ▸ hkept⟩
  · rw [hregs, hr, hb']
    rfl
  · intro k hk
    rw [hbus, hlong k hk, hset]

/-- The pointer stands where the last push left it. -/
private theorem pointer_eq (h : Saved first n s t) (hu : Undisturbed 7 (pushed s.cpu.regs.sp n) t t') :
    t'.cpu.regs.sp = s.cpu.regs.sp - (4 * n).toUInt32 := by
  obtain ⟨pc, hr⟩ := h.regs
  have hpointer : t'.cpu.regs.sp = t.cpu.regs.sp := hu.pointer
  rw [hpointer, hr]
  exact Registers.setSp_sp _ _

/-- The longs that are popped are those that were pushed, the last of them first. -/
private theorem above_eq (h : Saved first n s t) (hu : Undisturbed 7 (pushed s.cpu.regs.sp n) t t') {j k : Nat}
    (hjk : j + k + 1 = n) : above t'.cpu.regs.sp k = below s.cpu.regs.sp j := by
  subst hjk
  have heq : t'.cpu.regs.sp + (4 * k).toUInt32 = s.cpu.regs.sp - (4 * (j + 1)).toUInt32 := by
    rw [h.pointer_eq hu]
    apply UInt32.toNat_inj.1
    simp [UInt32.toNat_sub]
    omega
  exact congrArg Address.trunc heq

private theorem longAt_eq (h : Saved first n s t) (hu : Undisturbed 7 (pushed s.cpu.regs.sp n) t t') {j k : Nat}
    (hjk : j + k + 1 = n) : t'.bus.longAt (above t'.cpu.regs.sp k) =
      (s.cpu.regs.setSp (s.cpu.regs.sp - (4 * j).toUInt32)).readLong (first + j.toUInt8) := by
  rw [h.above_eq hu hjk, ← h.long j (by omega)]
  exact Memory.longAt_congr fun a ha => hu.bytes _ (mem_pushed.2 ⟨j, by omega, rfl⟩) a ha

/-- Counted from the last register downwards and from the first upwards. -/
private theorem last_sub {j k : Nat} (hjk : j + k + 1 = n) :
    first + n.toUInt8 - 1 - k.toUInt8 = first + j.toUInt8 := by
  subst hjk
  apply UInt8.toNat_inj.1
  simp [UInt8.toNat_sub]
  omega

theorem pops (h : Saved first n s t) (hn : n ≤ 8) (hu : Undisturbed 7 (pushed s.cpu.regs.sp n) t t')
    (hc : ∀ x ∈ pushed s.cpu.regs.sp n, coversStatus config x.start 4 = false) :
    ∃ u, popRegisters (first + n.toUInt8 - 1) n config t' = .ok () u ∧ Restored (first + n.toUInt8 - 1) n t' u := by
  have counted : ∀ k < n, n - 1 - k + k + 1 = n := fun k hk => by omega
  refine popRegisters_memory hn ?_ ?_ ?_
  · intro k hk
    rw [h.above_eq hu (counted k hk)]
    exact hc _ (mem_pushed.2 ⟨n - 1 - k, by omega, rfl⟩)
  · intro k hk
    rw [h.above_eq hu (counted k hk), hu.size, h.size]
    exact h.room _ (by omega)
  · -- the stack pointer was stored as it stood before its own push, which is where its pop leaves it
    intro k hk hcell
    have hread : (s.cpu.regs.setSp (s.cpu.regs.sp - (4 * (n - 1 - k)).toUInt32)).readLong (first + (n - 1 - k).toUInt8) =
        s.cpu.regs.sp - (4 * (n - 1 - k)).toUInt32 := by
      rw [last_sub (counted k hk)] at hcell
      unfold Registers.readLong
      simp only [hcell]
      exact Registers.setSp_sp _ _
    rw [h.longAt_eq hu (counted k hk), hread, h.pointer_eq hu]
    apply UInt32.toNat_inj.1
    simp [UInt32.toNat_sub]
    omega

theorem restores (h : Saved first n s t) (hu : Undisturbed 7 (pushed s.cpu.regs.sp n) t t')
    (hr : Restored (first + n.toUInt8 - 1) n t' u) (c : Fin 8) :
    (Listed first n c → u.cpu.regs.er.get c = s.cpu.regs.er.get c) ∧
      (¬Listed first n c → u.cpu.regs.er.get c = t'.cpu.regs.er.get c) := by
  constructor
  · -- also where the stack pointer was loaded, the pops that followed have counted it up
    have pointer : u.cpu.regs.er.get (Registers.cell 7) = s.cpu.regs.er.get (Registers.cell 7) := by
      have hsp := hr.sp
      rw [h.pointer_eq hu, UInt32.sub_add_cancel] at hsp
      exact hsp
    rintro (rfl | ⟨j, hj, rfl⟩)
    · exact pointer
    · by_cases h7 : Registers.cell (first + j.toUInt8) = Registers.cell 7
      · rw [h7]
        exact pointer
      · have counted : j + (n - 1 - j) + 1 = n := by omega
        have hlisted := hr.listed (n - 1 - j) (by omega)
        rw [last_sub counted, h.longAt_eq hu counted] at hlisted
        exact (hlisted h7).trans (Registers.er_writeLong_of_ne _ fun h => h7 h.symm)
  · intro hc
    refine hr.others c (fun h7 => hc (.inl h7)) fun k hk h => hc (.inr ⟨n - 1 - k, by omega, ?_⟩)
    rw [← last_sub (n := n) (k := k) (by omega), h]

end Saved

/-! ### Wherever they are executed -/

/-- Where the program counter pointed does not matter to what was popped. -/
private theorem Restored.of_readied {b v : System Memory} (h : Restored last n b v) (hb : Readied t' b)
    (hregs : u.cpu.regs = v.cpu.regs) (hbus : u.bus = v.bus) : Restored last n t' u := by
  obtain ⟨hsame, ⟨pc, hr⟩, hsp, hlisted, hothers⟩ := h
  obtain ⟨pc', hb'⟩ := hb.regs
  rw [hb.memory] at hsame hlisted
  rw [hb.sp] at hsp hlisted
  rw [hb'] at hr hothers
  rw [← hregs] at hr hsp hlisted hothers
  exact ⟨hbus.trans hsame, ⟨pc, hr⟩, hsp, hlisted, hothers⟩

theorem Executed.saved (h : Executed config (.stm first count) s t)
    (hc : ∀ x ∈ pushed s.cpu.regs.sp count.toNat, coversStatus config x.start 4 = false) :
    Saved first count.toNat s t ∧ Memory.StoredAt (pushed s.cpu.regs.sp count.toNat) s.bus t.bus := by
  have hn := count.toNat_lt
  obtain ⟨b, v, hb, hp, ht⟩ := h.performed
  have hregs : t.cpu.regs = v.cpu.regs := by
    rw [ht]
    rfl
  have hbus : t.bus = v.bus := by
    rw [ht]
    rfl
  have hsaved : Saved first count.toNat b v := pushRegisters_memory (by omega)
    (fun k hk => by
      rw [hb.sp]
      exact hc _ (mem_pushed.2 ⟨k, hk, rfl⟩)) hp
  refine ⟨hsaved.of_readied hb hregs hbus, ?_⟩
  rw [← hb.sp, ← hb.memory, hbus]
  exact perform_stored hp

/-- What was pushed is popped, wherever that is executed. -/
theorem Saved.loads (h : Saved first count.toNat s t) (hn : count.toNat ≤ 8)
    (hu : Undisturbed 7 (pushed s.cpu.regs.sp count.toNat) t t')
    (hc : ∀ x ∈ pushed s.cpu.regs.sp count.toNat, coversStatus config x.start 4 = false) :
    Ends config (.ldm (first + count - 1) count) t' ∧
      ∀ u, Executed config (.ldm (first + count - 1) count) t' u →
        Restored (first + count.toNat.toUInt8 - 1) count.toNat t' u := by
  have hlast : first + count.toNat.toUInt8 - 1 = first + count - 1 := by simp
  have pops : ∀ b, Readied t' b → ∃ v, perform (.ldm (first + count - 1) count) config b = .ok () v ∧
      Restored (first + count - 1) count.toNat b v := fun b hb => by
    rw [← hlast]
    exact h.pops hn (hu.of_readied hb) hc
  rw [hlast]
  obtain ⟨hends, hexecuted⟩ := executed_of_performs pops
  refine ⟨hends, fun u hl => ?_⟩
  obtain ⟨b, v, hb, hr, rfl⟩ := hexecuted u hl
  exact hr.of_readied hb rfl rfl

/-- Registers that are pushed as a list come back as a list, whatever was done between with the registers of the list and with
the memory beside them.  Only the longs below the stack pointer are stored to, and hold the registers as they were when they
were pushed. -/
theorem saved_restores (config : Config) {first count : UInt8} (hop : (Operation.stm first count).WellFormed)
    {s t : System Memory} (h : Executed config (.stm first count) s t)
    (hc : ∀ x ∈ pushed s.cpu.regs.sp count.toNat, coversStatus config x.start 4 = false) :
    Saved first count.toNat s t ∧ Memory.StoredAt (pushed s.cpu.regs.sp count.toNat) s.bus t.bus ∧
      ∀ t', Undisturbed 7 (pushed s.cpu.regs.sp count.toNat) t t' →
        Ends config (.ldm (first + count - 1) count) t' ∧
          ∀ u, Executed config (.ldm (first + count - 1) count) t' u →
            u.bus = t'.bus ∧ (∃ pc, u.cpu.regs = { t'.cpu.regs with er := u.cpu.regs.er, pc := pc }) ∧
              (∀ c, Listed first count.toNat c → u.cpu.regs.er.get c = s.cpu.regs.er.get c) ∧
              (∀ c, ¬Listed first count.toNat c → u.cpu.regs.er.get c = t'.cpu.regs.er.get c) ∧
              ((∀ c, ¬Listed first count.toNat c → t'.cpu.regs.er.get c = t.cpu.regs.er.get c) →
                u.cpu.regs.er = s.cpu.regs.er) := by
  obtain ⟨-, hcount, -⟩ := hop
  obtain ⟨hsaved, hstored⟩ := h.saved hc
  refine ⟨hsaved, hstored, fun t' hu => ?_⟩
  obtain ⟨hends, hloads⟩ := hsaved.loads (by omega) hu hc
  refine ⟨hends, fun u hl => ?_⟩
  have hr := hloads u hl
  have hback := hsaved.restores hu hr
  refine ⟨hr.bus, hr.regs, fun c => (hback c).1, fun c => (hback c).2, fun hunlisted => ?_⟩
  refine Vector.ext fun k hk => ?_
  by_cases hlisted : Listed first count.toNat ⟨k, hk⟩
  · exact (hback _).1 hlisted
  · obtain ⟨pc, hpushed⟩ := hsaved.regs
    rw [hpushed] at hunlisted
    have h7 : Registers.cell 7 ≠ ⟨k, hk⟩ := fun h => hlisted (.inl h.symm)
    exact ((hback _).2 hlisted).trans ((hunlisted _ hlisted).trans (Registers.er_writeLong_of_ne _ h7))

/-- A core with a value in the register before its stack pointer, which is odd. -/
def stacking : System Memory :=
  { cpu := { regs := (({} : Registers).writeLong 6 0x12345678).setSp 0x103 }, bus := { size := 0x200 } }

/-- The last two registers come back, the stack pointer among them, though the other was cleared between. -/
theorem saved_restores_stack_pointer :
    ∃ t u, Executed {} (.stm 6 2) stacking t ∧
      Executed {} (.ldm 7 2) { t with cpu := { t.cpu with regs := t.cpu.regs.writeLong 6 0 } } u ∧
      u.cpu.regs.er = stacking.cpu.regs.er := by
  obtain ⟨t, ht⟩ : ∃ t, execute ⟨0, .stm 6 2, []⟩ {} stacking = .ok () t := ⟨_, rfl⟩
  have h : Executed {} (.stm 6 2) stacking t := .alone _ rfl ht
  have hop : (Operation.stm 6 2).WellFormed := ⟨by decide, by decide, by decide⟩
  obtain ⟨-, -, hrestores⟩ := saved_restores {} hop h (by decide)
  have hpointer : (t.cpu.regs.writeLong 6 0).sp = t.cpu.regs.sp :=
    Registers.sp_writeLong fun h => absurd h (by decide)
  obtain ⟨hends, hback⟩ := hrestores { t with cpu := { t.cpu with regs := t.cpu.regs.writeLong 6 0 } }
    ⟨hpointer, rfl, fun _ _ _ _ => rfl⟩
  obtain ⟨u, hu⟩ := hends.alone ⟨0, .ldm 7 2, []⟩ rfl
  obtain ⟨-, -, -, -, hsame⟩ := hback u (.alone _ rfl hu)
  refine ⟨t, u, h, .alone _ rfl hu, hsame fun c hc => ?_⟩
  exact Registers.er_writeLong_of_ne 0 fun he => hc (.inr ⟨0, by decide, he⟩)

end CpuM

end H8S
