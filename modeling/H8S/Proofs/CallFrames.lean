import H8S.Proofs.Addresses
import H8S.Proofs.FlatMemory

/-!
# Frames of calls and exceptions

A call pushes its return address, and an exception pushes it with the condition codes above it.  On a flat memory an
entry writes this one long under the stack pointer (`Entry.pushes`), and the return of the same kind takes it back
(`Return.pops`).  So an entry and a return that find the long and the stack pointer as they should be go together
(`entry_return`), and by induction whole activities nest: `Nested` is the least relation that holds of what may happen
between entries and returns, is closed under putting an entry before and its return after, and is closed under
sequence.

The call depth counts entries and returns and nothing else.  What happens between an entry and its return brings it
back only if it enters as often as it returns.
-/

namespace H8S

/-- The two kinds of frames. -/
inductive FrameKind where
  | call
  | exception
  deriving DecidableEq

/-- The long that is pushed for a return address. -/
def FrameKind.long (kind : FrameKind) (ra : UInt32) (f : ConditionCodes) : UInt32 :=
  match kind with
  | .call => ra
  | .exception => ra ||| f.toByte.toUInt32 <<< 24

/-- Subroutine calls in all their forms. -/
def Operation.isCall : Operation → Bool
  | .bsr _ _ | .jsr _ => true
  | _ => false

namespace CpuM

variable {config : Config} {kind : FrameKind} {ra : UInt32} {s t u : System Memory}

/-- A step that enters a call or an exception, with its return address. -/
inductive Entry (config : Config) : FrameKind → UInt32 → System Memory → System Memory → Prop where
  | call {s t : System Memory} (i : Instruction) : i.op.isCall = true → CarriesOut config i s t →
      Entry config .call i.nextPc s t
  | trap {s t : System Memory} (i : Instruction) (n : UInt8) : i.op = .trapa n → CarriesOut config i s t →
      Entry config .exception i.nextPc s t
  | interrupt {s t : System Memory} (n : UInt8) (c : UInt32) : s.cpu.dueInterrupt? = some n → step config s = .ok c t →
      Entry config .exception s.cpu.regs.pc s t

/-- A step that returns from a call or an exception. -/
inductive Return (config : Config) : FrameKind → System Memory → System Memory → Prop where
  | rts {s t : System Memory} (i : Instruction) : i.op = .rts → CarriesOut config i s t → Return config .call s t
  | rte {s t : System Memory} (i : Instruction) : i.op = .rte → CarriesOut config i s t → Return config .exception s t

/-- Where the next frame is pushed. -/
def frameAddress (s : System Memory) : UInt32 := Address.trunc (s.cpu.regs.sp - 4)

private theorem frameAddress_add (s : System Memory) : (frameAddress s).toNat + 4 ≤ 2 ^ 32 := by
  have h := Address.trunc_lt (s.cpu.regs.sp - 4)
  unfold Address.spaceSize at h
  unfold frameAddress
  omega

/-- Entries are looked at from here: the program counter is even, the return address lies in the address space, and the
frame lies beside the status register. -/
structure Proper (config : Config) (ra : UInt32) (s : System Memory) : Prop where
  even : s.cpu.regs.pc.toNat % 2 = 0
  returns : ra.toNat < Address.spaceSize
  aside : coversStatus config (frameAddress s) 4 = false

/-- The call depth is in its range and can grow by `n`. -/
def DepthRoom (n : Nat) (s : System Memory) : Prop :=
  -2147483648 ≤ s.cpu.depth ∧ s.cpu.depth + n ≤ 2147483647

/-- A long was pushed and the depth has grown. -/
structure Pushed (value : UInt32) (s t : System Memory) : Prop where
  bus : t.bus = s.bus.storeLong (frameAddress s) value
  sp : t.cpu.regs.sp = s.cpu.regs.sp - 4
  depth : t.cpu.depth = min (s.cpu.depth + 1) 2147483647

/-! ### Entries -/

private theorem call_pushes {target : UInt32} (hc : coversStatus config (frameAddress s) 4 = false)
    (h : call target config s = .ok () t) : Pushed s.cpu.regs.pc s t := by
  unfold call at h
  rw [bind_of_ok run_getRegs] at h
  obtain ⟨_, v, hp, h⟩ := bind_ok.1 h
  cases h
  obtain ⟨-, rfl⟩ := (push32_memory hc).1 hp
  exact ⟨rfl, Registers.setSp_sp _ _, rfl⟩

private theorem trap_pushes {n : UInt8} (hc : coversStatus config (frameAddress s) 4 = false)
    (h : trap n config s = .ok () t) : Pushed (Cpu.frame s.cpu.regs) s t := by
  obtain ⟨syscr, target, s₁, s₂, s₃, h₁, h₂, h₃, rfl⟩ := trap_ok h
  have hcore := trap_core h₁ h₂ h₃
  simp only [coreView, Prod.mk.injEq] at hcore
  obtain ⟨hregs, -, hdepth, -⟩ := hcore
  obtain ⟨-, e₁⟩ := (write32_memory hc (frameAddress_add s)).1 h₁
  refine ⟨?bus, ?sp, ?depth⟩
  case bus =>
    have b₁ : s₁.bus = s.bus.storeLong (frameAddress s) (Cpu.frame s.cpu.regs) := congrArg System.bus e₁
    have b₂ : s₂.bus = s₁.bus := (read8_keeps_memory _).ok h₂
    have b₃ := (read32_keeps_memory _).ok h₃
    exact b₃.trans (b₂.trans b₁)
  case sp =>
    show s₃.cpu.regs.sp = _
    rw [hregs]
    exact Registers.setSp_sp _ _
  case depth =>
    show min (s₃.cpu.depth + 1) 2147483647 = _
    rw [hdepth]

private theorem interrupt_pushes {n : UInt8} (hc : coversStatus config (frameAddress s) 4 = false)
    (h : enterInterrupt n config s = .ok () t) : Pushed (Cpu.frame s.cpu.regs) s t := by
  obtain ⟨syscr, target, s₁, s₂, s₃, h₁, h₂, h₃, rfl⟩ := enterInterrupt_ok h
  have hcore := entry_core h₁ h₂ h₃
  simp only [coreView, Prod.mk.injEq] at hcore
  obtain ⟨hregs, -, hdepth, -⟩ := hcore
  obtain ⟨-, e₂⟩ := (write32_memory hc (frameAddress_add s)).1 h₂
  refine ⟨?bus, ?sp, ?depth⟩
  case bus =>
    have b₁ : s₁.bus = s.bus := (read8_keeps_memory _).ok h₁
    have b₂ : s₂.bus = s₁.bus.storeLong (frameAddress s) (Cpu.frame s.cpu.regs) := congrArg System.bus e₂
    have b₃ := (read32_keeps_memory _).ok h₃
    show s₃.bus = _
    rw [b₃, ← b₁]
    exact b₂
  case sp =>
    show s₃.cpu.regs.sp = _
    rw [hregs]
    exact Registers.setSp_sp _ _
  case depth =>
    show min (s₃.cpu.depth + 1) 2147483647 = _
    rw [hdepth]

private theorem jumpAddress_ok {target : JumpTarget} {addr : UInt32} (h : jumpAddress target config s = .ok addr t) :
    t.bus = s.bus ∧ t.cpu.regs = s.cpu.regs ∧ t.cpu.depth = s.cpu.depth := by
  cases target with
  | indirect p =>
    cases h
    exact ⟨rfl, rfl, rfl⟩
  | absolute addr =>
    cases h
    exact ⟨rfl, rfl, rfl⟩
  | stored a =>
    have k := (read32_keeps _).ok h
    simp only [readView, coreView, Prod.mk.injEq] at k
    exact ⟨(read32_keeps_memory _).ok h, k.1.1, k.1.2.2.1⟩

/-- Every way to carry out an instruction on a flat memory begins with the memory and the registers as they were. -/
private theorem begun_of_decode {i : Instruction} {f : System Memory}
    (h : Instruction.decode read8 s.cpu.regs.pc config s = .ok i f) :
    (f.begun config i).bus = s.bus ∧ (f.begun config i).cpu.regs = { s.cpu.regs with pc := i.nextPc } ∧
      (f.begun config i).cpu.depth = s.cpu.depth := by
  obtain ⟨-, -, hf⟩ := decode_ok h
  rw [System.begun_bus, System.begun_cpu, hf.memory, hf.cpu]
  exact ⟨rfl, rfl, rfl⟩

/-- Only the memory, the stack pointer and the depth before the push count. -/
private theorem Pushed.of_agree {s' : System Memory} {value : UInt32} (h : Pushed value s' t) (hb : s'.bus = s.bus)
    (hsp : s'.cpu.regs.sp = s.cpu.regs.sp) (hd : s'.cpu.depth = s.cpu.depth) : Pushed value s t := by
  obtain ⟨bus, sp, depth⟩ := h
  unfold frameAddress at bus
  rw [hb, hsp] at bus
  rw [hsp] at sp
  rw [hd] at depth
  exact ⟨bus, sp, depth⟩

private theorem Pushed.of_begun {i : Instruction} {f v : System Memory} {value : UInt32}
    (hd : Instruction.decode read8 s.cpu.regs.pc config s = .ok i f) (h : Pushed value (f.begun config i) v)
    (cycles : UInt64) : Pushed value s (v.spent cycles) := by
  obtain ⟨hb, hr, hdepth⟩ := begun_of_decode hd
  have hsp : (f.begun config i).cpu.regs.sp = s.cpu.regs.sp := by
    rw [hr]
    rfl
  obtain ⟨bus, sp, depth⟩ := h.of_agree hb hsp hdepth
  exact ⟨bus, sp, depth⟩

/-- An entry writes its long under the stack pointer and nothing else. -/
theorem Entry.pushes (h : Entry config kind ra s t) (hc : coversStatus config (frameAddress s) 4 = false) :
    Pushed (kind.long ra s.cpu.regs.ccr) s t := by
  have aside : ∀ {i : Instruction} {f : System Memory}, Instruction.decode read8 s.cpu.regs.pc config s = .ok i f →
      coversStatus config (frameAddress (f.begun config i)) 4 = false := by
    intro i f hd
    unfold frameAddress
    rw [(begun_of_decode hd).2.1]
    exact hc
  cases h with
  | call i hi hcarry =>
    obtain ⟨-, -, f, v, hd, hp, rfl⟩ := carriesOut_iff.1 hcarry
    have hpush : Pushed i.nextPc (f.begun config i) v := by
      unfold Operation.isCall at hi
      split at hi
      · next target wide hop =>
        rw [hop] at hp
        exact call_pushes (aside hd) hp
      · next target hop =>
        rw [hop] at hp
        obtain ⟨addr, w, hw, hp⟩ := bind_ok.1 hp
        obtain ⟨hb, hr, hdepth⟩ := jumpAddress_ok hw
        have hc' : coversStatus config (frameAddress w) 4 = false := by
          unfold frameAddress
          rw [hr]
          exact aside hd
        have hpush := call_pushes hc' hp
        rw [hr] at hpush
        exact hpush.of_agree hb (congrArg Registers.sp hr) hdepth
      · cases hi
    exact hpush.of_begun hd _
  | trap i n hop hcarry =>
    obtain ⟨-, -, f, v, hd, hp, rfl⟩ := carriesOut_iff.1 hcarry
    rw [hop] at hp
    have hpush := trap_pushes (aside hd) hp
    rw [(begun_of_decode hd).2.1] at hpush
    exact hpush.of_begun hd _
  | interrupt n c hdue hstep =>
    have h := (step_ok.1 hstep).1
    rw [advance_of_due hdue] at h
    exact interrupt_pushes hc h

/-! ### Returns -/

/-- A long was popped into the program counter, and the depth has shrunk. -/
structure Popped (kind : FrameKind) (s t : System Memory) : Prop where
  bus : t.bus = s.bus
  pc : t.cpu.regs.pc = Address.even (s.bus.longAt (Address.trunc s.cpu.regs.sp))
  sp : t.cpu.regs.sp = s.cpu.regs.sp + 4
  depth : t.cpu.depth = max (s.cpu.depth - 1) (-2147483648)
  ccr : t.cpu.regs.ccr =
    match kind with
    | .call => s.cpu.regs.ccr
    | .exception => .ofByte (s.bus.longAt (Address.trunc s.cpu.regs.sp) >>> 24).toUInt8

private theorem returnFromCall_pops (hc : coversStatus config (Address.trunc s.cpu.regs.sp) 4 = false)
    (h : returnFromCall config s = .ok () t) : Popped .call s t := by
  obtain ⟨frame, v, hp, h⟩ := bind_ok.1 h
  rw [bind_of_ok (run_jump frame)] at h
  cases h
  obtain ⟨-, rfl, rfl⟩ := (pop32_memory hc).1 hp
  exact ⟨rfl, rfl, Registers.setSp_sp _ _, rfl, rfl⟩

private theorem returnFromException_pops (hc : coversStatus config (Address.trunc s.cpu.regs.sp) 4 = false)
    (h : returnFromException config s = .ok () t) : Popped .exception s t := by
  obtain ⟨frame, v, hp, h⟩ := bind_ok.1 h
  rw [bind_of_ok (run_modifyRegs _), bind_of_ok (run_jump frame)] at h
  cases h
  obtain ⟨-, rfl, rfl⟩ := (pop32_memory hc).1 hp
  exact ⟨rfl, rfl, Registers.setSp_sp _ _, rfl, rfl⟩

private theorem Popped.of_begun {i : Instruction} {f v : System Memory}
    (hd : Instruction.decode read8 s.cpu.regs.pc config s = .ok i f) (h : Popped kind (f.begun config i) v)
    (cycles : UInt64) : Popped kind s (v.spent cycles) := by
  obtain ⟨hb, hr, hdepth⟩ := begun_of_decode hd
  have hsp : (f.begun config i).cpu.regs.sp = s.cpu.regs.sp := by
    rw [hr]
    rfl
  have hccr : (f.begun config i).cpu.regs.ccr = s.cpu.regs.ccr := by
    rw [hr]
  obtain ⟨bus, pc, sp, depth, ccr⟩ := h
  rw [hb] at bus
  rw [hb, hsp] at pc
  rw [hsp] at sp
  rw [hdepth] at depth
  rw [hccr, hb, hsp] at ccr
  exact ⟨bus, pc, sp, depth, ccr⟩

/-- A return takes its long from the stack pointer and changes nothing in memory. -/
theorem Return.pops (h : Return config kind s t)
    (hc : coversStatus config (Address.trunc s.cpu.regs.sp) 4 = false) : Popped kind s t := by
  have aside : ∀ {i : Instruction} {f : System Memory}, Instruction.decode read8 s.cpu.regs.pc config s = .ok i f →
      coversStatus config (Address.trunc (f.begun config i).cpu.regs.sp) 4 = false := by
    intro i f hd
    rw [(begun_of_decode hd).2.1]
    exact hc
  cases h with
  | rts i hop hcarry =>
    obtain ⟨-, -, f, v, hd, hp, rfl⟩ := carriesOut_iff.1 hcarry
    rw [hop] at hp
    exact (returnFromCall_pops (aside hd) hp).of_begun hd _
  | rte i hop hcarry =>
    obtain ⟨-, -, f, v, hd, hp, rfl⟩ := carriesOut_iff.1 hcarry
    rw [hop] at hp
    exact (returnFromException_pops (aside hd) hp).of_begun hd _

/-! ### Entries with their returns -/

private theorem Entry.returns_even (h : Entry config kind ra s t) (hp : Proper config ra s) : ra.toNat % 2 = 0 := by
  have next : ∀ i : Instruction, CarriesOut config i s t → i.nextPc.toNat % 2 = 0 := by
    intro i hcarry
    obtain ⟨f, hd⟩ := hcarry.decoded
    obtain ⟨ha, hw, -⟩ := decode_ok hd
    have he := Address.even_mod_two s.cpu.regs.pc
    have hl := Address.even_lt s.cpu.regs.pc
    rw [← ha] at he hl
    rw [hw.nextPc_toNat hl]
    have hlen := hw.1
    omega
  cases h with
  | call i _ hcarry => exact next i hcarry
  | trap i _ _ hcarry => exact next i hcarry
  | interrupt n c _ _ => exact hp.even

/-- What an entry has pushed, its return takes back, if in the meantime the long stayed as it was and the stack
pointer has come back to it. -/
theorem entry_return {t' : System Memory} (h : Entry config kind ra s t) (hp : Proper config ra s)
    (hlong : t'.bus.longAt (frameAddress s) = t.bus.longAt (frameAddress s))
    (hsp : t'.cpu.regs.sp = s.cpu.regs.sp - 4) (hr : Return config kind t' u) :
    u.bus = t'.bus ∧ u.cpu.regs.pc = ra ∧ u.cpu.regs.sp = s.cpu.regs.sp ∧
      u.cpu.depth = max (t'.cpu.depth - 1) (-2147483648) ∧
      u.cpu.regs.ccr = match kind with
        | .call => t'.cpu.regs.ccr
        | .exception => s.cpu.regs.ccr := by
  have hpush := h.pushes hp.aside
  have haddr : Address.trunc t'.cpu.regs.sp = frameAddress s := by
    rw [hsp]
    rfl
  obtain ⟨bus, pc, sp, depth, ccr⟩ := hr.pops (by rw [haddr]; exact hp.aside)
  -- the return finds the long that the entry has written
  have hval : t'.bus.longAt (frameAddress s) = kind.long ra s.cpu.regs.ccr := by
    rw [hlong, hpush.bus, Memory.longAt_storeLong]
  have heven := h.returns_even hp
  rw [haddr, hval] at pc ccr
  refine ⟨bus, ?_, ?_, depth, ?_⟩
  · rw [pc]
    cases kind with
    | call => exact Address.even_of_even heven hp.returns
    | exception => exact Address.even_packed _ hp.returns heven
  · rw [sp, hsp, UInt32.sub_add_cancel]
  · rw [ccr]
    cases kind with
    | call => rfl
    | exception =>
      simp only [FrameKind.long]
      rw [Address.packed_byte _ hp.returns, ConditionCodes.ofByte_toByte]

/-! ### Nesting -/

/-- Activities that nest at most `n` deep: what `between` allows, an entry and its return around an activity that
leaves the frame as it was, and one activity after another. -/
inductive Nested (config : Config) (between : System Memory → System Memory → Prop) :
    Nat → System Memory → System Memory → Prop where
  | between {n : Nat} {s t : System Memory} : between s t → Nested config between n s t
  | frame {n : Nat} {kind : FrameKind} {ra : UInt32} {s t t' u : System Memory} : Entry config kind ra s t →
      Proper config ra s → Nested config between n t t' →
      t'.bus.longAt (frameAddress s) = t.bus.longAt (frameAddress s) → Return config kind t' u →
      Nested config between (n + 1) s u
  | append {n : Nat} {s t u : System Memory} : Nested config between n s t → Nested config between n t u →
      Nested config between n s u

/-- Calls leave the condition codes alone. -/
private theorem call_ccr {target : UInt32} (h : call target config s = .ok () t) :
    t.cpu.regs.ccr = s.cpu.regs.ccr := by
  unfold call push32 at h
  simp only [bind_assoc] at h
  rw [bind_of_ok run_getRegs, bind_of_ok run_getRegs, bind_of_ok (run_modifyRegs _)] at h
  obtain ⟨_, v, hw, h⟩ := bind_ok.1 h
  cases h
  have hv : v.cpu.regs = s.cpu.regs.setSp (s.cpu.regs.sp - 4) := congrArg Prod.fst ((write32_keeps _ _).ok hw)
  show v.cpu.regs.ccr = _
  rw [hv]
  rfl

private theorem Entry.call_ccr (h : Entry config .call ra s t) : t.cpu.regs.ccr = s.cpu.regs.ccr := by
  cases h with
  | call i hi hcarry =>
    obtain ⟨-, -, f, v, hd, hp, rfl⟩ := carriesOut_iff.1 hcarry
    have hccr : (f.begun config i).cpu.regs.ccr = s.cpu.regs.ccr := by
      rw [(begun_of_decode hd).2.1]
    show v.cpu.regs.ccr = _
    rw [← hccr]
    unfold Operation.isCall at hi
    split at hi
    · next hop =>
      rw [hop] at hp
      exact CpuM.call_ccr hp
    · next hop =>
      rw [hop] at hp
      obtain ⟨addr, w, hw, hp⟩ := bind_ok.1 hp
      rw [CpuM.call_ccr hp, (jumpAddress_ok hw).2.1]
    · cases hi

section Nesting

variable {between : System Memory → System Memory → Prop} {n : Nat}
  (hsp : ∀ s t, between s t → t.cpu.regs.sp = s.cpu.regs.sp)

include hsp

/-- If nothing between entries and returns moves the stack pointer, then a nested activity does not. -/
theorem Nested.sp (h : Nested config between n s t) : t.cpu.regs.sp = s.cpu.regs.sp := by
  induction h with
  | between h => exact hsp _ _ h
  | frame h hp _ hlong hr ih =>
    obtain ⟨-, -, hu, -⟩ := entry_return h hp hlong (ih.trans (h.pushes hp.aside).sp) hr
    exact hu
  | append _ _ ih₁ ih₂ => exact ih₂.trans ih₁

/-- An entry and its return around a nested activity. -/
theorem Nested.frame_return {t' : System Memory} (h : Entry config kind ra s t) (hp : Proper config ra s)
    (hin : Nested config between n t t') (hlong : t'.bus.longAt (frameAddress s) = t.bus.longAt (frameAddress s))
    (hr : Return config kind t' u) :
    u.bus = t'.bus ∧ u.cpu.regs.pc = ra ∧ u.cpu.regs.sp = s.cpu.regs.sp ∧
      u.cpu.depth = max (t'.cpu.depth - 1) (-2147483648) ∧
      u.cpu.regs.ccr = match kind with
        | .call => t'.cpu.regs.ccr
        | .exception => s.cpu.regs.ccr := by
  have hback : t'.cpu.regs.sp = s.cpu.regs.sp - 4 := (hin.sp hsp).trans (h.pushes hp.aside).sp
  exact entry_return h hp hlong hback hr

/-- If nothing between entries and returns changes the call depth, then a nested activity does not, as long as all its
entries can be counted. -/
theorem Nested.depth (hdepth : ∀ s t, between s t → t.cpu.depth = s.cpu.depth) (h : Nested config between n s t)
    (hroom : DepthRoom n s) : t.cpu.depth = s.cpu.depth := by
  induction h with
  | between h => exact hdepth _ _ h
  | @frame n kind ra s t t' u h hp hin hlong hr ih =>
    obtain ⟨hlo, hhi⟩ := hroom
    have ht : t.cpu.depth = s.cpu.depth + 1 := by
      rw [(h.pushes hp.aside).depth]
      omega
    have ht' : t'.cpu.depth = t.cpu.depth := by
      apply ih
      constructor <;> omega
    obtain ⟨-, -, -, hu, -⟩ := hin.frame_return hsp h hp hlong hr
    rw [hu, ht', ht]
    omega
  | @append n s t u _ _ ih₁ ih₂ =>
    have ht := ih₁ hroom
    have hroom' : DepthRoom n t := by
      unfold DepthRoom
      rw [ht]
      exact hroom
    exact (ih₂ hroom').trans ht

/-- If nothing between entries and returns changes the condition codes, then a nested activity does not. -/
theorem Nested.ccr (hccr : ∀ s t, between s t → t.cpu.regs.ccr = s.cpu.regs.ccr) (h : Nested config between n s t) :
    t.cpu.regs.ccr = s.cpu.regs.ccr := by
  induction h with
  | between h => exact hccr _ _ h
  | @frame n kind ra s t t' u h hp hin hlong hr ih =>
    obtain ⟨-, -, -, -, hu⟩ := hin.frame_return hsp h hp hlong hr
    rw [hu]
    -- a call and its return leave the codes alone, an exception finds its own in the frame
    cases kind with
    | call => exact ih.trans h.call_ccr
    | exception => rfl
  | append _ _ ih₁ ih₂ => exact ih₂.trans ih₁

end Nesting

/-! ### Frames that stay as they are -/

/-- The frame that lies `j` frames above the stack pointer. -/
def openFrame (s : System Memory) (j : Nat) : UInt32 := Address.trunc (s.cpu.regs.sp + (4 * j).toUInt32)

/-- The stack pointer and the `k` frames above it are as before. -/
def Intact (k : Nat) (s t : System Memory) : Prop :=
  t.cpu.regs.sp = s.cpu.regs.sp ∧ ∀ j, j < k → t.bus.longAt (openFrame s j) = s.bus.longAt (openFrame s j)

/-- Activities that nest on a stack of at most `2 ^ 22` frames, with `k` of them open; nothing is asked of the frames
but that what happens between entries and returns, which may depend on `k`, leaves the open ones alone. -/
inductive Stacked (config : Config) (between : Nat → System Memory → System Memory → Prop) :
    Nat → System Memory → System Memory → Prop where
  | between {k : Nat} {s t : System Memory} : between k s t → Stacked config between k s t
  | frame {k : Nat} {kind : FrameKind} {ra : UInt32} {s t t' u : System Memory} : k < 2 ^ 22 →
      Entry config kind ra s t → Proper config ra s → Stacked config between (k + 1) t t' → Return config kind t' u →
      Stacked config between k s u
  | append {k : Nat} {s t u : System Memory} : Stacked config between k s t → Stacked config between k t u →
      Stacked config between k s u

private theorem openFrame_add (s : System Memory) (j : Nat) : (openFrame s j).toNat + 4 ≤ 2 ^ 32 := by
  have h := Address.trunc_lt (s.cpu.regs.sp + (4 * j).toUInt32)
  unfold Address.spaceSize at h
  unfold openFrame
  omega

/-- The next frame lies beside the open ones, as the stack does not go around the address space. -/
private theorem frameAddress_apart {k j : Nat} (hk : k < 2 ^ 22) (hj : j < k) :
    Memory.Apart (frameAddress s) (openFrame s j) := by
  have hp := s.cpu.regs.sp.toNat_lt
  unfold Memory.Apart frameAddress openFrame
  rw [Address.trunc_toNat, Address.trunc_toNat, UInt32.toNat_sub, UInt32.toNat_add]
  unfold Address.spaceSize at *
  have h4 : (4 : UInt32).toNat = 4 := rfl
  have hj4 : (4 * j).toUInt32.toNat = 4 * j := by
    simp
    omega
  rw [h4, hj4]
  omega

private theorem openFrame_of_pushed {value : UInt32} (h : Pushed value s t) (j : Nat) :
    openFrame t 0 = frameAddress s ∧ openFrame t (j + 1) = openFrame s j := by
  unfold openFrame frameAddress
  rw [h.sp]
  constructor
  · simp
  · congr 1
    have e : (4 * (j + 1)).toUInt32 = 4 + (4 * j).toUInt32 := by
      apply UInt32.toNat_inj.1
      simp
      omega
    rw [e, ← UInt32.add_assoc, UInt32.sub_add_cancel]

/-- On the stack entries cannot hurt each other's longs, so that activities on it nest. -/
theorem Stacked.intact {between : Nat → System Memory → System Memory → Prop} {k : Nat}
    (hb : ∀ k s t, between k s t → Intact k s t) (h : Stacked config between k s t) :
    Intact k s t ∧ Nested config (fun s t => ∃ k, between k s t) (2 ^ 22 - k) s t := by
  have hsp : ∀ s t, (∃ k, between k s t) → t.cpu.regs.sp = s.cpu.regs.sp := by
    rintro s t ⟨k, h⟩
    exact (hb k s t h).1
  induction h with
  | between h => exact ⟨hb _ _ _ h, .between ⟨_, h⟩⟩
  | @frame k kind ra s t t' u hk h hp _ hr ih =>
    obtain ⟨⟨-, hopen⟩, hnested⟩ := ih
    have hpush := h.pushes hp.aside
    -- inside, the frame of the entry is the first of the open ones
    have hlong : t'.bus.longAt (frameAddress s) = t.bus.longAt (frameAddress s) := by
      have h₀ := hopen 0 (by omega)
      rw [(openFrame_of_pushed hpush 0).1] at h₀
      exact h₀
    obtain ⟨hbus, -, hback, -⟩ := hnested.frame_return hsp h hp hlong hr
    have hheight : 2 ^ 22 - k = 2 ^ 22 - (k + 1) + 1 := by omega
    rw [hheight]
    refine ⟨⟨hback, ?_⟩, .frame h hp hnested hlong hr⟩
    intro j hj
    -- the frame `j` outside is the frame `j + 1` inside, and the entry has written beside it
    have hj' := hopen (j + 1) (by omega)
    rw [(openFrame_of_pushed hpush j).2] at hj'
    rw [hbus, hj', hpush.bus]
    exact Memory.longAt_storeLong_of_apart _ (frameAddress_add s) (openFrame_add s j) (frameAddress_apart hk hj)
  | @append k s t u _ _ ih₁ ih₂ =>
    obtain ⟨⟨hsp₁, ho₁⟩, hn₁⟩ := ih₁
    obtain ⟨⟨hsp₂, ho₂⟩, hn₂⟩ := ih₂
    refine ⟨⟨hsp₂.trans hsp₁, ?_⟩, .append hn₁ hn₂⟩
    intro j hj
    have e : openFrame t j = openFrame s j := by
      unfold openFrame
      rw [hsp₁]
    rw [← ho₁ j hj, ← e]
    exact ho₂ j hj

/-! ### The whole -/

/-- Calls and exceptions nest.  An entry pushes one long, which any return of its kind takes back that finds it and
the stack pointer as the entry left them; the call depth after the return is one less than before it.  Nested
activities keep the stack pointer and, within its range, the call depth, and their frames give back the return address
and the condition codes; on a stack of at most `2 ^ 22` frames the entries cannot hurt each other's longs. -/
theorem frames_nest (config : Config) :
    (∀ {kind : FrameKind} {ra : UInt32} {s t : System Memory}, Entry config kind ra s t → Proper config ra s →
      t.bus = s.bus.storeLong (frameAddress s) (kind.long ra s.cpu.regs.ccr) ∧
      t.cpu.regs.sp = s.cpu.regs.sp - 4 ∧ t.cpu.depth = min (s.cpu.depth + 1) 2147483647 ∧
      ∀ {t' u : System Memory}, t'.bus.longAt (frameAddress s) = t.bus.longAt (frameAddress s) →
        t'.cpu.regs.sp = s.cpu.regs.sp - 4 → Return config kind t' u →
        u.bus = t'.bus ∧ u.cpu.regs.pc = ra ∧ u.cpu.regs.sp = s.cpu.regs.sp ∧
        (kind = .exception → u.cpu.regs.ccr = s.cpu.regs.ccr) ∧
        u.cpu.depth = max (t'.cpu.depth - 1) (-2147483648) ∧
        (DepthRoom 1 s → t'.cpu.depth = t.cpu.depth → u.cpu.depth = s.cpu.depth)) ∧
    (∀ between : System Memory → System Memory → Prop, (∀ s t, between s t → t.cpu.regs.sp = s.cpu.regs.sp) →
      (∀ n s t, Nested config between n s t → t.cpu.regs.sp = s.cpu.regs.sp ∧
        ((∀ s t, between s t → t.cpu.regs.ccr = s.cpu.regs.ccr) → t.cpu.regs.ccr = s.cpu.regs.ccr) ∧
        ((∀ s t, between s t → t.cpu.depth = s.cpu.depth) → DepthRoom n s → t.cpu.depth = s.cpu.depth)) ∧
      ∀ {n : Nat} {kind : FrameKind} {ra : UInt32} {s t t' u : System Memory}, Entry config kind ra s t →
        Proper config ra s → Nested config between n t t' →
        t'.bus.longAt (frameAddress s) = t.bus.longAt (frameAddress s) → Return config kind t' u →
        u.cpu.regs.pc = ra ∧ u.cpu.regs.sp = s.cpu.regs.sp ∧
        (kind = .exception ∨ (∀ s t, between s t → t.cpu.regs.ccr = s.cpu.regs.ccr) →
          u.cpu.regs.ccr = s.cpu.regs.ccr) ∧
        ((∀ s t, between s t → t.cpu.depth = s.cpu.depth) → DepthRoom (n + 1) s → u.cpu.depth = s.cpu.depth)) ∧
    ∀ between : Nat → System Memory → System Memory → Prop, (∀ k s t, between k s t → Intact k s t) →
      ∀ k s t, Stacked config between k s t →
        Intact k s t ∧ Nested config (fun s t => ∃ k, between k s t) (2 ^ 22 - k) s t := by
  refine ⟨?entry, ?nested, ?stacked⟩
  case entry =>
    intro kind ra s t h hp
    have hpush := h.pushes hp.aside
    refine ⟨hpush.bus, hpush.sp, hpush.depth, ?_⟩
    intro t' u hlong hsp hr
    obtain ⟨hbus, hpc, hsp', hd, hccr⟩ := entry_return h hp hlong hsp hr
    refine ⟨hbus, hpc, hsp', ?_, hd, ?_⟩
    · rintro rfl
      exact hccr
    · rintro ⟨hlo, hhi⟩ hlevel
      rw [hd, hlevel, hpush.depth]
      omega
  case nested =>
    intro between hsp
    refine ⟨?all, ?frame⟩
    case all =>
      intro n s t h
      refine ⟨h.sp hsp, ?_, ?_⟩
      · intro hccr
        exact h.ccr hsp hccr
      · intro hdepth hroom
        exact h.depth hsp hdepth hroom
    case frame =>
      intro n kind ra s t t' u h hp hin hlong hr
      have hframe := Nested.frame h hp hin hlong hr
      obtain ⟨-, hpc, hsp', -, hu⟩ := hin.frame_return hsp h hp hlong hr
      refine ⟨hpc, hsp', ?_, ?_⟩
      · rintro (rfl | hccr)
        · exact hu
        · exact hframe.ccr hsp hccr
      · intro hdepth hroom
        exact hframe.depth hsp hdepth hroom
  case stacked =>
    intro between hb k s t h
    exact h.intact hb

/-! ### Runs on a small memory -/

private theorem call_still {target : UInt32} {r : Registers} {m : Memory} {p : InterruptSet} {d : Int}
    (hs : still s = (r, p, false, d, m)) (hc : coversStatus config (Address.trunc (r.sp - 4)) 4 = false)
    (hin : (Address.trunc (r.sp - 4)).toNat + 4 ≤ m.size) :
    ∃ t, call target config s = .ok () t ∧ still t = ({ r.setSp (r.sp - 4) with pc := Address.even target }, p, false,
      min (d + 1) 2147483647, m.storeLong (Address.trunc (r.sp - 4)) r.pc) := by
  unfold still at hs
  simp only [Prod.mk.injEq] at hs
  obtain ⟨rfl, rfl, ha, rfl, rfl⟩ := hs
  have hpush : push32 s.cpu.regs.pc config s = .ok () _ := (push32_memory hc).2 ⟨hin, rfl⟩
  refine ⟨_, (bind_of_ok run_getRegs).trans (bind_of_ok hpush), ?_⟩
  show (_, s.cpu.pending, s.cpu.sleeping, _, _) = _
  rw [ha]
  rfl

private theorem returnFromCall_still {r : Registers} {m : Memory} {p : InterruptSet} {d : Int}
    (hs : still s = (r, p, false, d, m)) (hc : coversStatus config (Address.trunc r.sp) 4 = false)
    (hin : (Address.trunc r.sp).toNat + 4 ≤ m.size) (hra : m.longAt (Address.trunc r.sp) = ra) :
    ∃ t, returnFromCall config s = .ok () t ∧
      still t = ({ r.setSp (r.sp + 4) with pc := Address.even ra }, p, false, max (d - 1) (-2147483648), m) := by
  unfold still at hs
  simp only [Prod.mk.injEq] at hs
  subst hra
  obtain ⟨rfl, rfl, ha, rfl, rfl⟩ := hs
  have hpop := (pop32_memory hc).2 ⟨hin, rfl, rfl⟩
  refine ⟨_, bind_of_ok hpop, ?_⟩
  show (_, s.cpu.pending, s.cpu.sleeping, _, _) = _
  rw [ha]
  rfl

/-- Moves the stack pointer past a frame. -/
private theorem addSp_still {r : Registers} {m : Memory} {p : InterruptSet} {d : Int}
    (hs : still s = (r, p, false, d, m)) :
    ∃ t, perform (.adds 4 7) config s = .ok () t ∧ still t = (r.setSp (r.sp + 4), p, false, d, m) := by
  unfold still at hs
  simp only [Prod.mk.injEq] at hs
  obtain ⟨rfl, rfl, ha, rfl, rfl⟩ := hs
  refine ⟨_, rfl, ?_⟩
  show (_, s.cpu.pending, s.cpu.sleeping, _, _) = _
  rw [ha]
  rfl

/-- Registers of which the stack pointer and the program counter are set. -/
def regsAt (sp pc : UInt32) : Registers := { er := (Vector.replicate 8 0).set 7 sp, pc }

/-- Some code at `0x100`, and the stack at `0x1000`. -/
def started (bytes : List UInt8) : System Memory where
  cpu := { regs := regsAt 0x1000 0x100 }
  bus := ({ size := 0x10000 } : Memory).storeAll 0x100 bytes

theorem started_code {bytes : List UInt8} (hisr : config.isrAddress = some 0xFFFFF6) (h : bytes.length ≤ 0xE00) :
    Code config (started bytes).bus 0x100 bytes := by
  have hs : (0x100 : UInt32).toNat = 0x100 := rfl
  refine code_storeAll (by omega) ?_ ?_
  · show _ ≤ 0x10000
    omega
  · intro isr hi
    have : isr.toNat = 0xFFFFF6 := congrArg UInt32.toNat (Option.some.inj (hi.symm.trans hisr))
    omega

/-- A call of the return that follows it, looked at as one frame and as a stack of it. -/
theorem frames_nest_around_call :
    ∃ t u, Entry {} .call 0x102 (started [0x55, 0x00, 0x54, 0x70]) t ∧ Return {} .call t u ∧
      Stacked {} (fun _ s t => t = s) 0 (started [0x55, 0x00, 0x54, 0x70]) u ∧
      u.cpu.regs.pc = 0x102 ∧ u.cpu.regs.sp = 0x1000 ∧ u.cpu.regs.ccr = {} ∧ u.cpu.depth = 0 := by
  let s := started [0x55, 0x00, 0x54, 0x70]
  let m₁ := s.bus.storeLong 0xFFC 0x102
  have hcode : Code {} s.bus 0x100 [0x55, 0x00, 0x54, 0x70] := started_code rfl (by decide)
  have hcode₁ := hcode.storeLong 0xFFC 0x102 (by decide) (by decide) (by decide)
  have hs : still s = (regsAt 0x1000 0x100, {}, false, 0, s.bus) := rfl
  have hbsr : Code {} s.bus 0x100 [0x55, 0x00] := hcode.part [] [0x54, 0x70] (by decide) (by decide)
  have hrts : Code {} m₁ 0x102 [0x54, 0x70] := hcode₁.part [0x55, 0x00] [] (by decide) (by decide)
  obtain ⟨t, h₁, ht⟩ := carriesOut_of_code (regsAt 0xFFC 0x102, {}, false, 1, m₁) hs
    (dueInterrupt?_of_still hs) hbsr rfl fun b hb => call_still hb rfl (by decide)
  obtain ⟨u, h₂, -⟩ := carriesOut_of_code (regsAt 0x1000 0x102, {}, false, 0, m₁) ht
    (dueInterrupt?_of_still ht) hrts rfl
    fun b hb => returnFromCall_still hb rfl (by decide) (Memory.longAt_storeLong _ _ _)
  have hentry : Entry {} .call 0x102 s t := .call _ rfl h₁
  have hreturn : Return {} .call t u := .rts _ rfl h₂
  have hproper : Proper {} 0x102 (started [0x55, 0x00, 0x54, 0x70]) := ⟨rfl, by decide, rfl⟩
  obtain ⟨hone, hnested, hstack⟩ := frames_nest {}
  obtain ⟨-, hsp, -, hret⟩ := hone hentry hproper
  obtain ⟨-, hpc, hsp', -⟩ := hret rfl hsp hreturn
  have hframe : Stacked {} (fun _ s t => t = s) 0 s u := .frame (by decide) hentry hproper (.between rfl) hreturn
  obtain ⟨-, hin⟩ := hstack _ (fun k s t e => by subst e; exact ⟨rfl, fun _ _ => rfl⟩) 0 s u hframe
  obtain ⟨-, hccr, hdepth⟩ := (hnested _ (by rintro s t ⟨-, rfl⟩; rfl)).1 _ _ _ hin
  have hroom : DepthRoom (2 ^ 22 - 0) s := ⟨by decide, by decide⟩
  exact ⟨t, u, hentry, hreturn, hframe, hpc, hsp', hccr (by rintro s t ⟨-, rfl⟩; rfl),
    hdepth (by rintro s t ⟨-, rfl⟩; rfl) hroom⟩

/-- Two calls of what follows them, the second of which loses its frame, and the return from the first: the long and
the stack pointer are as the return needs them, and the depth counts the lost frame still. -/
theorem depth_of_lost_frame :
    ∃ (i j : Instruction) (t v t' u : System Memory),
      let s := started [0x55, 0x00, 0x55, 0x00, 0x0B, 0x97, 0x54, 0x70]
      Entry {} .call 0x102 s t ∧ Proper {} 0x102 s ∧ CarriesOut {} i t v ∧ CarriesOut {} j v t' ∧
      t'.bus.longAt (frameAddress s) = t.bus.longAt (frameAddress s) ∧ t'.cpu.regs.sp = s.cpu.regs.sp - 4 ∧
      Return {} .call t' u ∧ u.cpu.regs.pc = 0x102 ∧ s.cpu.depth = 0 ∧ u.cpu.depth = 1 := by
  let m := (started [0x55, 0x00, 0x55, 0x00, 0x0B, 0x97, 0x54, 0x70]).bus
  let m₁ := m.storeLong 0xFFC 0x102
  let m₂ := m₁.storeLong 0xFF8 0x104
  have hcode : Code {} m 0x100 [0x55, 0x00, 0x55, 0x00, 0x0B, 0x97, 0x54, 0x70] := started_code rfl (by decide)
  have hcode₁ := hcode.storeLong 0xFFC 0x102 (by decide) (by decide) (by decide)
  have hcode₂ := hcode₁.storeLong 0xFF8 0x104 (by decide) (by decide) (by decide)
  have hs : still (started [0x55, 0x00, 0x55, 0x00, 0x0B, 0x97, 0x54, 0x70]) =
    (regsAt 0x1000 0x100, {}, false, 0, m) := rfl
  have hfirst : Code {} m 0x100 [0x55, 0x00] :=
    hcode.part [] [0x55, 0x00, 0x0B, 0x97, 0x54, 0x70] (by decide) (by decide)
  have hsecond : Code {} m₁ 0x102 [0x55, 0x00] :=
    hcode₁.part [0x55, 0x00] [0x0B, 0x97, 0x54, 0x70] (by decide) (by decide)
  have hadds : Code {} m₂ 0x104 [0x0B, 0x97] :=
    hcode₂.part [0x55, 0x00, 0x55, 0x00] [0x54, 0x70] (by decide) (by decide)
  have hrts : Code {} m₂ 0x106 [0x54, 0x70] :=
    hcode₂.part [0x55, 0x00, 0x55, 0x00, 0x0B, 0x97] [] (by decide) (by decide)
  have hkept : m₂.longAt 0xFFC = m₁.longAt 0xFFC :=
    Memory.longAt_storeLong_of_apart _ (by decide) (by decide) (.inl (by decide))
  obtain ⟨t, h₁, ht⟩ := carriesOut_of_code (regsAt 0xFFC 0x102, {}, false, 1, m₁) hs
    (dueInterrupt?_of_still hs) hfirst rfl fun b hb => call_still hb rfl (by decide)
  obtain ⟨v, h₂, hv⟩ := carriesOut_of_code (regsAt 0xFF8 0x104, {}, false, 2, m₂) ht
    (dueInterrupt?_of_still ht) hsecond rfl fun b hb => call_still hb rfl (by decide)
  obtain ⟨t', h₃, ht'⟩ := carriesOut_of_code (regsAt 0xFFC 0x106, {}, false, 2, m₂) hv
    (dueInterrupt?_of_still hv) hadds rfl fun b hb => addSp_still hb
  obtain ⟨u, h₄, hu⟩ := carriesOut_of_code (regsAt 0x1000 0x102, {}, false, 1, m₂) ht'
    (dueInterrupt?_of_still ht') hrts rfl
    fun b hb => returnFromCall_still hb rfl (by decide) (hkept.trans (Memory.longAt_storeLong _ _ _))
  refine ⟨_, _, t, v, t', u, .call _ rfl h₁, ⟨rfl, by decide, rfl⟩, h₂, h₃, ?_, ?_,
    .rts _ rfl h₄, ?_, rfl, ?_⟩
  · have bt : t.bus = m₁ := congrArg (·.2.2.2.2) ht
    have bt' : t'.bus = m₂ := congrArg (·.2.2.2.2) ht'
    rw [bt, bt']
    exact hkept
  · exact congrArg (fun a => a.1.sp) ht'
  · exact congrArg (fun a => a.1.pc) hu
  · exact congrArg (fun a => a.2.2.2.1) hu

end CpuM

end H8S
