import H8S.Alu.Bit
import H8S.Proofs.ArithmeticFlags
import H8S.Proofs.LimbChains
import H8S.Proofs.WellFormedOperations

/-!
# Comparisons and branches

A comparison leaves the flags of a difference.  Its carry orders the numbers without signs, and its sign orders those with
signs unless the difference overflows, when the sign is the wrong one (`sign_of_difference`).  So each branch condition says
of the two operands what its name says (`holds_sub`).  `branch_after_compare` follows this through the encodings: a comparison
and a branch after it that can be fetched are decoded and end, and where the branch leads depends on the operands.
-/

namespace H8S

namespace Condition

open Alu

/-- What a condition says of the operands of a comparison, `a` being the destination and `b` the source. -/
def Compares (w : Width) (a b : UInt32) : Condition → Prop
  | always => True
  | never => False
  | hi => limb w b < limb w a
  | ls => limb w a ≤ limb w b
  | cc => limb w b ≤ limb w a
  | cs => limb w a < limb w b
  | ne => limb w a ≠ limb w b
  | eq => limb w a = limb w b
  | vc => Representable w (signed w a - signed w b)
  | vs => ¬Representable w (signed w a - signed w b)
  | pl => (a - b).toNat.testBit (w.bits.toNat - 1) = false
  | mi => (a - b).toNat.testBit (w.bits.toNat - 1) = true
  | ge => signed w b ≤ signed w a
  | lt => signed w a < signed w b
  | gt => signed w b < signed w a
  | le => signed w a ≤ signed w b

end Condition

namespace Alu

variable {w : Width} {a b : UInt32}

theorem signed_inj (w : Width) (a b : UInt32) : signed w a = signed w b ↔ limb w a = limb w b := by
  have ha := limb_lt w a
  have hb := limb_lt w b
  unfold signed
  split
  · split
    · omega
    · omega
  · split
    · omega
    · omega

/-- A difference that was cut to the width is exact, or wraps once. -/
private theorem exact_or_wraps {d : Nat} (hd : (d : Int) = ((limb w a : Int) - limb w b) % (2 * half w)) :
    d < 2 * half w ∧ ((d : Int) = limb w a - limb w b ∨ (d : Int) = limb w a - limb w b + 2 * half w) := by
  have ha := limb_lt w a
  have hb := limb_lt w b
  have hlt := Int.emod_lt_of_pos ((limb w a : Int) - limb w b) (b := 2 * half w) (by omega)
  refine ⟨by omega, ?_⟩
  rcases lt_or_ge (limb w a) (limb w b) with h | h
  · rw [← Int.add_emod_right, Int.emod_eq_of_lt (by omega) (by omega)] at hd
    exact .inr hd
  · rw [Int.emod_eq_of_lt (by omega) (by omega)] at hd
    exact .inl hd

/-- The sign of a difference is that of the exact difference, unless it overflows. -/
theorem sign_of_difference {d : Nat} (hd : (d : Int) = ((limb w a : Int) - limb w b) % (2 * half w)) :
    (decide (half w ≤ d) != !decide (Representable w (signed w a - signed w b))) = decide (signed w a < signed w b) := by
  have ha := limb_lt w a
  have hb := limb_lt w b
  obtain ⟨hlt, hvalue⟩ := exact_or_wraps hd
  have hagree : ∀ p q : Prop, ∀ [Decidable p] [Decidable q], (decide p != !decide q) = true ↔ (p ↔ q) := by
    intro p q _ _
    by_cases hp : p
    · simp [hp]
    · simp [hp]
  rw [Bool.eq_iff_iff, hagree, decide_eq_true_iff]
  unfold Representable signed
  split
  · split
    · omega
    · omega
  · split
    · omega
    · omega

/-- Two numbers differ by zero if they are the same. -/
theorem zero_of_difference {d : Nat} (hd : (d : Int) = ((limb w a : Int) - limb w b) % (2 * half w)) :
    d = 0 ↔ limb w a = limb w b := by
  have ha := limb_lt w a
  have hb := limb_lt w b
  obtain ⟨hlt, hvalue⟩ := exact_or_wraps hd
  omega

theorem limb_sub (w : Width) (a b : UInt32) :
    (limb w (a - b) : Int) = ((limb w a : Int) - limb w b) % (2 * half w) := by
  have ha := a.toNat_lt
  have hb := b.toNat_lt
  rw [limb_eq_mod, limb_eq_mod, limb_eq_mod, UInt32.toNat_sub]
  rcases half_cases w with h | h | h
  · rw [h]
    omega
  · rw [h]
    omega
  · rw [h]
    omega

/-- What the flags of a difference say of the operands. -/
theorem IsDifference.compares {f : ConditionCodes} {r : Result} (h : IsDifference w a b false false f r) :
    r.flags.c = decide (limb w a < limb w b) ∧ r.flags.z = decide (limb w a = limb w b) ∧
      r.flags.v = !decide (Representable w (signed w a - signed w b)) ∧
      r.flags.n = (a - b).toNat.testBit (w.bits.toNat - 1) ∧
      (r.flags.n != r.flags.v) = decide (signed w a < signed w b) := by
  have hvalue := h.value
  have hflags := h.flags
  simp only [Bool.toNat_false, Nat.cast_zero, Int.sub_zero, Nat.add_zero, Bool.false_and, Bool.false_eq_true,
    if_false] at hvalue hflags
  have hbits : (2 : Int) ^ w.bits.toNat = 2 * half w := by exact_mod_cast (two_mul_half w).symm
  rw [hbits] at hvalue
  have hfits : limb w r.value = r.value.toNat := by
    rw [limb_eq_mod]
    exact Nat.mod_eq_of_lt (exact_or_wraps hvalue).1
  have hn : r.flags.n = decide (half w ≤ r.value.toNat) := by
    rw [← hfits, topBit_eq]
    exact congrArg ConditionCodes.n hflags
  have hv := congrArg ConditionCodes.v hflags
  have hz := congrArg ConditionCodes.z hflags
  refine ⟨congrArg ConditionCodes.c hflags, hz.trans ?_, hv, ?_, ?_⟩
  · rw [Bool.eq_iff_iff, beq_iff_eq, decide_eq_true_iff, ← UInt32.toNat_inj, ← zero_of_difference hvalue]
    rfl
  · rw [hn, ← topBit_eq, decide_eq_decide]
    have := limb_sub w a b
    omega
  · rw [hn, hv]
    exact sign_of_difference hvalue

/-- After a comparison a condition holds if and only if the operands compare as it says. -/
theorem holds_sub (cond : Condition) (w : Width) (a b : UInt32) (f : ConditionCodes) :
    cond.holds (sub w a b false false f).flags = true ↔ cond.Compares w a b := by
  obtain ⟨hc, hz, hv, hn, hlt⟩ := (sub_isDifference w a b false false f).compares
  generalize (sub w a b false false f).flags = g at *
  have hge : (g.n == g.v) = !decide (signed w a < signed w b) := by
    rw [← hlt]
    cases g.n <;> cases g.v <;> rfl
  have heq := signed_inj w a b
  cases cond with
  | always => simp [Condition.holds, Condition.Compares]
  | never => simp [Condition.holds, Condition.Compares]
  | hi => simp [Condition.holds, Condition.Compares, hc, hz]; omega
  | ls => simp [Condition.holds, Condition.Compares, hc, hz]; omega
  | cc => simp [Condition.holds, Condition.Compares, hc]
  | cs => simp [Condition.holds, Condition.Compares, hc]
  | ne => simp [Condition.holds, Condition.Compares, hz]
  | eq => simp [Condition.holds, Condition.Compares, hz]
  | vc => simp [Condition.holds, Condition.Compares, hv]
  | vs => simp [Condition.holds, Condition.Compares, hv]
  | pl => simp [Condition.holds, Condition.Compares, hn]
  | mi => simp [Condition.holds, Condition.Compares, hn]
  | ge => simp [Condition.holds, Condition.Compares, hge]
  | lt => simp [Condition.holds, Condition.Compares, hlt]
  | gt => simp [Condition.holds, Condition.Compares, hge, hz]; omega
  | le => simp [Condition.holds, Condition.Compares, hlt, hz]; omega

end Alu

/-! ### Displacements -/

/-- Only the bits of the width count. -/
theorem Width.signExtend_congr {w : Width} {x y : UInt32} (h : x &&& w.mask = y &&& w.mask) :
    w.signExtend x = w.signExtend y := by
  unfold signExtend
  rw [h]

namespace Alu

/-- The bits above a limb add to it. -/
private theorem limb_or_mask (w : Width) (x : UInt32) :
    ((x &&& w.mask) ||| ~~~ w.mask).toNat = limb w x + (2 ^ 32 - 2 * half w) := by
  have hor : ∀ k m : Nat, limb w x < 2 ^ k → (~~~ w.mask).toNat = m * 2 ^ k →
      ((x &&& w.mask) ||| ~~~ w.mask).toNat = limb w x + m * 2 ^ k := by
    intro k m hlt hm
    rw [UInt32.toNat_or, hm, Nat.or_comm, ← Nat.shiftLeft_eq]
    show m <<< k ||| limb w x = _
    rw [← Nat.shiftLeft_add_eq_or_of_lt hlt, Nat.add_comm]
  have hx := limb_lt w x
  cases w with
  | byte => exact hor 8 16777215 hx rfl
  | word => exact hor 16 65535 hx rfl
  | long => exact hor 32 0 hx rfl

/-- Sign extension keeps the signed number. -/
theorem signExtend_toNat (w : Width) (x : UInt32) : ((w.signExtend x).toNat : Int) = signed w x % 2 ^ 32 := by
  have hsign : (x &&& w.mask) &&& w.signBit = 0 ↔ limb w x < half w := by
    have h := negative_eq_decide w (x &&& w.mask)
    rw [limb_mask, negative] at h
    rw [← Nat.not_le, ← decide_eq_false_iff_not, ← h]
    simp
  have hx := limb_lt w x
  have hhalf : half w ≤ 2 ^ 31 := by cases w <;> decide
  unfold Width.signExtend signed
  by_cases h : limb w x < half w
  · simp only [if_pos (hsign.2 h), if_neg (Nat.not_le.2 h)]
    show (limb w x : Int) = _ % 2 ^ 32
    exact (Int.emod_eq_of_lt (by omega) (by omega)).symm
  · simp only [if_neg (mt hsign.1 h), if_pos (Nat.not_lt.1 h), limb_or_mask]
    rw [← Int.add_emod_right, Int.emod_eq_of_lt (by omega) (by omega)]
    omega

end Alu

/-! ### Encodings -/

namespace Encoding

theorem byte_and_mask (v : UInt32) : v.toUInt8.toUInt32 &&& Width.byte.mask = v &&& Width.byte.mask := by
  apply UInt32.toNat_inj.1
  show Alu.limb .byte _ = Alu.limb .byte v
  rw [Alu.limb_eq_mod, Alu.limb_eq_mod]
  exact Nat.mod_mod_of_dvd v.toNat (Nat.dvd_refl _)

theorem word_and_mask (v : UInt32) :
    ((v >>> 8).toUInt8.toUInt32 <<< 8 ||| v.toUInt8.toUInt32) &&& Width.word.mask = v &&& Width.word.mask := by
  have hhalf : Alu.half .word = 32768 := rfl
  apply UInt32.toNat_inj.1
  show Alu.limb .word _ = Alu.limb .word v
  rw [Alu.limb_eq_mod, Alu.limb_eq_mod, word_toNat, hhalf]
  simp
  omega

/-- The width of the displacement of a branch. -/
def displacementWidth (wide : Bool) : Width := if wide then .word else .byte

def branchLen (wide : Bool) : UInt32 := if wide then 4 else 2

/-- A branch with a displacement, of which the bits that do not fit are lost. -/
def branchCode (cond : Condition) (wide : Bool) (disp : UInt32) : List UInt8 :=
  if wide then [0x58, halves (conditionCode cond) 0] ++ wordBytes disp else [halves 0x4 (conditionCode cond), disp.toUInt8]

theorem conditionCode_lt (cond : Condition) : conditionCode cond < 16 := by cases cond <;> decide

theorem ofCode_conditionCode (cond : Condition) : Condition.ofCode (conditionCode cond) = cond := by cases cond <;> rfl

end Encoding

namespace Decoding

open Encoding

variable {start : UInt32}

theorem feed_compareRegister {w : Width} {src dst : UInt8} (hsrc : src < w.views) (hdst : dst < w.views) :
    (operation start).feed (aluRegister .cmp w src dst) = some (done (.alu .cmp w (.reg src) dst)) := by
  cases w with
  | byte =>
    obtain ⟨hhi, hlo⟩ := halves_fields hsrc hdst
    show some (done (Operation.alu .cmp .byte (.reg (highNibble (halves src dst))) (lowNibble (halves src dst)))) = _
    rw [hhi, hlo]
  | word =>
    obtain ⟨hhi, hlo⟩ := halves_fields hsrc hdst
    show some (done (Operation.alu .cmp .word (.reg (highNibble (halves src dst))) (lowNibble (halves src dst)))) = _
    rw [hhi, hlo]
  | long =>
    obtain ⟨htop, hmark, hhi, hlo⟩ := longs_fields hsrc hdst
    show (byteOrLongs .das fun src dst => .alu .cmp .long (.reg src) dst).feed [0x80 ||| halves src dst] = _
    rw [byteOrLongs, feed_next, htop, longPair, hmark, hhi, hlo]
    rfl

theorem feed_compareImmediate {w : Width} {value : UInt32} {dst : UInt8} (hvalue : value ≤ w.mask) (hdst : dst < w.views) :
    (operation start).feed (Encoding.immediate w 0xA 2 value dst) = some (done (.alu .cmp w (.imm value) dst)) := by
  cases w with
  | byte =>
    obtain ⟨hhi, hlo⟩ := halves_fields (a := 0xA) (by decide) hdst
    rw [Encoding.immediate, operation, feed_next, hhi, hlo]
    show some (done (Operation.alu .cmp .byte (.imm value.toUInt8.toUInt32) dst)) = _
    rw [byte_of_mask hvalue]
  | word =>
    obtain ⟨hhi, hlo⟩ := halves_fields (a := 2) (by decide) hdst
    show (Decoding.immediate .word).feed (halves 2 dst :: wordBytes value) = _
    rw [Decoding.immediate, feed_next, hhi, hlo]
    show some (done (Operation.alu .cmp .word (.imm _) dst)) = _
    rw [word_of_mask hvalue]
  | long =>
    have hreg : dst < 8 := hdst
    obtain ⟨hhi, hlo⟩ := halves_fields (a := 2) (by decide) (UInt8.lt_trans hreg (by decide))
    show (Decoding.immediate .long).feed (halves 2 dst :: longBytes value) = _
    rw [Decoding.immediate, feed_next, hhi, hlo, feed_require (by simpa using hreg)]
    show some (done (Operation.alu .cmp .long (.imm _) dst)) = _
    rw [long_of_bytes]

theorem feed_branch (cond : Condition) (wide : Bool) (disp : UInt32) :
    (operation start).feed (branchCode cond wide disp) = some (done (.bcc cond
      (branchTarget start (branchLen wide) ((displacementWidth wide).signExtend disp)) wide)) := by
  cases wide with
  | false =>
    obtain ⟨hhi, hlo⟩ := halves_fields (a := 0x4) (by decide) (conditionCode_lt cond)
    show (operation start).feed [halves 0x4 (conditionCode cond), disp.toUInt8] = _
    rw [operation, feed_next, hhi, hlo]
    show some (done (Operation.bcc (.ofCode _) (branchTarget start 2 (Width.byte.signExtend _)) false)) = _
    rw [ofCode_conditionCode, Width.signExtend_congr (byte_and_mask disp)]
    rfl
  | true =>
    obtain ⟨hhi, hlo⟩ := halves_fields (conditionCode_lt cond) (b := 0) (by decide)
    show (page5 start 8).feed (halves (conditionCode cond) 0 :: wordBytes disp) = _
    simp only [page5]
    rw [feed_next, hhi, hlo, feed_require (c := (0 : UInt8) == 0) rfl]
    show some (done (Operation.bcc (.ofCode _) (branchTarget start 4 (Width.word.signExtend _)) true)) = _
    rw [ofCode_conditionCode, Width.signExtend_congr (word_and_mask disp)]
    rfl

/-- A branch leads from the end of its encoding as far as the displacement says, around the address space. -/
theorem branchTarget_toNat (start len disp : UInt32) (w : Width) :
    ((branchTarget start len (w.signExtend disp)).toNat : Int) =
      ((start + len).toNat + Alu.signed w disp) % Address.spaceSize := by
  have h := Alu.signExtend_toNat w disp
  rw [branchTarget, Address.trunc_toNat, UInt32.toNat_add]
  unfold Address.spaceSize
  omega

end Decoding

/-! ### Steps -/

namespace CpuM

open Alu Encoding

variable {β : Type} [Bus β] {config : Config} {s f : System β} {w : Width} {src : Operand} {dst : UInt8} {x : UInt32}

/-- A comparison that can be fetched ends, and leaves the flags of a difference. -/
theorem compare_ends (hformed : (Operation.alu .cmp w src dst).WellFormed) (hx : src.Holds s.cpu.regs w x)
    (hawake : s.cpu.sleeping = false) (hquiet : s.cpu.dueInterrupt? = none)
    (hf : Fetches config s (Address.even s.cpu.regs.pc) (aluOperands .cmp w dst src) f) :
    let i : Instruction := ⟨Address.even s.cpu.regs.pc, .alu .cmp w src dst, aluOperands .cmp w dst src⟩
    ∃ t, CarriesOut config i s t ∧ t.bus = f.bus ∧ t.cpu.sleeping = false ∧ t.cpu.dueInterrupt? = none ∧
      t.cpu.regs = { s.cpu.regs with
        pc := i.nextPc, ccr := (sub w (s.cpu.regs.read w dst) x false false s.cpu.regs.ccr).flags } := by
  intro i
  obtain ⟨g, hfeed, hp, hg⟩ : ∃ g : Registers → Registers,
      (Decoding.operation (Address.even s.cpu.regs.pc)).feed i.bytes = some (.done i.op) ∧
        (∀ b : System β, perform i.op config b = .ok () { b with cpu := { b.cpu with regs := g b.cpu.regs } }) ∧
        g { s.cpu.regs with pc := i.nextPc } = { s.cpu.regs with
          pc := i.nextPc, ccr := (sub w (s.cpu.regs.read w dst) x false false s.cpu.regs.ccr).flags } := by
    cases hx with
    | reg id =>
      exact ⟨fun r => r.alu .cmp w (r.read w id) dst, Decoding.feed_compareRegister hformed.1 hformed.2, fun _ => rfl,
        by cases w <;> rfl⟩
    | imm value =>
      exact ⟨fun r => r.alu .cmp w (value &&& w.mask) dst, Decoding.feed_compareImmediate hformed.1 hformed.2,
        fun _ => rfl, by cases w <;> rfl⟩
  obtain ⟨t, h, hbus⟩ := carriesOut_registers hawake hquiet hf hfeed hp
  have hcpu := h.registers hp
  rw [hg] at hcpu
  refine ⟨t, h, hbus, ?_, ?_, ?_⟩
  · rw [hcpu, hawake]
  · rw [hcpu]
    exact hquiet
  · rw [hcpu]

/-- A branch with a displacement is carried out: if it is taken it leads to the even address at the displacement from its own
end, and else past it. -/
structure Branches (config : Config) (cond : Condition) (wide : Bool) (disp : UInt32) (taken : Prop) (s : System β)
    (i : Instruction) (u : System β) : Prop where
  addr : i.addr = Address.even s.cpu.regs.pc
  bytes : i.bytes = branchCode cond wide disp
  ends : CarriesOut config i s u
  registers : u.cpu.regs = { s.cpu.regs with pc := u.cpu.regs.pc }
  target : taken → (u.cpu.regs.pc.toNat : Int) =
    (i.nextPc.toNat + signed (displacementWidth wide) disp) % Address.spaceSize / 2 * 2
  past : ¬taken → u.cpu.regs.pc = i.nextPc

/-- A branch that can be fetched ends, and is taken if its condition holds. -/
theorem branch_ends (cond : Condition) (wide : Bool) (disp : UInt32) (hawake : s.cpu.sleeping = false)
    (hquiet : s.cpu.dueInterrupt? = none)
    (hf : Fetches config s (Address.even s.cpu.regs.pc) (branchCode cond wide disp) f) :
    ∃ i u, Branches config cond wide disp (cond.holds s.cpu.regs.ccr = true) s i u ∧ u.bus = f.bus := by
  let start := Address.even s.cpu.regs.pc
  let target := Decoding.branchTarget start (branchLen wide) ((displacementWidth wide).signExtend disp)
  let i : Instruction := ⟨start, .bcc cond target wide, branchCode cond wide disp⟩
  let g : Registers → Registers := fun r => if cond.holds r.ccr then { r with pc := Address.even target } else r
  have hp : ∀ b : System β, perform i.op config b = .ok () { b with cpu := { b.cpu with regs := g b.cpu.regs } } := by
    intro b
    show (if cond.holds b.cpu.regs.ccr then jump target else pure () : CpuM β Unit) config b = _
    simp only [g]
    by_cases h : cond.holds b.cpu.regs.ccr = true
    · rw [if_pos h, if_pos h]
      rfl
    · rw [if_neg h, if_neg h]
      rfl
  have hnext : i.nextPc = start + branchLen wide := by cases wide <;> rfl
  obtain ⟨u, h, hbus⟩ := carriesOut_registers hawake hquiet hf (Decoding.feed_branch cond wide disp) hp
  have hregs : u.cpu.regs = g { s.cpu.regs with pc := i.nextPc } := congrArg Cpu.regs (h.registers hp)
  simp only [g] at hregs
  refine ⟨i, u, ⟨rfl, rfl, h, ?_, fun hholds => ?_, fun hholds => ?_⟩, hbus⟩
  · rw [hregs]
    split <;> rfl
  · have htarget := Decoding.branchTarget_toNat start (branchLen wide) disp (displacementWidth wide)
    have hlt : target.toNat < Address.spaceSize := Address.trunc_lt _
    rw [hregs, if_pos hholds, Address.even_toNat, hnext, Nat.mod_eq_of_lt hlt, ← htarget]
    rfl
  · rw [hregs, if_neg hholds]

/-- A comparison and a branch after it, wherever they lie and whatever flags they find.  Both end once they are fetched.  The
comparison changes no register but the flags, and the branch is taken if and only if the operands compare as its condition
says. -/
theorem branch_after_compare (hformed : (Operation.alu .cmp w src dst).WellFormed) (hx : src.Holds s.cpu.regs w x)
    (hawake : s.cpu.sleeping = false) (hquiet : s.cpu.dueInterrupt? = none)
    (hf : Fetches config s (Address.even s.cpu.regs.pc) (aluOperands .cmp w dst src) f) :
    let i : Instruction := ⟨Address.even s.cpu.regs.pc, .alu .cmp w src dst, aluOperands .cmp w dst src⟩
    ∃ t, CarriesOut config i s t ∧ t.bus = f.bus ∧
      t.cpu.regs = { s.cpu.regs with pc := i.nextPc, ccr := t.cpu.regs.ccr } ∧
      ∀ (cond : Condition) (wide : Bool) (disp : UInt32) (f' : System β),
        Fetches config t (Address.even t.cpu.regs.pc) (branchCode cond wide disp) f' →
          ∃ j u, Branches config cond wide disp (cond.Compares w (s.cpu.regs.read w dst) x) t j u ∧ u.bus = f'.bus := by
  intro i
  obtain ⟨t, h, hbus, hawake', hquiet', hregs⟩ := compare_ends hformed hx hawake hquiet hf
  refine ⟨t, h, hbus, ?_, fun cond wide disp f' hf' => ?_⟩
  · rw [hregs]
  · have hholds : cond.holds t.cpu.regs.ccr = true ↔ cond.Compares w (s.cpu.regs.read w dst) x := by
      rw [hregs]
      exact holds_sub cond w _ x _
    rw [← hholds]
    exact branch_ends cond wide disp hawake' hquiet' hf'

private def farApart : Registers where
  er := #v[0x80000000, 1, 0, 0, 0, 0, 0, 0]
  pc := 0x100

/-- `CMP.L ER1,ER0` and `BLT` find that the least signed long is less than one, though their difference is positive. -/
theorem branch_after_compare_of_least :
    ∃ (s t u : System Memory) (i j : Instruction), s.cpu.regs = farApart ∧ i.bytes = [0x1F, 0x90] ∧
      CarriesOut {} i s t ∧ j.bytes = [0x4D, 0x04] ∧ CarriesOut {} j t u ∧ u.cpu.regs.pc = 0x108 := by
  let m := ({ size := 0x200 } : Memory).storeAll 0x100 [0x1F, 0x90, 0x4D, 0x04]
  let s : System Memory := { cpu := { regs := farApart }, bus := m }
  have hcode : Code {} m 0x100 [0x1F, 0x90, 0x4D, 0x04] := code_storeAll (by decide) (by decide) fun isr hi => by
    have : isr.toNat = 0xFFFFF6 := congrArg UInt32.toNat (Option.some.inj hi).symm
    exact .inr (by rw [this]; decide)
  have hcompare : Code {} m 0x100 [0x1F, 0x90] := hcode.part [] [0x4D, 0x04] (by decide) (by decide)
  have hbranch : Code {} m 0x102 [0x4D, 0x04] := hcode.part [0x1F, 0x90] [] (by decide) (by decide)
  obtain ⟨f, hf⟩ := fetches_of_code (s := s) hcompare
  have hformed : (Operation.alu .cmp .long (.reg 1) 0).WellFormed := ⟨show (1 : UInt8) < 8 by decide, by decide⟩
  have hstart : Address.even s.cpu.regs.pc = 0x100 := by decide
  rw [← hstart] at hf
  obtain ⟨t, h, hbus, hregs, hafter⟩ := branch_after_compare (s := s) hformed (.reg 1) rfl rfl hf
  have hm : t.bus = m := hbus.trans hf.memory
  have hpc : Address.even t.cpu.regs.pc = 0x102 := by
    rw [hregs]
    show Address.even (Address.even s.cpu.regs.pc + 2) = 0x102
    rw [hstart]
    decide
  obtain ⟨f', hf'⟩ := fetches_of_code (s := t) (hm.symm ▸ hbranch)
  rw [← hpc] at hf'
  obtain ⟨j, u, hb, -⟩ := hafter .lt false 4 f' hf'
  have hnext : j.nextPc = 0x104 := by
    rw [Instruction.nextPc, Instruction.len, hb.addr, hb.bytes, hpc]
    rfl
  have htarget := hb.target (show signed .long 0x80000000 < signed .long 1 by decide)
  rw [hnext] at htarget
  have hend : u.cpu.regs.pc.toNat = 0x108 := Int.natCast_inj.1 htarget
  exact ⟨s, t, u, _, j, rfl, rfl, h, hb.bytes, hb.ends, UInt32.toNat_inj.1 hend⟩

end CpuM

end H8S
