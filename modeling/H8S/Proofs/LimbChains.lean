import H8S.Proofs.Limbs
import H8S.Proofs.FlatMemory
import H8S.Proofs.RegisterViews
import Mathlib.Data.Nat.Digits.Defs
import Mathlib.Tactic.LinearCombination

/-!
# Long sums and differences

A long number is a list of limbs, the lowest first, and stands for a bit vector (`whole`).  A chain of operations passes its
flags from limb to limb.  By induction on the limbs the numbers balance with the carry out of the last
(`combine_balance`) and `Z` tells whether all limbs are zero (`combine_zero`), while `N` and `V` are those of the top limb,
which is the only one with a sign (`toInt_whole`, `overflow_concat`).  Put together, the chain does what the operation on the
bit vectors does, and so do byte instructions that follow one another (`long_arithmetic`).
-/

namespace H8S

namespace Alu

variable {w : Width} {d : Carrying} {f : ConditionCodes}

/-! ### Long numbers -/

/-- The number that limbs hold together, the lowest first. -/
def number (w : Width) (xs : List UInt32) : Nat := Nat.ofDigits (2 * half w) (xs.map (limb w))

/-- The bits of `n` limbs. -/
def whole (w : Width) (n : Nat) (xs : List UInt32) : BitVec (n * w.bits.toNat) := .ofNat _ (number w xs)

theorem number_cons (w : Width) (x : UInt32) (xs : List UInt32) :
    number w (x :: xs) = limb w x + 2 * half w * number w xs := Nat.ofDigits_cons

theorem number_concat (w : Width) (xs : List UInt32) (x : UInt32) :
    number w (xs ++ [x]) = number w xs + (2 * half w) ^ xs.length * limb w x := by
  simp [number, Nat.ofDigits_append]

theorem number_lt (w : Width) (xs : List UInt32) : number w xs < (2 * half w) ^ xs.length := by
  have h := Nat.ofDigits_lt_base_pow_length (b := 2 * half w) (l := xs.map (limb w)) (by have := half_pos w; omega) (by
    intro x hx
    obtain ⟨y, -, rfl⟩ := List.mem_map.1 hx
    exact limb_lt w y)
  rwa [List.length_map] at h

theorem two_pow_bits (w : Width) (n : Nat) : 2 ^ (n * w.bits.toNat) = (2 * half w) ^ n := by
  have h : 2 ^ w.bits.toNat = 2 * half w := by cases w <;> rfl
  rw [Nat.mul_comm, Nat.pow_mul, h]

/-- Nothing of the number is lost in its bits. -/
theorem toNat_whole {n : Nat} {xs : List UInt32} (h : xs.length = n) : (whole w n xs).toNat = number w xs := by
  subst h
  rw [whole, BitVec.toNat_ofNat, two_pow_bits]
  exact Nat.mod_eq_of_lt (number_lt w xs)

theorem two_pow_bits_sub_one (w : Width) (n : Nat) :
    2 ^ ((n + 1) * w.bits.toNat - 1) = half w * (2 * half w) ^ n := by
  have hbits : (n + 1) * w.bits.toNat - 1 = n * w.bits.toNat + (w.bits.toNat - 1) := by
    have hpos : 0 < w.bits.toNat := by cases w <;> decide
    rw [Nat.succ_mul]
    omega
  have hhalf : 2 ^ (w.bits.toNat - 1) = half w := by cases w <;> rfl
  rw [hbits, Nat.pow_add, two_pow_bits, hhalf, Nat.mul_comm]

/-- The top limb decides where a long number lies. -/
theorem add_mul_lt_iff {m l x h : Int} (h₀ : 0 ≤ l) (hl : l < m) : l + m * x < h * m ↔ x < h := by
  have hdiv : (l + m * x) / m = x := by
    rw [Int.add_mul_ediv_left _ _ (by omega), Int.ediv_eq_zero_of_lt h₀ hl, Int.zero_add]
  rw [← Int.ediv_lt_iff_lt_mul (by omega), hdiv]

theorem msb_whole {n : Nat} {xs : List UInt32} (x : UInt32) (h : xs.length + 1 = n) :
    (whole w n (xs ++ [x])).msb = decide (half w ≤ limb w x) := by
  subst h
  have hl := number_lt w xs
  have hlt := add_mul_lt_iff (m := (2 * half w) ^ xs.length) (l := number w xs) (x := limb w x) (h := half w) (by omega)
    (by exact_mod_cast hl)
  rw [BitVec.msb_eq_decide, toNat_whole (by simp), number_concat, two_pow_bits_sub_one, decide_eq_decide, ← Nat.not_lt,
    ← Nat.not_lt, not_iff_not]
  exact_mod_cast hlt

/-- In two's complement only the top limb has a sign. -/
theorem toInt_whole {n : Nat} {xs : List UInt32} (x : UInt32) (h : xs.length + 1 = n) :
    (whole w n (xs ++ [x])).toInt = number w xs + (2 * half w) ^ xs.length * signed w x := by
  rw [BitVec.toInt_eq_msb_cond, msb_whole x h, toNat_whole (by simp [h]), number_concat, two_pow_bits, signed, ← h]
  by_cases h : half w ≤ limb w x
  · simp [h]
    ring
  · simp [h]

/-! ### Chains -/

/-- One operation on pair after pair, with the flags passed on. -/
def combine (op : AluOp) (w : Width) : List (UInt32 × UInt32) → ConditionCodes → List UInt32 × ConditionCodes
  | [], f => ([], f)
  | (a, b) :: ps, f =>
    let r := binary op w a b f
    let (rs, g) := combine op w ps r.flags
    (r.value :: rs, g)

/-- The operation on the lowest limbs, and the one that takes the carry on each pair after them. -/
def Carrying.chain (d : Carrying) (w : Width) (p : UInt32 × UInt32) (ps : List (UInt32 × UInt32)) (f : ConditionCodes) :
    List UInt32 × ConditionCodes :=
  let r := binary d.first w p.1 p.2 f
  let (rs, g) := combine d.next w ps r.flags
  (r.value :: rs, g)

theorem chain_eq_combine (p : UInt32 × UInt32) (ps : List (UInt32 × UInt32)) :
    d.chain w p ps f = combine d.next w (p :: ps) { f with c := false, z := true } := by
  rw [Carrying.chain, binary_first]
  rfl

theorem combine_append (op : AluOp) (ps qs : List (UInt32 × UInt32)) :
    combine op w (ps ++ qs) f =
      ((combine op w ps f).1 ++ (combine op w qs (combine op w ps f).2).1,
        (combine op w qs (combine op w ps f).2).2) := by
  induction ps generalizing f with
  | nil => rfl
  | cons p ps ih => simp [combine, ih]

theorem length_combine (op : AluOp) (ps : List (UInt32 × UInt32)) : (combine op w ps f).1.length = ps.length := by
  induction ps generalizing f with
  | nil => rfl
  | cons p ps ih => exact congrArg (· + 1) ih

/-- Limb by limb, the carry out of one pair being that into the next, the numbers as a whole balance. -/
theorem combine_balance (d : Carrying) (w : Width) (ps : List (UInt32 × UInt32)) (f : ConditionCodes) :
    (number w (combine d.next w ps f).1 : Int) =
      number w (ps.map Prod.fst) + d.sign * (number w (ps.map Prod.snd) + f.c.toNat) -
        d.sign * ((2 * half w) ^ ps.length * (combine d.next w ps f).2.c.toNat) := by
  induction ps generalizing f with
  | nil => simp [combine, number]
  | cons p ps ih =>
    obtain ⟨a, b⟩ := p
    have hlimb := (binary_next_balances d w a b f).value
    have hrest := ih (binary d.next w a b f).flags
    simp only [combine, List.map_cons, number_cons, List.length_cons]
    push_cast
    linear_combination hlimb + 2 * (half w : Int) * hrest

theorem combine_zero (d : Carrying) (w : Width) (ps : List (UInt32 × UInt32)) (f : ConditionCodes) :
    (combine d.next w ps f).2.z = (f.z && number w (combine d.next w ps f).1 == 0) := by
  induction ps generalizing f with
  | nil => simp [combine, number]
  | cons p ps ih =>
    obtain ⟨a, b⟩ := p
    have hp := half_pos w
    simp only [combine, ih, number_cons, (binary_next_balances d w a b f).zero]
    rw [Bool.eq_iff_iff]
    simp [and_assoc]
    omega

theorem combine_others (d : Carrying) (w : Width) (ps : List (UInt32 × UInt32)) (f : ConditionCodes) :
    ∃ h n z v c, (combine d.next w ps f).2 = { f with h := h, n := n, z := z, v := v, c := c } := by
  induction ps generalizing f with
  | nil => exact ⟨_, _, _, _, _, rfl⟩
  | cons p ps ih =>
    obtain ⟨a, b⟩ := p
    obtain ⟨h, n, z, v, c, hg⟩ := ih (binary d.next w a b f).flags
    refine ⟨h, n, z, v, c, hg.trans ?_⟩
    rw [(binary_next_balances d w a b f).others]

theorem combine_fits (d : Carrying) (w : Width) (ps : List (UInt32 × UInt32)) (f : ConditionCodes) :
    ∀ r ∈ (combine d.next w ps f).1, r.toNat < 2 ^ w.bits.toNat := by
  induction ps generalizing f with
  | nil => simp [combine]
  | cons p ps ih =>
    obtain ⟨a, b⟩ := p
    intro r hr
    rcases List.mem_cons.1 hr with rfl | hr
    · rw [(binary_next_balances d w a b f).fits]
      have := two_pow_bits w 1
      simp at this
      rw [this]
      exact limb_lt w _
    · exact ih _ r hr

/-! ### Sums and differences of bit vectors -/

namespace Carrying

variable {m : Nat}

/-- The sum or difference of bit vectors. -/
def total : Carrying → BitVec m → BitVec m → BitVec m
  | sum, a, b => a + b
  | difference, a, b => a - b

/-- The carry out of a sum, or the borrow of a difference. -/
def carries : Carrying → BitVec m → BitVec m → Bool
  | sum, a, b => a.uaddOverflow b
  | difference, a, b => a.usubOverflow b

/-- The overflow in two's complement. -/
def overflows : Carrying → BitVec m → BitVec m → Bool
  | sum, a, b => a.saddOverflow b
  | difference, a, b => a.ssubOverflow b

/-- What balances with a carry is the sum or difference, and the carry is that out of it. -/
theorem of_balance (d : Carrying) {a b r : BitVec m} {c : Bool}
    (h : (r.toNat : Int) = a.toNat + d.sign * b.toNat - d.sign * (2 ^ m * c.toNat)) :
    r = d.total a b ∧ c = d.carries a b := by
  have hr := r.isLt
  have hb := b.isLt
  have ha := a.isLt
  generalize hM : 2 ^ m = M at *
  cases d with
  | sum =>
    have hv : a.toNat + b.toNat = r.toNat + M * c.toNat := by
      simp only [sign] at h
      zify
      rw [← hM] at *
      push_cast at *
      linear_combination -h
    constructor
    · apply BitVec.eq_of_toNat_eq
      rw [total, BitVec.toNat_add, hM, hv, Nat.add_mul_mod_self_left, Nat.mod_eq_of_lt hr]
    · rw [carries, BitVec.uaddOverflow, hM, hv]
      cases c
      · simpa using hr
      · simp
  | difference =>
    have hv : a.toNat + M * c.toNat = r.toNat + b.toNat := by
      simp only [sign] at h
      zify
      rw [← hM] at *
      push_cast at *
      linear_combination -h
    constructor
    · apply BitVec.eq_of_toNat_eq
      rw [total, BitVec.toNat_sub, hM]
      cases c
      · simp at hv
        rw [show M - b.toNat + a.toNat = r.toNat + M by omega, Nat.add_mod_right, Nat.mod_eq_of_lt hr]
      · simp at hv
        rw [show M - b.toNat + a.toNat = r.toNat by omega, Nat.mod_eq_of_lt hr]
    · rw [carries, BitVec.usubOverflow]
      cases c
      · simp at hv ⊢
        omega
      · simp at hv ⊢
        omega

theorem overflows_eq (d : Carrying) (a b : BitVec m) :
    d.overflows a b = !decide (-2 ^ (m - 1) ≤ a.toInt + d.sign * b.toInt ∧ a.toInt + d.sign * b.toInt < 2 ^ (m - 1)) := by
  cases d with
  | sum =>
    rw [Bool.eq_iff_iff]
    simp [overflows, BitVec.saddOverflow, sign]
    omega
  | difference =>
    rw [Bool.eq_iff_iff]
    simp [overflows, BitVec.ssubOverflow, sign]
    omega

end Carrying

/-! ### The flags at the end of a chain -/

/-- The top limbs, and the carry into them, tell whether the numbers as a whole overflow. -/
theorem overflow_concat (d : Carrying) {w : Width} {n : Nat} {ps : List (UInt32 × UInt32)} (p : UInt32 × UInt32)
    {f : ConditionCodes} (hn : ps.length + 1 = n) (hc : f.c = false) :
    (combine d.next w (ps ++ [p]) f).2.v =
      d.overflows (whole w n ((ps ++ [p]).map Prod.fst)) (whole w n ((ps ++ [p]).map Prod.snd)) := by
  obtain ⟨a, b⟩ := p
  have hbal := combine_balance d w ps f
  have hlow := number_lt w (combine d.next w ps f).1
  have hM : 2 ^ (n * w.bits.toNat - 1) = half w * (2 * half w) ^ ps.length := by
    rw [← hn, two_pow_bits_sub_one]
  rw [length_combine] at hlow
  rw [combine_append, combine, combine, (binary_next_balances d w a b _).overflow, Carrying.overflows_eq, List.map_append,
    List.map_append, List.map_singleton, List.map_singleton, toInt_whole a (by simpa using hn),
    toInt_whole b (by simpa using hn), List.length_map, List.length_map]
  set g := (combine d.next w ps f).2
  set l := number w (combine d.next w ps f).1
  have hsum : (number w (ps.map Prod.fst) : Int) + (2 * half w) ^ ps.length * signed w a +
      d.sign * (number w (ps.map Prod.snd) + (2 * half w) ^ ps.length * signed w b) =
      l + (2 * half w) ^ ps.length * (signed w a + d.sign * (signed w b + g.c.toNat)) := by
    rw [hc] at hbal
    simp only [Bool.toNat_false, Nat.cast_zero] at hbal
    linear_combination -hbal
  have hlt := fun h => add_mul_lt_iff (m := (2 * half w) ^ ps.length) (l := l)
    (x := signed w a + d.sign * (signed w b + g.c.toNat)) (h := h) (by omega) (by exact_mod_cast hlow)
  have hMi : (2 : Int) ^ (n * w.bits.toNat - 1) = half w * (2 * half w) ^ ps.length := by exact_mod_cast hM
  have hle := not_congr (hlt (-half w))
  rw [not_lt, not_lt] at hle
  rw [hsum, hMi, ← neg_mul]
  simp only [hle, hlt]

/-- A chain from a clear carry takes the sum or difference of the numbers as a whole. -/
theorem combine_total (d : Carrying) {w : Width} {n : Nat} (ps : List (UInt32 × UInt32)) (f : ConditionCodes)
    (hn : ps.length = n) (hc : f.c = false) :
    whole w n (combine d.next w ps f).1 = d.total (whole w n (ps.map Prod.fst)) (whole w n (ps.map Prod.snd)) ∧
      (combine d.next w ps f).2.c = d.carries (whole w n (ps.map Prod.fst)) (whole w n (ps.map Prod.snd)) := by
  have hbal := combine_balance d w ps f
  apply Carrying.of_balance
  rw [toNat_whole (by simpa [length_combine] using hn), toNat_whole (by simpa using hn), toNat_whole (by simpa using hn),
    hbal, hc, ← hn]
  have hM : (2 : Int) ^ (ps.length * w.bits.toNat) = (2 * half w) ^ ps.length := by exact_mod_cast two_pow_bits w ps.length
  rw [hM]
  simp

theorem negative_concat (d : Carrying) {w : Width} {n : Nat} {ps : List (UInt32 × UInt32)} (p : UInt32 × UInt32)
    {f : ConditionCodes} (hn : ps.length + 1 = n) :
    (combine d.next w (ps ++ [p]) f).2.n = (whole w n (combine d.next w (ps ++ [p]) f).1).msb := by
  obtain ⟨a, b⟩ := p
  have hlen : (combine d.next w ps f).1.length + 1 = n := by rwa [length_combine]
  rw [combine_append, combine, combine, (binary_next_balances d w a b _).negative, msb_whole _ hlen]

/-- All flags at the end of a chain from a clear carry and a set `Z`. -/
theorem combine_flags (d : Carrying) {w : Width} {n : Nat} (ps : List (UInt32 × UInt32)) (f : ConditionCodes)
    (hne : ps ≠ []) (hn : ps.length = n) (hc : f.c = false) (hz : f.z = true) :
    let a := whole w n (ps.map Prod.fst)
    let b := whole w n (ps.map Prod.snd)
    let g := (combine d.next w ps f).2
    g = { f with h := g.h, n := (d.total a b).msb, z := d.total a b == 0, v := d.overflows a b, c := d.carries a b } := by
  intro a b g
  obtain ⟨ps', p, rfl⟩ : ∃ ps' p, ps = ps' ++ [p] := by simpa using List.eq_nil_or_concat ps |>.resolve_left hne
  obtain ⟨ht, hcarry⟩ := combine_total d _ _ hn hc
  have hlen : ps'.length + 1 = n := by simpa using hn
  have hzero : g.z = (whole w n (combine d.next w (ps' ++ [p]) f).1 == 0) := by
    have hresults : (combine d.next w (ps' ++ [p]) f).1.length = n := by rwa [length_combine]
    rw [combine_zero, hz, Bool.true_and, Bool.eq_iff_iff]
    simp [← BitVec.toNat_inj, toNat_whole hresults]
  obtain ⟨h, n', z, v, c, hg⟩ := combine_others d w (ps' ++ [p]) f
  have hg' : g = { f with h := h, n := n', z := z, v := v, c := c } := hg
  rw [← ht, ← negative_concat d p hlen, ← hzero, ← hcarry, ← overflow_concat d p hlen hc]
  change g = { f with h := g.h, n := g.n, z := g.z, v := g.v, c := g.c }
  rw [hg']

end Alu

/-! ### Chains of instructions -/

/-- The value of an operand that the instruction or a register holds. -/
inductive Operand.Holds (r : Registers) (width : Width) : Operand → UInt32 → Prop where
  | reg (id : UInt8) : Holds r width (.reg id) (r.read width id)
  | imm (value : UInt32) : Holds r width (.imm value) (value &&& width.mask)

namespace CpuM

variable {β : Type} [Bus β] {config : Config} {s t u v : System β} {i : Instruction} {op : AluOp} {width : Width}
  {src : Operand} {dst : UInt8} {x : UInt32}

private theorem perform_alu (hx : src.Holds s.cpu.regs width x) :
    perform (.alu op width src dst) config s =
      .ok () { s with cpu := { s.cpu with regs := s.cpu.regs.alu op width x dst } } := by
  cases hx <;> rfl

private theorem holds_begun (hd : Instruction.decode read8 s.cpu.regs.pc config s = .ok i t)
    (hx : src.Holds s.cpu.regs width x) : src.Holds (t.begun config i).cpu.regs width x := by
  rw [System.begun_cpu, (decode_ok hd).2.2.cpu]
  cases hx with
  | reg id => exact .reg id
  | imm value => exact .imm value

/-- An instruction that works on registers and immediates alone ends. -/
theorem carriesOut_alu (hawake : s.cpu.sleeping = false) (hquiet : s.cpu.dueInterrupt? = none)
    (hd : ∃ t, Instruction.decode read8 s.cpu.regs.pc config s = .ok i t) (hop : i.op = .alu op width src dst)
    (hx : src.Holds s.cpu.regs width x) : ∃ u, CarriesOut config i s u := by
  obtain ⟨t, hd⟩ := hd
  exact ⟨_, carriesOut_iff.2 ⟨hawake, hquiet, t, _, hd, hop ▸ perform_alu (holds_begun hd hx), rfl⟩⟩

/-- What such an instruction leaves in the registers. -/
theorem CarriesOut.alu_regs (h : CarriesOut config i s u) (hop : i.op = .alu op width src dst)
    (hx : src.Holds s.cpu.regs width x) :
    u.cpu.regs = { s.cpu.regs with pc := i.nextPc }.alu op width x dst := by
  obtain ⟨-, -, t, v, hd, hp, rfl⟩ := carriesOut_iff.1 h
  rw [hop, perform_alu (holds_begun hd hx)] at hp
  cases hp
  show (t.begun config i).cpu.regs.alu op width x dst = _
  rw [System.begun_cpu, (decode_ok hd).2.2.cpu]

/-- A byte instruction of a chain leaves the result of its operation, and its flags. -/
theorem CarriesOut.alu_byte (h : CarriesOut config i s u) (hop : i.op = .alu op .byte src dst) (hcmp : op ≠ .cmp)
    (hx : src.Holds s.cpu.regs .byte x) :
    let r := Alu.binary op .byte (s.cpu.regs.read .byte dst) x s.cpu.regs.ccr
    u.cpu.regs.read .byte dst = r.value.toUInt8.toUInt32 ∧ u.cpu.regs.ccr = r.flags := by
  intro r
  have hregs := h.alu_regs hop hx
  rw [Registers.alu, if_neg hcmp] at hregs
  rw [hregs]
  constructor
  · exact congrArg UInt8.toUInt32 (Registers.readByte_writeByte _ _)
  · exact Registers.write_ccr _ _ _ _

/-- A run in which instruction after instruction combines two bytes: `ops` are their operations, `ps` the bytes and `rs` what is
left of them.  Before and after each instruction the machine may do anything that leaves the condition codes alone. -/
inductive CombinesBytes (config : Config) :
    List AluOp → List (UInt32 × UInt32) → List UInt32 → System β → System β → Prop where
  | done {s u : System β} (hccr : u.cpu.regs.ccr = s.cpu.regs.ccr) : CombinesBytes config [] [] [] s u
  | step {op : AluOp} {ops : List AluOp} {ps : List (UInt32 × UInt32)} {rs : List UInt32} {i : Instruction} {src : Operand}
      {dst : UInt8} {x : UInt32} {s t u v : System β} (hccr : t.cpu.regs.ccr = s.cpu.regs.ccr)
      (hop : i.op = .alu op .byte src dst) (hx : src.Holds t.cpu.regs .byte x) (h : CarriesOut config i t v)
      (hrest : CombinesBytes config ops ps rs v u) :
      CombinesBytes config (op :: ops) ((t.cpu.regs.read .byte dst, x) :: ps) (v.cpu.regs.read .byte dst :: rs) s u

open Alu

private theorem binary_next_toUInt8 (d : Carrying) (a b : UInt32) (f : ConditionCodes) :
    (binary d.next .byte a b f).value.toUInt8.toUInt32 = (binary d.next .byte a b f).value := by
  apply UInt32.toNat_inj.1
  have hfits := (binary_next_balances d .byte a b f).fits
  have hlt : limb .byte (binary d.next .byte a b f).value < 256 := limb_lt .byte _
  simp
  omega

/-- Instructions that take the carry combine bytes as their operation does. -/
theorem CombinesBytes.combine (d : Carrying) {ps : List (UInt32 × UInt32)} {rs : List UInt32}
    (h : CombinesBytes config (List.replicate ps.length d.next) ps rs s u) :
    (rs, u.cpu.regs.ccr) = Alu.combine d.next .byte ps s.cpu.regs.ccr := by
  induction ps generalizing rs s with
  | nil =>
    cases h with
    | done hccr => rw [hccr, Alu.combine]
  | cons p ps ih =>
    cases h with
    | step hccr hop hx hi hrest =>
      obtain ⟨hvalue, hflags⟩ := hi.alu_byte hop (by cases d <;> decide) hx
      rw [hccr] at hvalue hflags
      rw [Alu.combine, ← hflags, ← ih hrest, hvalue, binary_next_toUInt8]

/-- A chain of instructions combines bytes as the chain of their operations does. -/
theorem CombinesBytes.chain (d : Carrying) {p : UInt32 × UInt32} {ps : List (UInt32 × UInt32)} {rs : List UInt32}
    (h : CombinesBytes config (d.first :: List.replicate ps.length d.next) (p :: ps) rs s u) :
    (rs, u.cpu.regs.ccr) = d.chain .byte p ps s.cpu.regs.ccr := by
  cases h with
  | step hccr hop hx hi hrest =>
    obtain ⟨hvalue, hflags⟩ := hi.alu_byte hop (by cases d <;> decide) hx
    rw [hccr] at hvalue hflags
    rw [Carrying.chain, ← hflags, ← hrest.combine d, hvalue, binary_first, binary_next_toUInt8]

/-- Long sums and differences of any number of limbs of any width.  The operation on the lowest limbs and the carrying one on
all others leave the limbs of the sum or difference, and the flags that the operation on the numbers as a whole would have:
the carry or borrow, the overflow, the top bit, and `Z` if the whole is zero.  For bytes this is what the instructions
compute, and each of them ends once it is fetched. -/
theorem long_arithmetic (d : Carrying) (w : Width) (p : UInt32 × UInt32) (ps : List (UInt32 × UInt32))
    (f : ConditionCodes) :
    let n := (p :: ps).length
    let a := whole w n ((p :: ps).map Prod.fst)
    let b := whole w n ((p :: ps).map Prod.snd)
    let r := d.chain w p ps f
    (r.1.length = n ∧ (∀ x ∈ r.1, x.toNat < 2 ^ w.bits.toNat) ∧ whole w n r.1 = d.total a b) ∧
      (r.2 = { f with
        h := r.2.h, n := (d.total a b).msb, z := d.total a b == 0, v := d.overflows a b, c := d.carries a b } ∧
        (d = .difference → (r.2.z = true ↔ a = b))) ∧
      ∀ (β : Type) [Bus β] (config : Config) (s : System β),
        (∀ u rs, w = .byte → s.cpu.regs.ccr = f →
          CombinesBytes config (d.first :: List.replicate ps.length d.next) (p :: ps) rs s u →
            rs = r.1 ∧ u.cpu.regs.ccr = r.2) ∧
        ∀ i op src dst x, s.cpu.sleeping = false → s.cpu.dueInterrupt? = none →
          (∃ t, Instruction.decode read8 s.cpu.regs.pc config s = .ok i t) → i.op = .alu op .byte src dst →
          src.Holds s.cpu.regs .byte x → ∃ u, CarriesOut config i s u := by
  intro n a b r
  have hchain : r = Alu.combine d.next w (p :: ps) { f with c := false, z := true } := chain_eq_combine p ps
  have htotal := combine_total d (w := w) (n := n) (p :: ps) { f with c := false, z := true } rfl rfl
  have hflags := combine_flags d (w := w) (n := n) (p :: ps) { f with c := false, z := true }
    (by simp) rfl rfl rfl
  rw [← hchain] at htotal hflags
  refine ⟨⟨?_, ?_, htotal.1⟩, ⟨?_, ?_⟩, fun β _ config s => ⟨?_, ?_⟩⟩
  · rw [hchain, length_combine]
  · rw [hchain]
    exact combine_fits d w _ _
  · exact hflags
  · rintro rfl
    have hz : r.2.z = (a - b == 0) := congrArg ConditionCodes.z hflags
    rw [hz, beq_iff_eq, BitVec.sub_eq_iff_eq_add]
    simp
  · rintro u rs rfl rfl h
    exact Prod.mk.inj (h.chain d)
  · intro i op src dst x hawake hquiet hd hop hx
    exact carriesOut_alu hawake hquiet hd hop hx

private def borrowing (pc : UInt32) : Registers where
  er := #v[0x8000, 0x0001, 0, 0, 0, 0, 0, 0]
  pc
  ccr := { c := true }

private theorem alu_still {config : Config} {b : System Memory} {r : Registers} {p : InterruptSet} {d : Int} {m : Memory}
    (op : AluOp) (src dst : UInt8) (hb : still b = (r, p, false, d, m)) :
    ∃ v, perform (.alu op .byte (.reg src) dst) config b = .ok () v ∧
      still v = (r.alu op .byte (r.read .byte src) dst, p, false, d, m) := by
  unfold still at hb
  simp only [Prod.mk.injEq] at hb
  obtain ⟨rfl, rfl, ha, rfl, rfl⟩ := hb
  refine ⟨_, rfl, ?_⟩
  show (_, b.cpu.pending, b.cpu.sleeping, _, _) = _
  rw [ha]

/-- `SUB.B R1L,R0L` and `SUBX.B R1H,R0H` take 0001 from 8000, whatever carry they find. -/
theorem long_arithmetic_of_bytes :
    ∃ (s u : System Memory) (rs : List UInt32),
      CombinesBytes {} [.sub, .subx] [(0x00, 0x01), (0x80, 0x00)] rs s u ∧ s.cpu.regs.ccr.c = true ∧
        rs = [0xFF, 0x7F] ∧ u.cpu.regs.ccr = { v := true, h := true } := by
  let m := ({ size := 0x200 } : Memory).storeAll 0x100 [0x18, 0x98, 0x1E, 0x10]
  let s : System Memory := { cpu := { regs := borrowing 0x100 }, bus := m }
  have hcode : Code {} m 0x100 [0x18, 0x98, 0x1E, 0x10] := code_storeAll (by decide) (by decide) fun isr hi => by
    have : isr.toNat = 0xFFFFF6 := congrArg UInt32.toNat (Option.some.inj hi).symm
    exact .inr (by rw [this]; decide)
  have hlow : Code {} m 0x100 [0x18, 0x98] := hcode.part [] [0x1E, 0x10] (by decide) (by decide)
  have hhigh : Code {} m 0x102 [0x1E, 0x10] := hcode.part [0x18, 0x98] [] (by decide) (by decide)
  have hs : still s = (borrowing 0x100, {}, false, 0, m) := rfl
  obtain ⟨t, h₁, ht⟩ := carriesOut_of_code _ hs (dueInterrupt?_of_still hs) hlow rfl fun b hb => alu_still .sub 9 8 hb
  obtain ⟨u, h₂, hu⟩ := carriesOut_of_code _ ht (dueInterrupt?_of_still ht) hhigh rfl fun b hb => alu_still .subx 1 0 hb
  have hregs := congrArg Prod.fst ht
  have hfirst : (s.cpu.regs.read .byte 8, s.cpu.regs.read .byte 9) = (0x00, 0x01) := by decide
  have hsecond : (t.cpu.regs.read .byte 0, t.cpu.regs.read .byte 1) = (0x80, 0x00) := by
    rw [show t.cpu.regs = _ from hregs]
    decide
  obtain ⟨rs, hrun⟩ : ∃ rs, CombinesBytes {} [.sub, .subx] [(0x00, 0x01), (0x80, 0x00)] rs s u := by
    rw [← hfirst, ← hsecond]
    exact ⟨_, .step rfl rfl (.reg 9) h₁ (.step rfl rfl (.reg 1) h₂ (.done rfl))⟩
  obtain ⟨-, -, hguest⟩ := long_arithmetic .difference .byte (0x00, 0x01) [(0x80, 0x00)] { c := true }
  obtain ⟨hrs, hccr⟩ := (hguest Memory {} s).1 u rs rfl rfl hrun
  exact ⟨s, u, rs, hrun, rfl, hrs.trans (by decide), hccr.trans (by decide)⟩

end CpuM

end H8S
