import H8S.Proofs.Assembling
import H8S.Proofs.DecimalDigits
import H8S.Proofs.LimbChains

/-!
# Long decimal sums and differences

Bytes of two decimal digits, the lowest first, are the digits of a number to the base one hundred.  They are combined one
after the other, each result is made decimal, and its carry goes to the next byte.  By induction the numbers balance with the
carry out of the last byte and the borrows that went astray (`combineDecimals_balance`).  Sums have none of these, so they are
right (`decimal_sums`).  A difference falls short by one for every byte whose low digits alone borrow, counted at the byte
above (`decimal_differences`).
-/

namespace H8S

namespace Alu

/-- The number that bytes show, the lowest first. -/
def decimals (xs : List UInt32) : Nat := Nat.ofDigits 100 (xs.map decimal)

/-- The bytes are the decimal digits of a number. -/
structure Packs (xs : List UInt32) (n : Nat) (x : Int) : Prop where
  length : xs.length = n
  digits : ∀ y ∈ xs, IsDecimal y
  number : (decimals xs : Int) = x

theorem decimals_cons (x : UInt32) (xs : List UInt32) : decimals (x :: xs) = decimal x + 100 * decimals xs :=
  Nat.ofDigits_cons

theorem decimals_lt {l : List UInt32} (h : ∀ x ∈ l, IsDecimal x) : decimals l < 100 ^ l.length := by
  have hlt := Nat.ofDigits_lt_base_pow_length (b := 100) (l := l.map decimal) (by decide) (by
    intro y hy
    obtain ⟨x, hx, rfl⟩ := List.mem_map.1 hy
    exact decimal_lt (h x hx))
  rwa [List.length_map] at hlt

/-- Pair after pair is combined and made decimal, with the carry handed on. -/
def combineDecimals (d : Carrying) : List (UInt32 × UInt32) → Bool → List UInt32 × Bool
  | [], c => ([], c)
  | (a, b) :: ps, c =>
    let r := d.decimalStep a b c
    let (rs, c') := combineDecimals d ps r.2
    (r.1 :: rs, c')

/-- The number whose digits, to the base one hundred, are the borrows that go astray. -/
def Carrying.strayNumber (d : Carrying) : List (UInt32 × UInt32) → Bool → Nat
  | [], _ => 0
  | (a, b) :: ps, c =>
    (d.strays (decimal a) (decimal b) c).toNat + 100 * d.strayNumber ps (d.handsOn (decimal a) (decimal b) c)

@[simp] theorem strayNumber_sum (ps : List (UInt32 × UInt32)) (c : Bool) : Carrying.sum.strayNumber ps c = 0 := by
  induction ps generalizing c with
  | nil => rfl
  | cons p ps ih =>
    obtain ⟨a, b⟩ := p
    simp [Carrying.strayNumber, Carrying.strays, ih]

theorem length_combineDecimals (d : Carrying) (ps : List (UInt32 × UInt32)) (c : Bool) :
    (combineDecimals d ps c).1.length = ps.length := by
  induction ps generalizing c with
  | nil => rfl
  | cons p ps ih => exact congrArg (· + 1) (ih _)

variable {ps : List (UInt32 × UInt32)}

theorem combineDecimals_digits (d : Carrying) (h : ∀ p ∈ ps, IsDecimal p.1 ∧ IsDecimal p.2) (c : Bool) :
    ∀ x ∈ (combineDecimals d ps c).1, IsDecimal x := by
  induction ps generalizing c with
  | nil => simp [combineDecimals]
  | cons p ps ih =>
    obtain ⟨⟨ha, hb⟩, hps⟩ := List.forall_mem_cons.1 h
    exact List.forall_mem_cons.2 ⟨(Carrying.decimalStep_balances d ha hb c).1, ih hps _⟩

/-- The numbers as a whole balance with the carry out of the last byte, and with the borrows that went astray. -/
theorem combineDecimals_balance (d : Carrying) (h : ∀ p ∈ ps, IsDecimal p.1 ∧ IsDecimal p.2) (c : Bool) :
    (decimals (combineDecimals d ps c).1 : Int) =
      decimals (ps.map Prod.fst) + d.sign * (decimals (ps.map Prod.snd) + c.toNat + 100 * d.strayNumber ps c) -
        d.sign * (100 ^ ps.length * (combineDecimals d ps c).2.toNat) := by
  induction ps generalizing c with
  | nil => simp [combineDecimals, decimals, Carrying.strayNumber]
  | cons p ps ih =>
    obtain ⟨a, b⟩ := p
    obtain ⟨⟨ha, hb⟩, hps⟩ := List.forall_mem_cons.1 h
    obtain ⟨-, hcarry, hbyte⟩ := Carrying.decimalStep_balances d ha hb c
    have hrest := ih hps (d.decimalStep a b c).2
    simp only [combineDecimals, List.map_cons, decimals_cons, List.length_cons, Carrying.strayNumber, ← hcarry]
    push_cast
    linear_combination hbyte + 100 * hrest

theorem decimals_combine_lt (d : Carrying) (h : ∀ p ∈ ps, IsDecimal p.1 ∧ IsDecimal p.2) (c : Bool) :
    decimals (combineDecimals d ps c).1 < 100 ^ ps.length := by
  have hlt := decimals_lt (combineDecimals_digits d h c)
  rwa [length_combineDecimals] at hlt

/-- A chain of sums from a clear carry leaves the digits of the sum, and its carry. -/
theorem combineDecimals_sum (h : ∀ p ∈ ps, IsDecimal p.1 ∧ IsDecimal p.2) :
    let a := decimals (ps.map Prod.fst)
    let b := decimals (ps.map Prod.snd)
    Packs (combineDecimals .sum ps false).1 ps.length (((a + b) % 100 ^ ps.length : Nat) : Int) ∧
      (combineDecimals .sum ps false).2 = decide (100 ^ ps.length ≤ a + b) := by
  intro a b
  have hbal := combineDecimals_balance .sum h false
  simp only [Carrying.sign, strayNumber_sum, Bool.toNat_false, Nat.cast_zero] at hbal
  obtain ⟨hvalue, hcarry⟩ := of_carry (c := (combineDecimals .sum ps false).2) (t := a + b) (decimals_combine_lt .sum h false)
    (by zify; push_cast at hbal; linear_combination hbal)
  exact ⟨⟨length_combineDecimals .sum ps false, combineDecimals_digits .sum h false, congrArg Nat.cast hvalue⟩, hcarry⟩

/-- A chain of differences from a clear carry takes away the borrows that go astray, too. -/
theorem combineDecimals_difference (h : ∀ p ∈ ps, IsDecimal p.1 ∧ IsDecimal p.2) :
    let x : Int := decimals (ps.map Prod.fst) - decimals (ps.map Prod.snd) - 100 * Carrying.difference.strayNumber ps false
    Packs (combineDecimals .difference ps false).1 ps.length (x % 100 ^ ps.length) ∧
      (combineDecimals .difference ps false).2 = decide (x < 0) := by
  intro x
  have hbal := combineDecimals_balance .difference h false
  simp only [Carrying.sign, Bool.toNat_false, Nat.cast_zero] at hbal
  obtain ⟨hvalue, hcarry⟩ := of_borrow (c := (combineDecimals .difference ps false).2) (t := x)
    (decimals_combine_lt .difference h false) (by push_cast; linear_combination hbal)
  push_cast at hvalue
  exact ⟨⟨length_combineDecimals .difference ps false, combineDecimals_digits .difference h false, hvalue⟩, hcarry⟩

/-- Digits and borrow of a chain are those of the difference if and only if no borrow goes astray. -/
theorem combineDecimals_right_iff (h : ∀ p ∈ ps, IsDecimal p.1 ∧ IsDecimal p.2) :
    let x : Int := decimals (ps.map Prod.fst) - decimals (ps.map Prod.snd)
    Packs (combineDecimals .difference ps false).1 ps.length (x % 100 ^ ps.length) ∧
      (combineDecimals .difference ps false).2 = decide (x < 0) ↔ Carrying.difference.strayNumber ps false = 0 := by
  intro x
  constructor
  · rintro ⟨hpacks, hcarry⟩
    have hbal := combineDecimals_balance .difference h false
    have hvalue := hpacks.number
    have ha := decimals_lt (l := ps.map Prod.fst) (by simpa using fun x y hp => (h (x, y) hp).1)
    have hb := decimals_lt (l := ps.map Prod.snd) (by simpa using fun y x hp => (h (x, y) hp).2)
    rw [List.length_map] at ha hb
    zify at ha hb
    -- the exact difference and what the chain makes of it differ by the borrow out of the last byte, and it is the same
    rw [hvalue, hcarry] at hbal
    simp only [Carrying.sign, Bool.toNat_false, Nat.cast_zero] at hbal
    by_cases hneg : x < 0
    · rw [← Int.add_emod_right, Int.emod_eq_of_lt (by omega) (by omega), decide_eq_true hneg] at hbal
      simp only [Bool.toNat_true, Nat.cast_one, mul_one] at hbal
      omega
    · rw [Int.emod_eq_of_lt (by omega) (by omega), decide_eq_false hneg] at hbal
      simp only [Bool.toNat_false, Nat.cast_zero, mul_zero] at hbal
      omega
  · intro hzero
    have hchain := combineDecimals_difference h
    rw [hzero] at hchain
    simpa [x] using hchain

end Alu

/-! ### Chains of instructions -/

/-- The instruction that makes a byte register decimal. -/
def Alu.Carrying.adjustOp : Alu.Carrying → UInt8 → Operation
  | .sum => .daa
  | .difference => .das

/-- The registers after a byte was made decimal. -/
def Registers.adjusted (d : Alu.Carrying) (dst : UInt8) (r : Registers) : Registers :=
  r.commit .byte dst (d.adjust (r.readByte dst) r.ccr)

namespace CpuM

open Alu

variable {β : Type} [Bus β] {config : Config} {s u v : System β} {i : Instruction} {dst : UInt8}

/-- Two bytes are combined by an operation, and the result is made decimal: `a` and `b` are the bytes, and `r` is what is left of
them.  In between the machine may do anything that leaves the byte and both carries, in whatever register the byte is then. -/
inductive CombinesDecimal (config : Config) (d : Carrying) (op : AluOp) :
    UInt32 → UInt32 → UInt32 → System β → System β → Prop where
  | intro {i j : Instruction} {src : Operand} {dst res : UInt8} {x : UInt32} {s t v u : System β}
      (hop : i.op = .alu op .byte src dst) (hx : src.Holds s.cpu.regs .byte x) (hi : CarriesOut config i s t)
      (hbyte : v.cpu.regs.readByte res = t.cpu.regs.readByte dst) (hcarry : v.cpu.regs.ccr.c = t.cpu.regs.ccr.c)
      (hhalf : v.cpu.regs.ccr.h = t.cpu.regs.ccr.h) (hadjust : j.op = d.adjustOp res) (hj : CarriesOut config j v u) :
      CombinesDecimal config d op (s.cpu.regs.read .byte dst) x (u.cpu.regs.read .byte res) s u

/-- A run in which byte after byte is combined and made decimal: `ops` are the operations, `ps` the bytes and `rs` what is left
of them.  Between the bytes the machine may do anything that leaves the carry alone. -/
inductive CombinesDecimals (config : Config) (d : Carrying) :
    List AluOp → List (UInt32 × UInt32) → List UInt32 → System β → System β → Prop where
  | done {s u : System β} (hcarry : u.cpu.regs.ccr.c = s.cpu.regs.ccr.c) : CombinesDecimals config d [] [] [] s u
  | step {op : AluOp} {ops : List AluOp} {ps : List (UInt32 × UInt32)} {rs : List UInt32} {a b r : UInt32}
      {s t v u : System β} (hcarry : t.cpu.regs.ccr.c = s.cpu.regs.ccr.c) (hbyte : CombinesDecimal config d op a b r t v)
      (hrest : CombinesDecimals config d ops ps rs v u) :
      CombinesDecimals config d (op :: ops) ((a, b) :: ps) (r :: rs) s u

private theorem perform_adjust (d : Carrying) (dst : UInt8) (b : System β) :
    perform (d.adjustOp dst) config b =
      .ok () { b with cpu := { b.cpu with regs := b.cpu.regs.adjusted d dst } } := by
  cases d <;> rfl

/-- The value of an adjustment is a byte. -/
private theorem adjust_toUInt8 (d : Carrying) (x : UInt8) (f : ConditionCodes) :
    (d.adjust x f).value.toUInt8.toUInt32 = (d.adjust x f).value := by
  cases d with
  | sum => exact congrArg UInt8.toUInt32 (UInt8.toUInt8_toUInt32 _)
  | difference =>
    have hfits : (Carrying.difference.adjust x f).value.toNat = _ % 256 :=
      (add_isSum .byte x.toUInt32 (subtractionAdjustment x f.c f.h).toUInt32 false false f).value
    apply UInt32.toNat_inj.1
    rw [UInt8.toNat_toUInt32, UInt32.toNat_toUInt8, hfits]
    exact Nat.mod_mod _ _

/-- The adjustment leaves its result in the register, and its flags. -/
theorem CarriesOut.adjusted (d : Carrying) (h : CarriesOut config i s u) (hop : i.op = d.adjustOp dst) :
    let r := d.adjust (s.cpu.regs.readByte dst) s.cpu.regs.ccr
    u.cpu.regs.read .byte dst = r.value ∧ u.cpu.regs.ccr = r.flags := by
  intro r
  have hcpu := h.registers (g := Registers.adjusted d dst) fun b => by
    rw [hop]
    exact perform_adjust d dst b
  have hregs : u.cpu.regs = { s.cpu.regs with pc := i.nextPc }.commit .byte dst r := congrArg Cpu.regs hcpu
  rw [hregs]
  constructor
  · rw [← adjust_toUInt8]
    exact congrArg UInt8.toUInt32 (Registers.readByte_writeByte _ _)
  · exact Registers.write_ccr _ _ _ _

/-- The two instructions for one byte make the step of the digits. -/
private theorem CombinesDecimal.decimalStep (d : Carrying) {op : AluOp} {a b r : UInt32} {f : ConditionCodes}
    (h : CombinesDecimal config d op a b r s u) (hcmp : op ≠ .cmp)
    (hf : binary op .byte a b s.cpu.regs.ccr = binary d.next .byte a b f) :
    (r, u.cpu.regs.ccr.c) = d.decimalStep a b f.c := by
  cases h with
  | @intro i j src dst res _ _ t v _ hop hx hi hbyte hcarry hhalf hadjust hj =>
    obtain ⟨hvalue, hflags⟩ := hi.alu_byte hop hcmp hx
    obtain ⟨hresult, hccr⟩ := hj.adjusted d hadjust
    rw [hf] at hvalue hflags
    rw [hflags] at hcarry hhalf
    have hread : v.cpu.regs.readByte res = (binary d.next .byte (s.cpu.regs.read .byte dst) b f).value.toUInt8 :=
      hbyte.trans (UInt8.toUInt32_inj.1 hvalue)
    rw [hresult, hccr, hread]
    exact d.decimalStep_eq _ b hcarry hhalf

/-- Instructions that take the carry combine bytes as their digits combine. -/
theorem CombinesDecimals.combine (d : Carrying) {ps : List (UInt32 × UInt32)} {rs : List UInt32}
    (h : CombinesDecimals config d (List.replicate ps.length d.next) ps rs s u) :
    (rs, u.cpu.regs.ccr.c) = combineDecimals d ps s.cpu.regs.ccr.c := by
  induction ps generalizing rs s with
  | nil =>
    cases h with
    | done hcarry => rw [hcarry, combineDecimals]
  | cons p ps ih =>
    cases h with
    | step hcarry hbyte hrest =>
      have hstep := hbyte.decimalStep d (by cases d <;> decide) rfl
      rw [hcarry] at hstep
      rw [combineDecimals, ← hstep, ← ih hrest]

/-- A chain of instructions combines bytes as their digits combine, from a clear carry. -/
theorem CombinesDecimals.chain (d : Carrying) {p : UInt32 × UInt32} {ps : List (UInt32 × UInt32)} {rs : List UInt32}
    (h : CombinesDecimals config d (d.first :: List.replicate ps.length d.next) (p :: ps) rs s u) :
    (rs, u.cpu.regs.ccr.c) = combineDecimals d (p :: ps) false := by
  cases h with
  | step hcarry hbyte hrest =>
    have hstep := hbyte.decimalStep d (by cases d <;> decide) (binary_first d .byte _ _ _)
    rw [combineDecimals, ← hstep, ← hrest.combine d]

/-- An instruction of such a chain ends once it is fetched. -/
theorem combiningDecimals_ends (d : Carrying) (hawake : s.cpu.sleeping = false) (hquiet : s.cpu.dueInterrupt? = none)
    (hd : ∃ t, Instruction.decode read8 s.cpu.regs.pc config s = .ok i t) :
    (∀ op src dst x, i.op = .alu op .byte src dst → src.Holds s.cpu.regs .byte x → ∃ u, CarriesOut config i s u) ∧
      (∀ dst, i.op = d.adjustOp dst → ∃ u, CarriesOut config i s u) := by
  refine ⟨fun op src dst x hop hx => carriesOut_alu hawake hquiet hd hop hx, fun dst hop => ?_⟩
  obtain ⟨t, hd⟩ := hd
  exact ⟨_, carriesOut_iff.2 ⟨hawake, hquiet, t, _, hd, hop ▸ perform_adjust d dst _, rfl⟩⟩

/-! ### Two bytes in memory -/

private def twoBytes (x y : UInt32) : Registers where
  er := #v[x, y, 0, 0, 0, 0, 0, 0]
  pc := 0x100

private def adjustCode : Carrying → UInt8
  | .sum => 0x0F
  | .difference => 0x1F

/-- The instructions that combine the low words of `ER0` and `ER1` byte by byte. -/
private def twoBytesCode (d : Carrying) : List UInt8 :=
  [Encoding.aluByte d.first, 0x98, adjustCode d, 0x08, Encoding.aluByte d.next, 0x10, adjustCode d, 0x00]

/-- The registers after two bytes at an address were combined. -/
private def combinedAt (d : Carrying) (op : AluOp) (src dst : UInt8) (a : UInt32) (r : Registers) : Registers :=
  { { r with pc := a + 2 }.alu op .byte (r.read .byte src) dst with pc := a + 4 }.adjusted d dst

/-- Two instructions in memory combine two bytes. -/
private theorem combinesDecimal_of_code (d : Carrying) {op : AluOp} {src dst b₀ b₁ c₀ c₁ : UInt8} {a : UInt32}
    {s : System Memory} {r : Registers} {m : Memory} (hs : still s = (r, {}, false, 0, m)) (hpc : Address.even r.pc = a)
    (heven : Address.even (a + 2) = a + 2) (hcode : Code {} m a [b₀, b₁]) (hcode' : Code {} m (a + 2) [c₀, c₁])
    (hop : (Decoding.operation a).feed [b₀, b₁] = some (.done (.alu op .byte (.reg src) dst)))
    (hadjust : (Decoding.operation (a + 2)).feed [c₀, c₁] = some (.done (d.adjustOp dst))) :
    ∃ u, CombinesDecimal {} d op (r.read .byte dst) (r.read .byte src) (u.cpu.regs.read .byte dst) s u ∧
      still u = (combinedAt d op src dst a r, {}, false, 0, m) := by
  obtain ⟨t, h₁, ht⟩ := carriesOut_registers_of_code (fun r => r.alu op .byte (r.read .byte src) dst) hs hpc hcode hop fun _ => rfl
  obtain ⟨u, h₂, hu⟩ := carriesOut_registers_of_code (Registers.adjusted d dst) ht (by rw [Registers.alu_pc]; exact heven) hcode'
    hadjust (perform_adjust d dst)
  have hend : Instruction.nextPc ⟨a + 2, d.adjustOp dst, [c₀, c₁]⟩ = a + 4 := UInt32.add_assoc a 2 2
  rw [hend] at hu
  have hregs : s.cpu.regs = r := congrArg Prod.fst hs
  subst hregs
  exact ⟨u, .intro rfl (.reg src) h₁ rfl rfl rfl rfl h₂, hu⟩

/-- Two numbers of two bytes in registers are combined by four instructions in memory. -/
private theorem twoBytes_combined (d : Carrying) (x y : UInt32) :
    ∃ (s u : System Memory) (rs : List UInt32), s.cpu.regs = twoBytes x y ∧
      CombinesDecimals {} d [d.first, d.next]
        [((twoBytes x y).read .byte 8, (twoBytes x y).read .byte 9),
          ((combinedAt d d.first 9 8 0x100 (twoBytes x y)).read .byte 0,
            (combinedAt d d.first 9 8 0x100 (twoBytes x y)).read .byte 1)] rs s u := by
  let m := ({ size := 0x200 } : Memory).storeAll 0x100 (twoBytesCode d)
  let s : System Memory := { cpu := { regs := twoBytes x y }, bus := m }
  have hcode : Code {} m 0x100 (twoBytesCode d) := by
    refine code_storeAll (show 0x100 + 8 ≤ 2 ^ 32 by decide) (show 0x100 + 8 ≤ 0x200 by decide) fun isr hi => .inr ?_
    have hisr : isr.toNat = 0xFFFFF6 := congrArg UInt32.toNat (Option.some.inj hi).symm
    rw [hisr]
    show 0x100 + 8 ≤ 0xFFFFF6
    decide
  have hlow : Code {} m 0x100 [Encoding.aluByte d.first, 0x98] := hcode.part [] _ rfl (by decide)
  have hadjustLow : Code {} m (0x100 + 2) [adjustCode d, 0x08] :=
    hcode.part [Encoding.aluByte d.first, 0x98] [Encoding.aluByte d.next, 0x10, adjustCode d, 0x00] rfl rfl
  have hhigh : Code {} m 0x104 [Encoding.aluByte d.next, 0x10] :=
    hcode.part [Encoding.aluByte d.first, 0x98, adjustCode d, 0x08] [adjustCode d, 0x00] rfl rfl
  have hadjustHigh : Code {} m (0x104 + 2) [adjustCode d, 0x00] :=
    hcode.part [Encoding.aluByte d.first, 0x98, adjustCode d, 0x08, Encoding.aluByte d.next, 0x10] [] rfl rfl
  have hs : still s = (twoBytes x y, {}, false, 0, m) := rfl
  have hpc : Address.even (twoBytes x y).pc = 0x100 := show Address.even 0x100 = 0x100 by decide
  have hpc' : Address.even (combinedAt d d.first 9 8 0x100 (twoBytes x y)).pc = 0x104 := by
    rw [combinedAt, Registers.adjusted, Registers.commit_pc]
    show Address.even (0x100 + 4) = 0x104
    decide
  have hfirst : (Decoding.operation 0x100).feed [Encoding.aluByte d.first, 0x98] =
      some (.done (.alu d.first .byte (.reg 9) 8)) := by cases d <;> rfl
  have hnext : (Decoding.operation 0x104).feed [Encoding.aluByte d.next, 0x10] =
      some (.done (.alu d.next .byte (.reg 1) 0)) := by cases d <;> rfl
  obtain ⟨t, h, ht⟩ := combinesDecimal_of_code d hs hpc (by decide) hlow hadjustLow hfirst (by cases d <;> rfl)
  obtain ⟨u, h', -⟩ := combinesDecimal_of_code d ht hpc' (by decide) hhigh hadjustHigh hnext (by cases d <;> rfl)
  exact ⟨s, u, _, rfl, .step rfl h (.step rfl h' (.done rfl))⟩

/-! ### Sums -/

/-- Decimal sums of any number of bytes.  Added byte by byte, each followed by its adjustment, two numbers of `n` bytes leave
the decimal digits of their sum modulo `100 ^ n`, and the carry that does not fit.  This is what the instructions compute,
whatever flags they find, and each of them ends once it is fetched. -/
theorem decimal_sums (p : UInt32 × UInt32) (ps : List (UInt32 × UInt32))
    (hdigits : ∀ q ∈ p :: ps, IsDecimal q.1 ∧ IsDecimal q.2) :
    let n := (p :: ps).length
    let a := decimals ((p :: ps).map Prod.fst)
    let b := decimals ((p :: ps).map Prod.snd)
    let r := combineDecimals .sum (p :: ps) false
    (Packs r.1 n ((a + b) % 100 ^ n : Nat) ∧ r.2 = decide (100 ^ n ≤ a + b)) ∧
      ∀ (β : Type) [Bus β] (config : Config) (s : System β),
        (∀ u rs, CombinesDecimals config .sum (.add :: List.replicate ps.length .addx) (p :: ps) rs s u →
          rs = r.1 ∧ u.cpu.regs.ccr.c = r.2) ∧
        ∀ i, s.cpu.sleeping = false → s.cpu.dueInterrupt? = none →
          (∃ t, Instruction.decode read8 s.cpu.regs.pc config s = .ok i t) →
          (∀ op src dst x, i.op = .alu op .byte src dst → src.Holds s.cpu.regs .byte x → ∃ u, CarriesOut config i s u) ∧
            ∀ dst, i.op = .daa dst → ∃ u, CarriesOut config i s u :=
  ⟨combineDecimals_sum hdigits, fun _ _ _ _ => ⟨fun _ _ h => Prod.mk.inj (h.chain .sum),
    fun _ hawake hquiet hd => combiningDecimals_ends .sum hawake hquiet hd⟩⟩

/-- `ADD.B`, `DAA`, `ADDX.B`, `DAA` add 0047 to 9958. -/
theorem decimal_sums_of_bytes :
    ∃ (s u : System Memory) (rs : List UInt32),
      CombinesDecimals {} .sum [.add, .addx] [(0x58, 0x47), (0x99, 0x00)] rs s u ∧
        (∀ q ∈ [((0x58 : UInt32), (0x47 : UInt32)), (0x99, 0x00)], IsDecimal q.1 ∧ IsDecimal q.2) ∧
        rs = [0x05, 0x00] ∧ u.cpu.regs.ccr.c = true := by
  obtain ⟨s, u, rs, -, h⟩ := twoBytes_combined .sum 0x9958 0x0047
  have hdigits : ∀ q ∈ [((0x58 : UInt32), (0x47 : UInt32)), (0x99, 0x00)], IsDecimal q.1 ∧ IsDecimal q.2 :=
    List.forall_mem_cons.2 ⟨by decide, List.forall_mem_singleton.2 (by decide)⟩
  have hrun : CombinesDecimals {} .sum [.add, .addx] [(0x58, 0x47), (0x99, 0x00)] rs s u := h
  obtain ⟨hrs, hcarry⟩ := ((decimal_sums (0x58, 0x47) [(0x99, 0x00)] hdigits).2 Memory {} s).1 u rs hrun
  exact ⟨s, u, rs, hrun, hdigits, hrs.trans (by decide), hcarry.trans (by decide)⟩

/-! ### Differences -/

/-- Decimal differences of any number of bytes.  Subtracted byte by byte, each followed by its adjustment, two numbers of `n`
bytes leave the decimal digits, modulo `100 ^ n`, of their difference less one at every byte above one whose low digits alone
borrow, and the carry says that this is negative.  So the digits and the carry are those of the difference if and only if
there is no such byte. -/
theorem decimal_differences (p : UInt32 × UInt32) (ps : List (UInt32 × UInt32))
    (hdigits : ∀ q ∈ p :: ps, IsDecimal q.1 ∧ IsDecimal q.2) :
    let n := (p :: ps).length
    let a : Int := decimals ((p :: ps).map Prod.fst)
    let b : Int := decimals ((p :: ps).map Prod.snd)
    let e := Carrying.difference.strayNumber (p :: ps) false
    let r := combineDecimals .difference (p :: ps) false
    (Packs r.1 n ((a - b - 100 * e) % 100 ^ n) ∧ r.2 = decide (a - b - 100 * e < 0)) ∧
      (Packs r.1 n ((a - b) % 100 ^ n) ∧ r.2 = decide (a - b < 0) ↔ e = 0) ∧
      ∀ (β : Type) [Bus β] (config : Config) (s : System β),
        (∀ u rs, CombinesDecimals config .difference (.sub :: List.replicate ps.length .subx) (p :: ps) rs s u →
          rs = r.1 ∧ u.cpu.regs.ccr.c = r.2) ∧
        ∀ i, s.cpu.sleeping = false → s.cpu.dueInterrupt? = none →
          (∃ t, Instruction.decode read8 s.cpu.regs.pc config s = .ok i t) →
          (∀ op src dst x, i.op = .alu op .byte src dst → src.Holds s.cpu.regs .byte x → ∃ u, CarriesOut config i s u) ∧
            ∀ dst, i.op = .das dst → ∃ u, CarriesOut config i s u :=
  ⟨combineDecimals_difference hdigits, combineDecimals_right_iff hdigits, fun _ _ _ _ =>
    ⟨fun _ _ h => Prod.mk.inj (h.chain .difference),
      fun _ hawake hquiet hd => combiningDecimals_ends .difference hawake hquiet hd⟩⟩

/-- `SUB.B`, `DAS`, `SUBX.B`, `DAS` take 1501 from 4200: the digits are right, but the high digits are said to borrow. -/
theorem decimal_differences_of_bytes :
    ∃ (s u : System Memory) (rs : List UInt32),
      CombinesDecimals {} .difference [.sub, .subx] [(0x00, 0x01), (0x42, 0x15)] rs s u ∧
        (∀ q ∈ [((0x00 : UInt32), (0x01 : UInt32)), (0x42, 0x15)], IsDecimal q.1 ∧ IsDecimal q.2) ∧
        Carrying.difference.strayNumber [(0x00, 0x01), (0x42, 0x15)] false = 100 ∧ rs = [0x99, 0x26] ∧
        u.cpu.regs.ccr.c = true := by
  obtain ⟨s, u, rs, -, h⟩ := twoBytes_combined .difference 0x4200 0x1501
  have hdigits : ∀ q ∈ [((0x00 : UInt32), (0x01 : UInt32)), (0x42, 0x15)], IsDecimal q.1 ∧ IsDecimal q.2 :=
    List.forall_mem_cons.2 ⟨by decide, List.forall_mem_singleton.2 (by decide)⟩
  have hrun : CombinesDecimals {} .difference [.sub, .subx] [(0x00, 0x01), (0x42, 0x15)] rs s u := h
  obtain ⟨hrs, hcarry⟩ := ((decimal_differences (0x00, 0x01) [(0x42, 0x15)] hdigits).2.2 Memory {} s).1 u rs hrun
  exact ⟨s, u, rs, hrun, hdigits, by decide, hrs.trans (by decide), hcarry.trans (by decide)⟩

/-- The same instructions take 0015 from 0142 and leave 0027: the low digits of 42 and 15 borrow, and the high bytes have to
pay for it. -/
theorem decimal_difference_astray :
    ∃ (s u : System Memory) (rs : List UInt32),
      CombinesDecimals {} .difference [.sub, .subx] [(0x42, 0x15), (0x01, 0x00)] rs s u ∧
        (∀ q ∈ [((0x42 : UInt32), (0x15 : UInt32)), (0x01, 0x00)], IsDecimal q.1 ∧ IsDecimal q.2) ∧ rs = [0x27, 0x00] ∧
        ¬Packs rs 2 (((decimals [0x42, 0x01] : Int) - decimals [0x15, 0x00]) % 100 ^ 2) := by
  obtain ⟨s, u, rs, -, h⟩ := twoBytes_combined .difference 0x0142 0x0015
  have hrun : CombinesDecimals {} .difference [.sub, .subx] [(0x42, 0x15), (0x01, 0x00)] rs s u := h
  have hchain : (rs, u.cpu.regs.ccr.c) = combineDecimals .difference [(0x42, 0x15), (0x01, 0x00)] false := h.chain .difference
  have hrs : rs = [0x27, 0x00] := (Prod.mk.inj hchain).1.trans (by decide)
  have hdigits : ∀ q ∈ [((0x42 : UInt32), (0x15 : UInt32)), (0x01, 0x00)], IsDecimal q.1 ∧ IsDecimal q.2 :=
    List.forall_mem_cons.2 ⟨by decide, List.forall_mem_singleton.2 (by decide)⟩
  refine ⟨s, u, rs, hrun, hdigits, hrs, fun hpacks => ?_⟩
  have hnumber := hpacks.number
  rw [hrs] at hnumber
  revert hnumber
  decide

end CpuM

end H8S
