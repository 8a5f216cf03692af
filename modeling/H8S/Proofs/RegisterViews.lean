import H8S.Proofs.RegisterFrames
import Mathlib.Data.Nat.Bitwise

/-!
# The bits of a register view

Instructions name parts of the eight registers.  A view holds a stretch of the bits of one register (`View.Holds`).  What is
read of a view are those bits (`testBit_read`), and a write puts the bits of the value there and leaves all other bits of all
registers as they are (`bit_write`).  So the value that was written is read back, as far as it fits (`read_write`).
-/

namespace H8S

/-- A part of a register, as instructions name it. -/
structure View where
  width : Width
  id : UInt8
  deriving DecidableEq

namespace View

/-- The lowest bit of a view in its register. -/
def low (v : View) : Nat :=
  match v.width with
  | .byte => if Registers.second v.id then 0 else 8
  | .word => if Registers.second v.id then 16 else 0
  | .long => 0

/-- A bit of a register belongs to the view. -/
def Holds (v : View) (k : Fin 8) (i : Nat) : Prop := Registers.cell v.id = k ∧ v.low ≤ i ∧ i < v.low + v.width.bits.toNat

instance (v : View) (k : Fin 8) (i : Nat) : Decidable (v.Holds k i) := inferInstanceAs (Decidable (_ ∧ _ ∧ _))

variable {id x : UInt8} {k : Fin 8} {i : Nat}

/-- The long view of a register holds all bits of it. -/
theorem holds_long (hk : Registers.cell id = k) (hi : i < 32) : Holds ⟨.long, id⟩ k i :=
  ⟨hk, Nat.zero_le i, by simpa [low, Width.bits] using hi⟩

/-- The words of a register are parts of it. -/
theorem holds_long_of_word (h : Holds ⟨.word, x⟩ k i) (hx : Registers.cell x = Registers.cell id) :
    Holds ⟨.long, id⟩ k i := by
  obtain ⟨hk, -, hi⟩ := h
  refine holds_long (hx.symm.trans hk) ?_
  have hbits : Width.word.bits.toNat = 16 := rfl
  simp only [low, hbits] at hi
  split at hi
  · omega
  · omega

end View

namespace Registers

variable {r : Registers} {k : Fin 8} {i : Nat}

theorem cell_low (id : UInt8) : cell (id &&& 7) = cell id := by
  refine Fin.ext ?_
  show (id &&& 7).toNat % 8 = id.toNat % 8
  rw [UInt8.toNat_and]
  exact (congrArg (· % 8) (Nat.and_two_pow_sub_one_eq_mod id.toNat 3)).trans (Nat.mod_mod _ _)

theorem cell_high (id : UInt8) : cell (id ||| 8) = cell id := by
  refine Fin.ext ?_
  show (id ||| 8).toNat % 8 = id.toNat % 8
  rw [UInt8.toNat_or]
  simpa using Nat.or_mod_two_pow (a := id.toNat) (b := 8) (n := 3)

theorem second_low (id : UInt8) : second (id &&& 7) = false := by
  have h : ∀ v : BitVec 8, second (⟨v⟩ &&& 7) = false := by decide
  exact h id.toBitVec

theorem second_high (id : UInt8) : second (id ||| 8) = true := by
  have h : ∀ v : BitVec 8, second (⟨v⟩ ||| 8) = true := by decide
  exact h id.toBitVec

/-- A bit of one of the eight registers. -/
def bit (r : Registers) (k : Fin 8) (i : Nat) : Bool := (r.er.get k).toNat.testBit i

/-- Registers with the same bits are the same. -/
theorem er_ext {r r' : Registers} (h : ∀ k i, r'.bit k i = r.bit k i) : r'.er = r.er := by
  refine Vector.ext fun k hk => UInt32.toNat_inj.1 (Nat.eq_of_testBit_eq fun i => ?_)
  exact h ⟨k, hk⟩ i

private theorem bit_of_le (hi : 32 ≤ i) : r.bit k i = false :=
  Nat.testBit_lt_two_pow (Nat.lt_of_lt_of_le (r.er.get k).toNat_lt (Nat.pow_le_pow_right (by decide) hi))

/-- A write to one register leaves the others alone. -/
theorem er_writeLong_of_ne {id : UInt8} (value : UInt32) (h : cell id ≠ k) :
    (r.writeLong id value).er.get k = r.er.get k :=
  Vector.getElem_set_ne (cell id).isLt k.isLt fun he => h (Fin.ext he)

theorem er_write_of_ne {width : Width} {id : UInt8} (value : UInt32) (h : cell id ≠ k) :
    (r.write width id value).er.get k = r.er.get k := by
  cases width with
  | byte => exact er_writeLong_of_ne _ h
  | word => exact er_writeLong_of_ne _ h
  | long => exact er_writeLong_of_ne _ h

theorem readLong_writeLong (id : UInt8) (value : UInt32) : (r.writeLong id value).readLong id = value :=
  Vector.getElem_set_self _

theorem readByte_writeByte (id value : UInt8) : (r.writeByte id value).readByte id = value := by
  have hlow : (0xFFFFFF00 : UInt32).toUInt8 = 0 := rfl
  have hhigh : ((0xFFFF00FF : UInt32) >>> 8).toUInt8 = 0 := rfl
  have hback : (value.toUInt32 <<< 8 >>> 8).toUInt8 = value := by
    have h := value.toNat_lt
    apply UInt8.toNat_inj.1
    simp [Nat.shiftLeft_eq, Nat.shiftRight_eq_div_pow]
    omega
  unfold readByte writeByte replaceBits
  rw [readLong_writeLong]
  split
  · rw [UInt32.toUInt8_or, UInt32.toUInt8_and, hlow, UInt8.toUInt8_toUInt32, UInt8.and_zero, UInt8.zero_or]
  · rw [UInt32.shiftRight_or, UInt32.shiftRight_and, UInt32.toUInt8_or, UInt32.toUInt8_and, hhigh, hback, UInt8.and_zero,
      UInt8.zero_or]

/-- A bit that is kept, and not set by what takes the place of the others. -/
private theorem bit_replaceBits {id : UInt8} {keep value : UInt32} (hkeep : keep.toNat.testBit i = true)
    (hvalue : value.toNat.testBit i = false) :
    (r.writeLong id (replaceBits (r.readLong id) keep value)).bit (cell id) i = r.bit (cell id) i := by
  have he : (r.writeLong id (replaceBits (r.readLong id) keep value)).er.get (cell id) =
      replaceBits (r.readLong id) keep value := readLong_writeLong id _
  have hr : (r.readLong id).toNat = (r.er.get (cell id)).toNat := rfl
  unfold bit
  rw [he, replaceBits, UInt32.toNat_or, UInt32.toNat_and, Nat.testBit_or, Nat.testBit_and, hkeep, hvalue, hr]
  simp

/-- A value of `w` bits that was shifted up has no bits beside them. -/
private theorem testBit_shifted {value : UInt32} {w : Nat} (low : Nat) (hv : value.toNat < 2 ^ w) (hlow : low < 32)
    (hi : i < low ∨ low + w ≤ i) : (value <<< low.toUInt32).toNat.testBit i = false := by
  have hl : low.toUInt32.toNat % 32 = low := by
    simp
    omega
  rw [UInt32.toNat_shiftLeft, hl, Nat.testBit_mod_two_pow, Nat.testBit_shiftLeft]
  rcases hi with hi | hi
  · simp [hi]
  · have hhigh : value.toNat.testBit (i - low) = false :=
      Nat.testBit_lt_two_pow (Nat.lt_of_lt_of_le hv (Nat.pow_le_pow_right (by decide) (by omega)))
    simp [hhigh]

private theorem testBit_byteMask : ∀ i < 32, ¬(8 ≤ i ∧ i < 16) → (0xFFFF00FF : UInt32).toNat.testBit i = true := by
  decide

private theorem testBit_secondByteMask : ∀ i < 32, ¬i < 8 → (0xFFFFFF00 : UInt32).toNat.testBit i = true := by decide

private theorem testBit_wordMask : ∀ i < 32, ¬i < 16 → (0xFFFF0000 : UInt32).toNat.testBit i = true := by decide

private theorem testBit_secondWordMask : ∀ i < 32, ¬16 ≤ i → (0x0000FFFF : UInt32).toNat.testBit i = true := by decide

private theorem bit_writeByte {id value : UInt8} (h : ¬View.Holds ⟨.byte, id⟩ (cell id) i) (hi : i < 32) :
    (r.writeByte id value).bit (cell id) i = r.bit (cell id) i := by
  have hv : value.toUInt32.toNat < 2 ^ 8 := by simpa using value.toNat_lt
  simp only [View.Holds, View.low, Width.bits, true_and] at h
  unfold writeByte
  split at h
  · next hs =>
    have hout : ¬i < 8 := by simpa using h
    rw [if_pos hs]
    refine bit_replaceBits (testBit_secondByteMask i hi hout) ?_
    simpa using testBit_shifted 0 hv (by decide) (.inr (by omega))
  · next hs =>
    have hout : ¬(8 ≤ i ∧ i < 16) := by simpa using h
    rw [if_neg hs]
    exact bit_replaceBits (testBit_byteMask i hi hout) (testBit_shifted 8 hv (by decide) (by omega))

private theorem bit_writeWord {id : UInt8} {value : UInt16} (h : ¬View.Holds ⟨.word, id⟩ (cell id) i) (hi : i < 32) :
    (r.writeWord id value).bit (cell id) i = r.bit (cell id) i := by
  have hv : value.toUInt32.toNat < 2 ^ 16 := by simpa using value.toNat_lt
  simp only [View.Holds, View.low, Width.bits, true_and] at h
  unfold writeWord
  split at h
  · next hs =>
    have hout : ¬16 ≤ i := fun hge => h ⟨hge, by simpa using hi⟩
    rw [if_pos hs]
    exact bit_replaceBits (testBit_secondWordMask i hi hout) (testBit_shifted 16 hv (by decide) (by omega))
  · next hs =>
    have hout : ¬i < 16 := by simpa using h
    rw [if_neg hs]
    refine bit_replaceBits (testBit_wordMask i hi hout) ?_
    simpa using testBit_shifted 0 hv (by decide) (.inr (by omega))

/-- A write to a view leaves all bits beside it alone. -/
theorem bit_write_of_not_holds {width : Width} {id : UInt8} (value : UInt32) (h : ¬View.Holds ⟨width, id⟩ k i) :
    (r.write width id value).bit k i = r.bit k i := by
  by_cases hi : 32 ≤ i
  · rw [bit_of_le hi, bit_of_le hi]
  · by_cases hk : cell id = k
    · subst hk
      cases width with
      | byte => exact bit_writeByte h (by omega)
      | word => exact bit_writeWord h (by omega)
      | long => exact absurd (View.holds_long rfl (by omega)) h
    · unfold bit
      rw [er_write_of_ne value hk]

/-! ### What a view reads and writes -/

/-- What is read of a view are the bits of the register from its lowest on. -/
theorem read_toNat (width : Width) (id : UInt8) :
    (r.read width id).toNat =
      (r.er.get (cell id)).toNat >>> View.low ⟨width, id⟩ % 2 ^ width.bits.toNat := by
  have hr : (r.readLong id).toNat = (r.er.get (cell id)).toNat := rfl
  rw [← hr]
  cases width with
  | byte =>
    show (r.readByte id).toUInt32.toNat = _ >>> (if second id then 0 else 8) % 2 ^ 8
    unfold readByte
    split
    · simp
    · simp
  | word =>
    show (r.readWord id).toUInt32.toNat = _ >>> (if second id then 16 else 0) % 2 ^ 16
    unfold readWord
    split
    · simp
    · simp
  | long => exact (Nat.mod_eq_of_lt (r.readLong id).toNat_lt).symm

theorem testBit_read (width : Width) (id : UInt8) (i : Nat) :
    (r.read width id).toNat.testBit i =
      (decide (i < width.bits.toNat) && r.bit (cell id) (View.low ⟨width, id⟩ + i)) := by
  rw [read_toNat, Nat.testBit_mod_two_pow, Nat.testBit_shiftRight]
  rfl

/-- A bit that a view holds is read through it. -/
theorem bit_of_holds {width : Width} {id : UInt8} (h : View.Holds ⟨width, id⟩ k i) :
    r.bit k i = (r.read width id).toNat.testBit (i - View.low ⟨width, id⟩) := by
  obtain ⟨rfl, hlow, hhigh⟩ := h
  have hin : i - View.low ⟨width, id⟩ < width.bits.toNat := by
    simp only at hhigh
    omega
  rw [testBit_read, decide_eq_true hin, Bool.true_and, Nat.add_sub_cancel' hlow]

/-- A bit that is not kept is that of what takes its place. -/
private theorem bit_replaced {id : UInt8} {keep value : UInt32} (hkeep : keep.toNat.testBit i = false) :
    (r.writeLong id (replaceBits (r.readLong id) keep value)).bit (cell id) i = value.toNat.testBit i := by
  have he : (r.writeLong id (replaceBits (r.readLong id) keep value)).er.get (cell id) =
      replaceBits (r.readLong id) keep value := readLong_writeLong id _
  unfold bit
  rw [he, replaceBits, UInt32.toNat_or, UInt32.toNat_and, Nat.testBit_or, Nat.testBit_and, hkeep, Bool.and_false,
    Bool.false_or]

/-- The bits of a value that was shifted up. -/
private theorem testBit_moved {value : UInt32} {low : Nat} (hlow : low < 32) (hi : low ≤ i) (hi' : i < 32) :
    (value <<< low.toUInt32).toNat.testBit i = value.toNat.testBit (i - low) := by
  have hl : low.toUInt32.toNat % 32 = low := by
    simp
    omega
  rw [UInt32.toNat_shiftLeft, hl, Nat.testBit_mod_two_pow, Nat.testBit_shiftLeft]
  simp [hi, hi']

private theorem testBit_byteMask_clear : ∀ i < 16, 8 ≤ i → (0xFFFF00FF : UInt32).toNat.testBit i = false := by decide

private theorem testBit_secondByteMask_clear : ∀ i < 8, (0xFFFFFF00 : UInt32).toNat.testBit i = false := by decide

private theorem testBit_wordMask_clear : ∀ i < 16, (0xFFFF0000 : UInt32).toNat.testBit i = false := by decide

private theorem testBit_secondWordMask_clear : ∀ i < 32, 16 ≤ i → (0x0000FFFF : UInt32).toNat.testBit i = false := by
  decide

private theorem testBit_toUInt8 (value : UInt32) (hi : i < 8) :
    value.toUInt8.toUInt32.toNat.testBit i = value.toNat.testBit i := by
  have e : value.toUInt8.toUInt32.toNat = value.toNat % 2 ^ 8 := by simp
  rw [e, Nat.testBit_mod_two_pow]
  simp [hi]

private theorem testBit_toUInt16 (value : UInt32) (hi : i < 16) :
    value.toUInt16.toUInt32.toNat.testBit i = value.toNat.testBit i := by
  have e : value.toUInt16.toUInt32.toNat = value.toNat % 2 ^ 16 := by simp
  rw [e, Nat.testBit_mod_two_pow]
  simp [hi]

/-- A write puts the bits of the value into the view. -/
theorem bit_write_of_holds {width : Width} {id : UInt8} (value : UInt32) (h : View.Holds ⟨width, id⟩ k i) :
    (r.write width id value).bit k i = value.toNat.testBit (i - View.low ⟨width, id⟩) := by
  obtain ⟨rfl, hlow, hhigh⟩ := h
  cases width with
  | byte =>
    simp only [View.low, Width.bits] at hlow hhigh ⊢
    show (r.writeByte id value.toUInt8).bit (cell id) i = _
    unfold writeByte
    split at hlow
    · next hs =>
      have hi : i < 8 := by simpa [hs] using hhigh
      rw [if_pos hs, if_pos hs, bit_replaced (testBit_secondByteMask_clear i hi)]
      exact testBit_toUInt8 value hi
    · next hs =>
      have hi : i < 16 := by simpa [hs] using hhigh
      rw [if_neg hs, if_neg hs, bit_replaced (testBit_byteMask_clear i hi hlow)]
      exact (testBit_moved (by decide) hlow (by omega)).trans (testBit_toUInt8 value (by omega))
  | word =>
    simp only [View.low, Width.bits] at hlow hhigh ⊢
    show (r.writeWord id value.toUInt16).bit (cell id) i = _
    unfold writeWord
    split at hlow
    · next hs =>
      have hi : i < 32 := by simpa [hs] using hhigh
      rw [if_pos hs, if_pos hs, bit_replaced (testBit_secondWordMask_clear i hi hlow)]
      exact (testBit_moved (by decide) hlow hi).trans (testBit_toUInt16 value (by omega))
    · next hs =>
      have hi : i < 16 := by simpa [hs] using hhigh
      rw [if_neg hs, if_neg hs, bit_replaced (testBit_wordMask_clear i hi)]
      exact testBit_toUInt16 value hi
  | long =>
    have he : (r.writeLong id value).er.get (cell id) = value := readLong_writeLong id value
    show (r.writeLong id value).bit (cell id) i = _
    unfold bit
    rw [he]
    rfl

theorem bit_write (width : Width) (id : UInt8) (value : UInt32) (k : Fin 8) (i : Nat) :
    (r.write width id value).bit k i =
      if View.Holds ⟨width, id⟩ k i then value.toNat.testBit (i - View.low ⟨width, id⟩) else r.bit k i := by
  split
  · next h => exact bit_write_of_holds value h
  · next h => exact bit_write_of_not_holds value h

theorem testBit_and_mask (value : UInt32) (width : Width) (i : Nat) :
    (value &&& width.mask).toNat.testBit i = (decide (i < width.bits.toNat) && value.toNat.testBit i) := by
  rw [UInt32.toNat_and, ← Nat.testBit_mod_two_pow]
  congr 1
  cases width with
  | byte => exact Nat.and_two_pow_sub_one_eq_mod value.toNat 8
  | word => exact Nat.and_two_pow_sub_one_eq_mod value.toNat 16
  | long => exact Nat.and_two_pow_sub_one_eq_mod value.toNat 32

/-- What was written to a view is read from it. -/
theorem read_write (width : Width) (id : UInt8) (value : UInt32) :
    (r.write width id value).read width id = value &&& width.mask := by
  refine UInt32.toNat_inj.1 (Nat.eq_of_testBit_eq fun i => ?_)
  rw [testBit_read, testBit_and_mask]
  by_cases hi : i < width.bits.toNat
  · have hh : View.Holds ⟨width, id⟩ (cell id) (View.low ⟨width, id⟩ + i) := ⟨rfl, by omega, by simp only; omega⟩
    rw [bit_write_of_holds value hh, Nat.add_sub_cancel_left]
  · simp [hi]

/-- A view of another register reads as before. -/
theorem read_write_of_ne {width width' : Width} {id id' : UInt8} (value : UInt32) (h : cell id ≠ cell id') :
    (r.write width id value).read width' id' = r.read width' id' := by
  have hl : (r.write width id value).readLong id' = r.readLong id' := er_write_of_ne value h
  cases width' with
  | byte => simp only [read, readByte, hl]
  | word => simp only [read, readWord, hl]
  | long => exact hl

/-- So does it when the other register is written as a whole. -/
theorem read_writeLong_of_ne {width : Width} {p id : UInt8} (value : UInt32) (h : cell id ≠ cell p) :
    (r.writeLong p value).read width id = r.read width id := by
  have hl : (r.write .long p value).read width id = r.read width id := read_write_of_ne value h.symm
  exact hl

theorem bit_writeLong_of_ne {p : UInt8} (value : UInt32) (h : k ≠ cell p) :
    (r.writeLong p value).bit k i = r.bit k i := by
  unfold bit
  rw [er_writeLong_of_ne value h.symm]

theorem readLong_write_of_ne {width : Width} {p id : UInt8} (value : UInt32) (h : cell id ≠ cell p) :
    (r.write width id value).readLong p = r.readLong p := er_write_of_ne value h

/-- What is read depends on the eight registers only. -/
theorem read_congr {r' : Registers} (h : r'.er = r.er) (width : Width) (id : UInt8) :
    r'.read width id = r.read width id := by
  have hl : r'.readLong id = r.readLong id := congrArg (fun er => er[cell id]) h
  cases width with
  | byte => simp only [read, readByte, hl]
  | word => simp only [read, readWord, hl]
  | long => exact hl

theorem er_write_congr {r' : Registers} (h : r'.er = r.er) (width : Width) (id : UInt8) (value : UInt32) :
    (r'.write width id value).er = (r.write width id value).er := by
  refine er_ext fun k i => ?_
  have hb : r'.bit k i = r.bit k i := by
    unfold bit
    rw [h]
  rw [bit_write, bit_write, hb]

theorem commit_er (width : Width) (id : UInt8) (result : Alu.Result) :
    (r.commit width id result).er = (r.write width id result.value).er := by
  have h : ({ r with ccr := result.flags } : Registers).er = r.er := rfl
  exact er_write_congr h width id result.value

/-- A write goes to the eight registers only. -/
theorem write_eq (width : Width) (id : UInt8) (value : UInt32) :
    r.write width id value = { r with er := (r.write width id value).er } := by
  cases width <;> rfl

/-- Writing back what a view reads changes nothing. -/
theorem write_read (width : Width) (id : UInt8) : r.write width id (r.read width id) = r := by
  have he : (r.write width id (r.read width id)).er = r.er := by
    refine er_ext fun k i => ?_
    rw [bit_write]
    split
    · next h => exact (bit_of_holds h).symm
    · rfl
  rw [write_eq, he]

/-- Of two writes to a view the second counts. -/
theorem write_write (width : Width) (id : UInt8) (a b : UInt32) :
    (r.write width id a).write width id b = r.write width id b := by
  have he : ((r.write width id a).write width id b).er = (r.write width id b).er := by
    refine er_ext fun k i => ?_
    rw [bit_write, bit_write, bit_write]
    split <;> rfl
  rw [write_eq, he, write_eq width id b, write_eq width id a]

/-- Registers that differ in the program counter and the flags alone. -/
theorem eq_of_er {r' : Registers} (her : r.er = r'.er) (hexr : r.exr = r'.exr) :
    r = { r' with pc := r.pc, ccr := r.ccr } := by
  cases r
  cases her
  cases hexr
  rfl

/-- What is in the registers after a result was taken into a view, wherever the program counter points. -/
structure Committed (r r' : Registers) (width : Width) (id : UInt8) (result : Alu.Result) : Prop where
  er : r'.er = (r.write width id result.value).er
  ccr : r'.ccr = result.flags
  exr : r'.exr = r.exr
  view : r'.read width id = result.value &&& width.mask

theorem committed_commit (r : Registers) (pc : UInt32) (width : Width) (id : UInt8) (result : Alu.Result) :
    Committed r (commit { r with pc := pc } width id result) width id result := by
  have hpc : ({ r with pc := pc } : Registers).er = r.er := rfl
  have her : (commit { r with pc := pc } width id result).er = (r.write width id result.value).er := by
    rw [commit_er, er_write_congr hpc]
  refine ⟨her, commit_ccr .., commit_exr .., ?_⟩
  rw [read_congr her, read_write]

/-- All bits beside the view are as before. -/
theorem Committed.bit {r' : Registers} {width : Width} {id : UInt8} {result : Alu.Result} (h : Committed r r' width id result)
    (hn : ¬View.Holds ⟨width, id⟩ k i) : r'.bit k i = r.bit k i := by
  have hsame : r'.bit k i = (r.write width id result.value).bit k i := congrArg (fun er => (er.get k).toNat.testBit i) h.er
  rw [hsame, bit_write_of_not_holds result.value hn]

/-- Views of other registers read as before. -/
theorem Committed.read_of_ne {r' : Registers} {width width' : Width} {id id' : UInt8} {result : Alu.Result}
    (h : Committed r r' width id result) (hne : cell id ≠ cell id') : r'.read width' id' = r.read width' id' :=
  (read_congr h.er width' id').trans (read_write_of_ne result.value hne)

/-- Where the view reads as before, all eight registers are as before. -/
theorem Committed.er_eq {r' : Registers} {width : Width} {id : UInt8} {result : Alu.Result}
    (h : Committed r r' width id result) (hv : r'.read width id = r.read width id) : r'.er = r.er := by
  refine er_ext fun k i => ?_
  by_cases hh : View.Holds ⟨width, id⟩ k i
  · rw [bit_of_holds hh, bit_of_holds hh, hv]
  · exact h.bit hh

end Registers

end H8S
