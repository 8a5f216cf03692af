import H8S.Proofs.RegisterViews
import Mathlib.Data.Fin.Basic
import Mathlib.Data.Nat.Digits.Defs

/-!
# Sequences of register writes

Byte, word and long views lie over the same eight registers, so a write through one view shows in others.  What a sequence of
writes leaves behind can still be said byte by byte: a byte of a register is that of the last write whose view covers it
(`Registers.bytes_of_last_writes`), and what a view reads are the bytes that it covers.  Flags follow the same rule: each is
what the last write whose mask has it made of it.

Both are instances of one fact on writes that each set or keep what is observed (`foldl_last`).
-/

namespace H8S

/-- Where each write of a sequence puts a value into what is observed or leaves it, the last value that was put is seen in the
end, or the first one if none was. -/
theorem foldl_last {σ ω β : Type} {apply : σ → ω → σ} {puts : ω → Option β} (observe : σ → β)
    (h : ∀ s w, observe (apply s w) = (puts w).getD (observe s)) (s : σ) (ws : List ω) :
    observe (ws.foldl apply s) = (ws.reverse.findSome? puts).getD (observe s) := by
  induction ws generalizing s with
  | nil => rfl
  | cons w ws ih =>
    rw [List.foldl_cons, ih, h, List.reverse_cons, List.findSome?_append]
    cases ws.reverse.findSome? puts with
    | none => cases hw : puts w <;> simp [hw]
    | some b => rfl

/-! ### Bytes -/

/-- A byte of a word, byte 0 being its lowest. -/
def byteOf (value : UInt32) (j : Nat) : UInt8 := UInt8.ofNat (value.toNat >>> (8 * j))

theorem testBit_byteOf (value : UInt32) (j i : Nat) :
    (byteOf value j).toNat.testBit i = (decide (i < 8) && value.toNat.testBit (8 * j + i)) := by
  rw [byteOf, UInt8.toNat_ofNat', Nat.testBit_mod_two_pow, Nat.testBit_shiftRight]

namespace View

/-- The bytes of a register that a view covers, lowest first. -/
def bytes (v : View) : List (Fin 4) :=
  match v.width with
  | .byte => if v.id.toNat % 16 < 8 then [1] else [0]
  | .word => if v.id.toNat % 16 < 8 then [0, 1] else [2, 3]
  | .long => [0, 1, 2, 3]

/-- A view covers a byte of a register. -/
def Covers (v : View) (k : Fin 8) (j : Fin 4) : Prop := v.id.toNat % 8 = k ∧ j ∈ v.bytes

instance (v : View) (k : Fin 8) (j : Fin 4) : Decidable (v.Covers k j) := inferInstanceAs (Decidable (_ ∧ _))

private theorem second_iff (id : UInt8) : Registers.second id = true ↔ ¬id.toNat % 16 < 8 := by
  have h : ∀ v : BitVec 8, Registers.second ⟨v⟩ = true ↔ ¬(UInt8.ofBitVec v).toNat % 16 < 8 := by decide
  exact h id.toBitVec

/-- The bits and the bytes of the five kinds of views. -/
private theorem places (v : View) :
    v.low = 8 ∧ v.width.bits.toNat = 8 ∧ v.bytes = [1] ∨ v.low = 0 ∧ v.width.bits.toNat = 8 ∧ v.bytes = [0] ∨
      v.low = 0 ∧ v.width.bits.toNat = 16 ∧ v.bytes = [0, 1] ∨ v.low = 16 ∧ v.width.bits.toNat = 16 ∧ v.bytes = [2, 3] ∨
        v.low = 0 ∧ v.width.bits.toNat = 32 ∧ v.bytes = [0, 1, 2, 3] := by
  obtain ⟨width, id⟩ := v
  cases width with
  | byte => by_cases h : id.toNat % 16 < 8 <;> simp [low, bytes, second_iff, h, Width.bits]
  | word => by_cases h : id.toNat % 16 < 8 <;> simp [low, bytes, second_iff, h, Width.bits]
  | long => simp [low, bytes, Width.bits]

/-- The bits of a covered byte are held by the view, those of other bytes are not. -/
private theorem holds_iff_covers (v : View) (k : Fin 8) (j : Fin 4) {i : Nat} (hi : i < 8) :
    v.Holds k (8 * j + i) ↔ v.Covers k j := by
  refine and_congr Fin.ext_iff ?_
  rcases v.places with ⟨hl, hb, hy⟩ | ⟨hl, hb, hy⟩ | ⟨hl, hb, hy⟩ | ⟨hl, hb, hy⟩ | ⟨hl, hb, hy⟩
  all_goals
    rw [hl, hb, hy]
    simp only [List.mem_cons, List.not_mem_nil, or_false, Fin.ext_iff]
    omega

/-- Where a covered byte stands in the value of the view. -/
private theorem low_add_idxOf (v : View) : ∀ j ∈ v.bytes, v.low + 8 * v.bytes.idxOf j = 8 * j.val := by
  rcases v.places with ⟨hl, -, hy⟩ | ⟨hl, -, hy⟩ | ⟨hl, -, hy⟩ | ⟨hl, -, hy⟩ | ⟨hl, -, hy⟩
  all_goals
    rw [hl, hy]
    decide

end View

namespace Registers

variable {k : Fin 8} {j : Fin 4}

/-- A byte of one of the eight registers. -/
def byte (r : Registers) (k : Fin 8) (j : Fin 4) : UInt8 := byteOf (r.er.get k) j

private theorem testBit_byte (r : Registers) (k : Fin 8) (j : Fin 4) (i : Nat) :
    (r.byte k j).toNat.testBit i = (decide (i < 8) && r.bit k (8 * j + i)) := testBit_byteOf _ _ _

/-- A write replaces the bytes that its view covers by those of the value, and no other byte. -/
private theorem byte_write (r : Registers) (v : View) (value : UInt32) (k : Fin 8) (j : Fin 4) :
    (r.write v.width v.id value).byte k j = if v.Covers k j then byteOf value (v.bytes.idxOf j) else r.byte k j := by
  refine UInt8.toNat_inj.1 (Nat.eq_of_testBit_eq fun i => ?_)
  rw [testBit_byte]
  by_cases hi : i < 8
  · rw [bit_write]
    by_cases hc : v.Covers k j
    · have hplace : 8 * j + i - v.low = 8 * v.bytes.idxOf j + i := by
        have h := v.low_add_idxOf j hc.2
        omega
      rw [if_pos hc, if_pos ((v.holds_iff_covers k j hi).2 hc), testBit_byteOf, hplace]
    · rw [if_neg hc, if_neg fun h => hc ((v.holds_iff_covers k j hi).1 h), testBit_byte]
  · split
    · rw [testBit_byteOf]
      simp [hi]
    · rw [testBit_byte]
      simp [hi]

/-- What is read of a view is the number whose digits are the bytes that the view covers. -/
private theorem read_eq_ofDigits (r : Registers) (v : View) :
    (r.read v.width v.id).toNat = Nat.ofDigits 256 (v.bytes.map fun j => (r.byte (cell v.id) j).toNat) := by
  have hr : (r.er.get (cell v.id)).toNat < 2 ^ 32 := (r.er.get (cell v.id)).toNat_lt
  rw [read_toNat]
  rcases v.places with ⟨hl, hb, hy⟩ | ⟨hl, hb, hy⟩ | ⟨hl, hb, hy⟩ | ⟨hl, hb, hy⟩ | ⟨hl, hb, hy⟩
  all_goals simp [hl, hb, hy, Nat.ofDigits_cons, byte, byteOf, Nat.shiftRight_eq_div_pow]
  all_goals omega

end Registers

/-! ### Flags -/

namespace ConditionCodes

/-- A flag write changes the bits of its mask and no others. -/
private theorem testBit_assign (f : ConditionCodes) (mask : UInt8) (value : Bool) (p : Nat) :
    (f.assign mask value).toByte.toNat.testBit p = if mask.toNat.testBit p then value else f.toByte.toNat.testBit p := by
  rw [assign, toByte_ofByte]
  cases value with
  | true =>
    rw [if_pos rfl, UInt8.toNat_or, Nat.testBit_or]
    cases mask.toNat.testBit p <;> simp
  | false =>
    have hnot : (~~~mask).toNat = 2 ^ 8 - (mask.toNat + 1) := by
      have hsize : UInt8.size = 256 := rfl
      rw [UInt8.toNat_not, hsize]
      omega
    rw [if_neg (by decide), UInt8.toNat_and, Nat.testBit_and, hnot, Nat.testBit_two_pow_sub_succ mask.toNat_lt]
    by_cases hp : p < 8
    · cases mask.toNat.testBit p <;> simp [hp]
    · have hout : f.toByte.toNat.testBit p = false :=
        Nat.testBit_lt_two_pow (Nat.lt_of_lt_of_le f.toByte.toNat_lt (Nat.pow_le_pow_right (by decide) (by omega)))
      simp [hout]

private theorem testBit_flags : ∀ i ui h u n z v c : Bool,
    (List.range 8).map (toByte ⟨i, ui, h, u, n, z, v, c⟩).toNat.testBit = [c, v, z, n, u, h, ui, i] := by
  decide +kernel

/-- The bits of the byte are the flags that the arithmetic sets one by one. -/
private theorem testBit_toByte (f : ConditionCodes) :
    (List.range 8).map f.toByte.toNat.testBit = [f.c, f.v, f.z, f.n, f.u, f.h, f.ui, f.i] :=
  testBit_flags f.i f.ui f.h f.u f.n f.z f.v f.c

/-- The flags of a mask are set where all its bits are. -/
private theorem contains_iff (f : ConditionCodes) (mask : UInt8) :
    f.contains mask = true ↔ ∀ p, mask.toNat.testBit p = true → f.toByte.toNat.testBit p = true := by
  rw [contains, beq_iff_eq, ← UInt8.toNat_inj, UInt8.toNat_and]
  constructor
  · intro h p hp
    rw [← h, Nat.testBit_and] at hp
    exact (Bool.and_eq_true_iff.1 hp).1
  · intro h
    refine Nat.eq_of_testBit_eq fun p => ?_
    rw [Nat.testBit_and]
    cases hp : mask.toNat.testBit p with
    | false => exact Bool.and_false _
    | true => rw [h p hp, Bool.and_true]

end ConditionCodes

/-! ### Sequences -/

/-- A write to a view or to the flags of a mask. -/
inductive RegisterWrite where
  | view (v : View) (value : UInt32)
  | flags (mask : UInt8) (value : Bool)

namespace RegisterWrite

def apply (r : Registers) : RegisterWrite → Registers
  | .view v value => r.write v.width v.id value
  | .flags mask value => { r with ccr := r.ccr.assign mask value }

/-- What a write puts into a byte of the registers that it covers. -/
def puts (k : Fin 8) (j : Fin 4) : RegisterWrite → Option UInt8
  | .view v value => if v.Covers k j then some (byteOf value (v.bytes.idxOf j)) else none
  | .flags _ _ => none

/-- What a write makes of a bit of the condition codes that is in its mask. -/
def sets (p : Nat) : RegisterWrite → Option Bool
  | .view _ _ => none
  | .flags mask value => if mask.toNat.testBit p then some value else none

private theorem byte_apply (k : Fin 8) (j : Fin 4) (r : Registers) (w : RegisterWrite) :
    (w.apply r).byte k j = (w.puts k j).getD (r.byte k j) := by
  cases w with
  | view v value =>
    refine (r.byte_write v value k j).trans ?_
    rw [puts]
    split <;> rfl
  | flags mask value => rfl

private theorem ccr_apply (p : Nat) (r : Registers) (w : RegisterWrite) :
    ((w.apply r).control .ccr).toNat.testBit p = (w.sets p).getD ((r.control .ccr).toNat.testBit p) := by
  cases w with
  | view v value =>
    have h : (r.write v.width v.id value).ccr = r.ccr := r.write_ccr v.id v.width value
    exact congrArg (fun ccr : ConditionCodes => ccr.toByte.toNat.testBit p) h
  | flags mask value =>
    refine (r.ccr.testBit_assign mask value p).trans ?_
    rw [sets]
    split <;> rfl

private theorem apply_pc (r : Registers) (w : RegisterWrite) : (w.apply r).pc = r.pc := by
  cases w with
  | view v value => exact r.write_pc v.id v.width value
  | flags mask value => rfl

private theorem apply_exr (r : Registers) (w : RegisterWrite) : (w.apply r).exr = r.exr := by
  cases w with
  | view v value => exact r.write_exr v.id v.width value
  | flags mask value => rfl

end RegisterWrite

namespace Registers

/-- The registers after a sequence of writes. -/
def written (r : Registers) (ws : List RegisterWrite) : Registers := ws.foldl RegisterWrite.apply r

/-- What every write keeps is kept by a sequence of them. -/
private theorem written_keeps {γ : Type} {f : Registers → γ} (h : ∀ r w, f (RegisterWrite.apply r w) = f r)
    (r : Registers) (ws : List RegisterWrite) : f (r.written ws) = f r := by
  induction ws generalizing r with
  | nil => rfl
  | cons w ws ih => exact (ih (w.apply r)).trans (h r w)

/-- Whatever writes are made: each byte of the registers is that of the last write that covers it, or the first one if none
does, a view reads the bytes that it covers, and a flag is what the last write that has it in its mask made of it.  The program
counter and the extended control register stay. -/
theorem bytes_of_last_writes (r : Registers) (ws : List RegisterWrite) :
    (∀ k j, (r.written ws).byte k j = (ws.reverse.findSome? (·.puts k j)).getD (r.byte k j)) ∧
    (∀ v : View, ((r.written ws).read v.width v.id).toNat =
      Nat.ofDigits 256 (v.bytes.map fun j => ((r.written ws).byte (cell v.id) j).toNat)) ∧
    (r.written ws).pc = r.pc ∧ (r.written ws).exr = r.exr ∧
    (∀ p, ((r.written ws).control .ccr).toNat.testBit p =
      (ws.reverse.findSome? (·.sets p)).getD ((r.control .ccr).toNat.testBit p)) ∧
    (∀ mask, (r.written ws).ccr.contains mask = true ↔
      ∀ p, mask.toNat.testBit p = true → ((r.written ws).control .ccr).toNat.testBit p = true) ∧
    ∀ f : ConditionCodes, (List.range 8).map f.toByte.toNat.testBit = [f.c, f.v, f.z, f.n, f.u, f.h, f.ui, f.i] := by
  refine ⟨?_, read_eq_ofDigits _, written_keeps RegisterWrite.apply_pc r ws,
    written_keeps RegisterWrite.apply_exr r ws, ?_, ConditionCodes.contains_iff _, ConditionCodes.testBit_toByte⟩
  · intro k j
    exact foldl_last (fun r : Registers => r.byte k j) (RegisterWrite.byte_apply k j) r ws
  · intro p
    exact foldl_last (fun r : Registers => (r.control .ccr).toNat.testBit p) (RegisterWrite.ccr_apply p) r ws

end Registers

end H8S
