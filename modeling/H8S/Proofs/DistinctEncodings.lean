import H8S.Proofs.CanonicalEncodings

/-!
# Distinct encodings

Two byte strings of the same length are encodings of the same operation exactly if they agree in the bits that are not
ignored (`encodings_distinct`).  One direction is that an encoding without the ignored bits is canonical.  For the other
the pages are gone through again: where an operation ignores nothing there is no other string to speak of, and where it
does, the tree below the ignored byte does not depend on it (`Operation.Indifferent`).

The top byte of an address is ignored on purpose.  The top bit of the base before a 32-bit displacement of a control register
is the one bit that is ignored although nothing is to be read there, so that such moves have two encodings
(`control_displaced_twice`).
-/

namespace H8S

open Encoding

/-- Bytes that differ only in what is ignored lead to the same end. -/
def Operation.Indifferent (start : UInt32) (bytes : List UInt8) (op : Operation) : Prop :=
  ∀ other : List UInt8, other.length = bytes.length → op.withoutIgnored other = op.withoutIgnored bytes →
    (Decoding.operation start).feed other = (Decoding.operation start).feed bytes

namespace Decoding

open Operation

variable {start : UInt32}

/-! ### Pages that ignore nothing -/

private theorem smallSteps_indifferent (b : UInt8) (pointer : UInt8 → UInt8 → Operation)
    (counter : Width → UInt8 → UInt8 → Operation)
    (hp : ∀ amount dst bytes, (pointer amount dst).withoutIgnored bytes = bytes)
    (hc : ∀ width amount dst bytes, (counter width amount dst).withoutIgnored bytes = bytes) :
    Leaves (Indifferent start) [b] (smallSteps pointer counter) := by
  simp only [smallSteps, leaves_bind, leaves_next]
  intro c
  split <;> simp +contextual [Indifferent, hp, hc]

private theorem page0_indifferent (code : UInt8) (h₁ : Leaves (Indifferent start) [0x01] page01) :
    Leaves (Indifferent start) [halves 0 code] (page0 code) := by
  unfold page0
  split
  case h_2 => exact h₁
  case h_3 | h_4 =>
    simp only [controlAndRegister, leaves_bind, leaves_next]
    intro c
    split <;> simp +contextual [Indifferent, withoutIgnored]
  case h_12 => exact smallSteps_indifferent _ _ _ (fun _ _ _ => rfl) fun _ _ _ _ => rfl
  all_goals simp +contextual [aluRegisters, byteOrLongs, longPair, Indifferent, withoutIgnored]

private theorem page1_indifferent (code b : UInt8) : Leaves (Indifferent start) [b] (page1 code) := by
  unfold page1
  split
  case h_1 | h_2 | h_3 | h_4 =>
    simp only [shift, leaves_bind, leaves_next]
    intro c
    split <;> simp +contextual [Indifferent, withoutIgnored]
  case h_8 =>
    simp only [unary, leaves_bind, leaves_next]
    intro c
    split <;> simp +contextual [Indifferent, withoutIgnored]
  case h_12 => exact smallSteps_indifferent _ _ _ (fun _ _ _ => rfl) fun _ _ _ _ => rfl
  all_goals simp +contextual [aluRegisters, byteOrLongs, longPair, Indifferent, withoutIgnored]

private theorem page5_indifferent (code b : UInt8) : Leaves (Indifferent start) [b] (page5 start code) := by
  unfold page5
  split
  case h_11 | h_12 | h_13 | h_14 =>
    rw [leaves_bind]
    unfold jumpTarget
    split <;> simp +contextual [Indifferent, withoutIgnored]
  all_goals simp +contextual [mulDiv, signedByte, signedWord, Indifferent, withoutIgnored]

/-! ### Addresses of 32 bits -/

private theorem eq_of_set {bytes rest other : List UInt8} {a v : UInt8}
    (hlen : other.length = (bytes ++ a :: rest).length)
    (h : other.set bytes.length v = (bytes ++ a :: rest).set bytes.length v) : ∃ b, other = bytes ++ b :: rest := by
  have hlt : bytes.length < other.length := by
    rw [hlen]
    simp
  rw [List.set_append_right _ _ (Nat.le_refl _), Nat.sub_self, List.set_cons_zero, List.set_eq_take_append_cons_drop,
    if_pos hlt] at h
  obtain ⟨ht, hd⟩ := List.append_inj h (by simp; omega)
  have hsplit : other = other.take bytes.length ++ other[bytes.length] :: other.drop (bytes.length + 1) := by
    rw [← List.drop_eq_getElem_cons hlt, List.take_append_drop]
  generalize other[bytes.length] = b at hsplit
  rw [ht, (List.cons.inj hd).2] at hsplit
  exact ⟨b, hsplit⟩

/-- The bytes after an address do not depend on its top byte. -/
private theorem address32_indifferent {bytes : List UInt8} {f : UInt32 → Decoding Operation}
    (h : (operation start).feed bytes = some (address32 >>= f))
    (hf : ∀ a b c d v, Leaves (fun all op => ∀ other : List UInt8, other.length = all.length →
      op.withoutIgnored other = other.set bytes.length 0) (bytes ++ [a, b, c, d]) (f v)) :
    Leaves (Indifferent start) bytes (address32 >>= f) := by
  rw [leaves_iff_feed]
  intro rest op hop
  match rest, hop with
  | [], hop => cases hop
  | [_], hop => cases hop
  | [_, _], hop => cases hop
  | [_, _, _], hop => cases hop
  | a :: b :: c :: d :: rest, hop =>
    have hset := leaves_iff_feed.1 (hf a b c d _) rest op hop
    have happ : bytes ++ [a, b, c, d] ++ rest = bytes ++ a :: b :: c :: d :: rest := List.append_assoc ..
    rw [happ] at hset
    intro other hlen hother
    rw [hset _ hlen, hset _ rfl] at hother
    obtain ⟨a', rfl⟩ := eq_of_set hlen hother
    rw [feed_append, feed_append, h]
    show (f _).feed rest = (f _).feed rest
    rw [trunc_long a' a]

private theorem memoryBit_bits {place : MemOperand} {writes : Bool} {bytes : List UInt8} :
    Leaves (fun all op => all.length = bytes.length + 2 ∧ ∃ o n, op = .bit o n (.mem place)) bytes
      (memoryBit place writes) := by
  cases writes with
  | true =>
    simp only [memoryBit, if_true, writingMemoryBit, leaves_bind, leaves_next, leaves_require]
    intro c d _
    split <;> simp
  | false =>
    simp only [memoryBit, Bool.false_eq_true, if_false, testingMemoryBit, leaves_bind, leaves_next, leaves_require]
    intro c d _
    split <;> simp

private theorem memoryBit_indifferent {place : MemOperand} {writes : Bool} {bytes : List UInt8}
    (h : ∀ o n (all : List UInt8), all.length = bytes.length + 2 → (bit o n (.mem place)).withoutIgnored all = all) :
    Leaves (Indifferent start) bytes (memoryBit place writes) := by
  refine memoryBit_bits.imp ?_
  rintro all op ⟨hall, o, n, rfl⟩ other hlen hother
  rw [h o n other (hlen.trans hall), h o n all hall] at hother
  rw [hother]

/-! ### Pages of moves -/

private theorem wordAbsolute_indifferent : Leaves (Indifferent start) [0x6B] wordAbsolute := by
  simp only [wordAbsolute, leaves_bind, leaves_next]
  intro b
  split
  case h_1 | h_2 => simp +contextual [address16, signedWord, Indifferent, withoutIgnored_transfer, clearAt]
  case h_3 | h_4 =>
    refine address32_indifferent ?_ (by simp +contextual [withoutIgnored_transfer, clearAt])
    show wordAbsolute.feed [b] = _
    simp [wordAbsolute, ‹highNibble b = _›]
  case h_5 => trivial

private theorem byteAbsolute_indifferent : Leaves (Indifferent start) [0x6A] byteAbsolute := by
  simp only [byteAbsolute, leaves_bind, leaves_next]
  intro b
  split
  case h_1 | h_2 => simp +contextual [address16, signedWord, Indifferent, withoutIgnored_transfer, clearAt]
  case h_3 | h_4 =>
    refine address32_indifferent ?_ (by simp +contextual [withoutIgnored_transfer, clearAt])
    show byteAbsolute.feed [b] = _
    simp [byteAbsolute, ‹highNibble b = _›]
  case h_5 =>
    simp only [address16, signedWord, leaves_bind, leaves_require, leaves_word, leaves_pure]
    intro _ hi lo
    exact memoryBit_indifferent (by simp +contextual [withoutIgnored, clearAt])
  case h_6 =>
    rw [leaves_bind, leaves_require]
    intro hl
    refine address32_indifferent ?_ fun _ _ _ _ _ => memoryBit_bits.imp ?_
    · show byteAbsolute.feed [b] = _
      simp [byteAbsolute, ‹highNibble b = _›, feed_require hl]
    · rintro all op ⟨hall, o, n, rfl⟩ other hlen
      simp [withoutIgnored, clearAt, hlen, hall]
  case h_7 => trivial

private theorem page6_indifferent (code : UInt8) : Leaves (Indifferent start) [halves 6 code] (page6 code) := by
  unfold page6
  split
  case h_9 => exact byteAbsolute_indifferent
  case h_10 => exact wordAbsolute_indifferent
  case h_11 =>
    simp only [leaves_bind, leaves_next]
    intro r
    split
    case h_3 | h_4 => simp +contextual [Indifferent, withoutIgnored_stepping]
    all_goals simp +contextual [signedWord, Indifferent, withoutIgnored_transfer]
  all_goals simp +contextual [indexedRegisterBit, aluRegisters, carryIntoRegisterBit, Indifferent, withoutIgnored]

private theorem page7_indifferent (code b : UInt8) : Leaves (Indifferent start) [b] (page7 code) := by
  unfold page7
  split
  case h_1 => simp +contextual [displaced32, Indifferent, withoutIgnored_transfer]
  case h_2 | h_3 =>
    simp only [immediate, leaves_bind, leaves_next, leaves_require]
    intro c _
    split
    · trivial
    · next op _ => cases op <;> simp +contextual [Indifferent, withoutIgnored]
  case h_4 =>
    simp only [blockMove, leaves_bind, leaves_next]
    intro c
    split <;> simp +contextual [Indifferent, withoutIgnored]
  case h_5 | h_6 =>
    simp only [leaves_bind, leaves_next, leaves_require]
    intro c _
    exact memoryBit_indifferent fun _ _ _ _ => rfl
  case h_7 | h_8 =>
    simp only [leaves_bind, leaves_next]
    intro c
    exact memoryBit_indifferent (by simp +contextual [withoutIgnored, clearAt])
  case h_9 => simp +contextual [numberedRegisterBit, Indifferent, withoutIgnored]

/-! ### The page after `01` -/

private theorem longMove_indifferent : Leaves (Indifferent start) [0x01, 0x00] longMove := by
  simp only [longMove, leaves_bind, leaves_next]
  intro c d
  split
  case h_1 =>
    rw [leaves_bind, leaves_require]
    intro hd
    by_cases h : d &&& 0x20 = 0
    · simp +contextual [h, address16, signedWord, Indifferent, withoutIgnored_transfer, clearAt]
    · have hc : (d &&& 0x20 != 0) = true := by simpa using h
      rw [if_pos hc]
      refine address32_indifferent ?_ (by simp +contextual [withoutIgnored_transfer, clearAt])
      show longMove.feed [0x6B, d] = _
      simp [longMove, feed_require hd, h]
  case h_3 => simp +contextual [Indifferent, withoutIgnored_stepping]
  case h_6 => trivial
  all_goals simp +contextual [longDisplaced32, signedWord, Indifferent, withoutIgnored_transfer]

private theorem feed_controlByte (reg : ControlReg) :
    (operation start).feed [0x01, controlByte reg] = some (controlPage reg) := by
  cases reg <;> rfl

/-- What a byte with a base says without its top bit. -/
private theorem base_byte : ∀ b, lowNibble (b &&& 0x7F) = lowNibble b ∧ highThree (b &&& 0x7F) = highThree b :=
  forall_byte (by decide)

private theorem eq_of_modify {a b c d : UInt8} {rest other : List UInt8} {f : UInt8 → UInt8}
    (h : other.modify 3 f = (a :: b :: c :: d :: rest).modify 3 f) : ∃ y, other = a :: b :: c :: y :: rest ∧ f y = f d := by
  rcases other with _ | ⟨x₀, _ | ⟨x₁, _ | ⟨x₂, _ | ⟨y, other⟩⟩⟩⟩ <;> simp at h
  obtain ⟨rfl, rfl, rfl, hy, rfl⟩ := h
  exact ⟨y, rfl, hy⟩

private theorem controlMemory_indifferent (reg : ControlReg) (c d : UInt8)
    (h : ∀ d, (controlPage reg).feed [c, d] = some (controlMemory reg c d)) :
    Leaves (Indifferent start) [0x01, controlByte reg, c, d] (controlMemory reg c d) := by
  have hroot : ∀ d, (operation start).feed [0x01, controlByte reg, c, d] = some (controlMemory reg c d) := by
    intro d
    have happ := feed_append (operation start) [0x01, controlByte reg] [c, d]
    rw [feed_controlByte] at happ
    exact happ.trans (h d)
  revert hroot
  unfold controlMemory
  split
  case h_1 =>
    intro hroot
    rw [leaves_bind, leaves_require]
    intro hd
    by_cases h : d &&& 0x20 = 0
    · simp +contextual [h, address16, signedWord, Indifferent, withoutIgnored_controlTransfer, clearAt]
    · have hc : (d &&& 0x20 != 0) = true := by simpa using h
      have hroot := hroot d
      simp only [hc, if_true] at hroot ⊢
      refine address32_indifferent ?_ (by simp +contextual [withoutIgnored_controlTransfer, clearAt])
      rw [hroot, hd]
      rfl
  case h_2 => simp +contextual [Indifferent, withoutIgnored_controlStepping]
  case h_5 =>
    simp only [leaves_bind, leaves_next, leaves_require, leaves_long, leaves_pure]
    intro hroot hd e f hf x₁ x₂ x₃ x₄ other hlen h
    simp only [withoutIgnored_controlTransfer, hlen] at h
    obtain ⟨y, rfl, hy⟩ := eq_of_modify h
    have hlow : lowNibble y = lowNibble d := by rw [← (base_byte d).1, ← hy, (base_byte y).1]
    have hhigh : highThree y = highThree d := by rw [← (base_byte d).2, ← hy, (base_byte y).2]
    have h₁ := feed_append (operation start) [0x01, controlByte reg, 0x78, y] [e, f, x₁, x₂, x₃, x₄]
    have h₂ := feed_append (operation start) [0x01, controlByte reg, 0x78, d] [e, f, x₁, x₂, x₃, x₄]
    rw [hroot, hlow, hhigh] at h₁
    rw [hroot] at h₂
    exact h₁.trans h₂.symm
  case h_6 =>
    intro
    trivial
  all_goals simp +contextual [signedWord, Indifferent, withoutIgnored_controlTransfer]

private theorem controlPage_indifferent (reg : ControlReg) :
    Leaves (Indifferent start) [0x01, controlByte reg] (controlPage reg) := by
  simp only [controlPage, leaves_bind, leaves_next]
  intro c d
  split
  case h_5 => exact controlMemory_indifferent reg c d fun d => by simp [controlPage]
  all_goals simp +contextual [Indifferent, withoutIgnored]

private theorem page01_indifferent : Leaves (Indifferent start) [0x01] page01 := by
  simp only [page01, leaves_bind, leaves_next]
  intro b
  split
  case h_1 =>
    simp only [leaves_bind, leaves_require, beq_iff_eq]
    rintro rfl
    exact longMove_indifferent
  case h_5 =>
    have hb := halves_of_high ‹highNibble b = _›
    split
    · rw [‹lowNibble b = _›] at hb
      exact hb ▸ controlPage_indifferent .ccr
    · rw [‹lowNibble b = _›] at hb
      exact hb ▸ controlPage_indifferent .exr
    · trivial
  case h_7 | h_8 =>
    simp only [signedMulDiv, leaves_bind, leaves_next, leaves_require]
    intro _ c d
    split <;> simp +contextual [Indifferent, withoutIgnored]
  case h_10 =>
    simp only [longLogic, leaves_bind, leaves_next, leaves_require]
    intro _ c d _
    split <;> simp +contextual [Indifferent, withoutIgnored]
  case h_11 => trivial
  all_goals simp +contextual [registerList, testAndSet, Indifferent, withoutIgnored]

theorem operation_indifferent (start : UInt32) : Leaves (Indifferent start) [] (operation start) := by
  simp only [operation, leaves_bind, leaves_next, List.nil_append]
  intro b
  split
  case h_1 =>
    have h : Leaves (Indifferent start) _ _ := page0_indifferent (lowNibble b) page01_indifferent
    rwa [halves_of_high ‹highNibble b = _›] at h
  case h_2 => exact page1_indifferent _ _
  case h_3 | h_4 => simp +contextual [bytePage, Indifferent, withoutIgnored_transfer, clearAt]
  case h_6 => exact page5_indifferent _ _
  case h_7 =>
    have h : Leaves (Indifferent start) _ _ := page6_indifferent (lowNibble b)
    rwa [halves_of_high ‹highNibble b = _›] at h
  case h_8 => exact page7_indifferent _ _
  all_goals simp +contextual [byteImmediate, shortBranch, signedByte, Indifferent, withoutIgnored]

/-! ### Code -/

/-- A run that comes to a result was fed the bytes that it reports. -/
private theorem feed_of_run {α : Type} {read : UInt32 → Except Fault UInt8} {d : Decoding α} {consumed bytes : List UInt8}
    {a : α} (h : d.run read start consumed = .ok (a, bytes)) :
    ∃ rest, bytes = consumed ++ rest ∧ d.feed rest = some (done a) := by
  induction d generalizing consumed with
  | done a' =>
    cases h
    exact ⟨[], (List.append_nil _).symm, rfl⟩
  | illegal => cases h
  | byte next ih =>
    change (read (start + consumed.length.toUInt32)).bind _ = _ at h
    cases hr : read (start + consumed.length.toUInt32) with
    | error e =>
      rw [hr] at h
      cases h
    | ok b =>
      rw [hr] at h
      obtain ⟨rest, hrest, hfeed⟩ := ih b h
      exact ⟨b :: rest, by rw [hrest, List.append_assoc]; rfl, hfeed⟩

private theorem run_of_feed {α : Type} {read : UInt32 → Except Fault UInt8} {d : Decoding α} {consumed rest : List UInt8}
    {a : α} (h : d.feed rest = some (done a))
    (hr : ∀ k (hk : k < rest.length), read (start + (consumed.length + k).toUInt32) = .ok rest[k]) :
    d.run read start consumed = .ok (a, consumed ++ rest) := by
  induction rest generalizing d consumed with
  | nil =>
    cases h
    rw [List.append_nil]
    rfl
  | cons b rest ih =>
    cases d with
    | done a' => cases h
    | illegal => cases h
    | byte next =>
      have hb := hr 0 (by simp)
      show (read (start + consumed.length.toUInt32)).bind _ = _
      rw [Nat.add_zero] at hb
      rw [hb]
      have hlen : (consumed ++ [b]).length = consumed.length + 1 := List.length_append
      have h : (next b).run read start (consumed ++ [b]) = .ok (a, consumed ++ [b] ++ rest) := by
        refine ih h fun k hk => ?_
        have hk := hr (k + 1) (by simpa using hk)
        rw [hlen, Nat.add_assoc, Nat.add_comm 1 k]
        exact hk
      rw [List.append_assoc] at h
      exact h

private theorem fetchCode_ok {code : List UInt8} {k : Nat} (hk : k < code.length) (hlen : code.length ≤ 10) :
    fetchCode start code.toArray (start + k.toUInt32) = .ok code[k] := by
  have h : (start + k.toUInt32 - start).toNat = k := by
    rw [UInt32.add_comm, UInt32.add_sub_cancel]
    simp
    omega
  unfold fetchCode
  rw [h]
  simp [hk]

end Decoding

namespace Instruction

/-- Code is an encoding of an operation if the operation is the leaf that all of it leads to. -/
theorem ofCode_ok_iff {addr : UInt32} {code : List UInt8} {op : Operation} :
    Instruction.ofCode addr code.toArray = .ok ⟨Address.even addr, op, code⟩ ↔
      (Decoding.operation (Address.even addr)).feed code = some (.done op) := by
  have hdecode : Instruction.ofCode addr code.toArray =
      ((Decoding.operation (Address.even addr)).run (Decoding.fetchCode (Address.even addr) code.toArray)
        (Address.even addr) []).bind fun r => .ok ⟨Address.even addr, r.1, r.2⟩ := rfl
  rw [hdecode]
  constructor
  · intro h
    cases hr : (Decoding.operation (Address.even addr)).run (Decoding.fetchCode (Address.even addr) code.toArray)
      (Address.even addr) [] with
    | error e =>
      rw [hr] at h
      cases h
    | ok r =>
      rw [hr] at h
      cases h
      obtain ⟨rest, hrest, hfeed⟩ := Decoding.feed_of_run hr
      rw [List.nil_append] at hrest
      rwa [hrest]
  · intro h
    have hends : (Decoding.operation (Address.even addr)).Leaves (fun bytes op => Decoding.Whole bytes.length op) [] :=
      (Decoding.operation_ends (Address.even addr)).leaves rfl
    have hlen : code.length ≤ 10 := (Decoding.leaves_iff_feed.1 hends code op h).2.2
    have hr : (Decoding.operation (Address.even addr)).run (Decoding.fetchCode (Address.even addr) code.toArray)
        (Address.even addr) [] = .ok (op, [] ++ code) := by
      refine Decoding.run_of_feed h fun k hk => ?_
      rw [List.length_nil, Nat.zero_add]
      exact Decoding.fetchCode_ok hk hlen
    rw [hr]
    rfl

/-- Byte strings of one length are encodings of one operation exactly if they agree in the bits that are not ignored. -/
theorem encodings_distinct {addr : UInt32} {op : Operation} {x y : List UInt8}
    (hx : Instruction.ofCode addr x.toArray = .ok ⟨Address.even addr, op, x⟩) (hlen : y.length = x.length) :
    Instruction.ofCode addr y.toArray = .ok ⟨Address.even addr, op, y⟩ ↔ op.withoutIgnored y = op.withoutIgnored x := by
  rw [ofCode_ok_iff] at hx ⊢
  constructor
  · intro hy
    have hcx : op.Canonical _ x := Decoding.leaves_iff_feed.1 (Decoding.operation_canonical _) x op hx
    have hcy : op.Canonical _ y := Decoding.leaves_iff_feed.1 (Decoding.operation_canonical _) y op hy
    calc op.withoutIgnored y = op.encode (Address.even addr) y.length := hcy.symm
      _ = op.encode (Address.even addr) x.length := by rw [hlen]
      _ = op.withoutIgnored x := hcx
  · intro h
    rw [← hx]
    exact Decoding.leaves_iff_feed.1 (Decoding.operation_indifferent _) x op hx y hlen h

/-- A byte load from a 32-bit address, with and without a byte above the address. -/
theorem encodings_distinct_of_load :
    Instruction.ofCode 0x100 #[0x6A, 0x28, 0x00, 0xFF, 0xFF, 0x10] =
        .ok ⟨0x100, .mov .byte (.mem (.absolute 0xFFFF10)) (.reg 8), [0x6A, 0x28, 0x00, 0xFF, 0xFF, 0x10]⟩ ∧
      Instruction.ofCode 0x100 #[0x6A, 0x28, 0xFF, 0xFF, 0xFF, 0x10] =
        .ok ⟨0x100, .mov .byte (.mem (.absolute 0xFFFF10)) (.reg 8), [0x6A, 0x28, 0xFF, 0xFF, 0xFF, 0x10]⟩ := by
  have h : Instruction.ofCode 0x100 [0x6A, 0x28, 0x00, 0xFF, 0xFF, 0x10].toArray =
      .ok ⟨0x100, .mov .byte (.mem (.absolute 0xFFFF10)) (.reg 8), [0x6A, 0x28, 0x00, 0xFF, 0xFF, 0x10]⟩ := rfl
  have hlen : [0x6A, 0x28, 0xFF, 0xFF, 0xFF, 0x10].length = [0x6A, 0x28, 0x00, 0xFF, 0xFF, 0x10].length := rfl
  exact ⟨h, (encodings_distinct h hlen).2 rfl⟩

/-- A load of the condition codes at a 32-bit displacement has two encodings: the byte with the base has a bit that is
not looked at.  The long move with the same displacement looks at it. -/
theorem control_displaced_twice :
    Instruction.ofCode 0 #[0x01, 0x40, 0x78, 0x00, 0x6B, 0x20, 0, 0, 0, 0] =
        .ok ⟨0, .ldc (.mem (.displaced 0 0)) .ccr, [0x01, 0x40, 0x78, 0x00, 0x6B, 0x20, 0, 0, 0, 0]⟩ ∧
      Instruction.ofCode 0 #[0x01, 0x40, 0x78, 0x80, 0x6B, 0x20, 0, 0, 0, 0] =
        .ok ⟨0, .ldc (.mem (.displaced 0 0)) .ccr, [0x01, 0x40, 0x78, 0x80, 0x6B, 0x20, 0, 0, 0, 0]⟩ ∧
      Instruction.ofCode 0 #[0x01, 0x00, 0x78, 0x80, 0x6B, 0x20, 0, 0, 0, 0] =
        .error (.illegalInstruction 0 [0x01, 0x00, 0x78, 0x80]) :=
  ⟨rfl, rfl, rfl⟩

end Instruction

end H8S
