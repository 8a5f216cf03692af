import H8S.Decoding.Opcode

/-!
# Lengths of encodings

A decoding is a tree of requests for bytes, so how many bytes its results have consumed is a fact about the tree
alone. `Ends P n d` says that every result of `d`, of which `n` bytes were consumed before, satisfies `P` together
with the number of bytes in the end, and that no verdict of an illegal encoding comes after more than ten bytes.  The
rules for `Ends` follow the ways in which decodings are put together; with them each page of the instruction set is
gone through once, and `operation_ends` is the result: an encoding has an even number of bytes, from two to ten.
-/

namespace H8S.Decoding

variable {α β : Type} {n : Nat}

/-- Every result of a decoding that has consumed `n` bytes so far has a property, with the bytes consumed in the end.
-/
def Ends (P : Nat → α → Prop) : Nat → Decoding α → Prop
  | n, done a => P n a
  | n, illegal => n ≤ 10
  | n, byte next => ∀ b, Ends P (n + 1) (next b)

/-- An encoding of full length. -/
def Whole (len : Nat) (_ : α) : Prop := len % 2 = 0 ∧ 2 ≤ len ∧ len ≤ 10

/-- What is left of a decoding after a byte, if it asks for one. -/
def take (d : Decoding α) (b : UInt8) : Option (Decoding α) :=
  match d with
  | byte next => some (next b)
  | _ => none

/-- What is left of a decoding after some bytes. -/
def feed (d : Decoding α) (bytes : List UInt8) : Option (Decoding α) := bytes.foldlM take d

/-! ### Rules -/

@[simp] theorem ends_pure {P : Nat → α → Prop} (a : α) : Ends P n (pure a) ↔ P n a := Iff.rfl

@[simp] theorem ends_illegal {P : Nat → α → Prop} : Ends P n illegal ↔ n ≤ 10 := Iff.rfl

@[simp] theorem ends_next {P : Nat → UInt8 → Prop} : Ends P n next ↔ ∀ b, P (n + 1) b := Iff.rfl

@[simp] theorem ends_word {P : Nat → UInt32 → Prop} :
    Ends P n word ↔ ∀ hi lo : UInt8, P (n + 2) (hi.toUInt32 <<< 8 ||| lo.toUInt32) := Iff.rfl

@[simp] theorem ends_require {P : Nat → Unit → Prop} (c : Bool) : 
    Ends P n (require c) ↔ (c = true → P n ()) ∧ (c = false → n ≤ 10) := by
  cases c with
  | false => simp [require]
  | true => simp [require, Ends]

@[simp] theorem ends_bind {P : Nat → β → Prop} (d : Decoding α) (f : α → Decoding β) :
    Ends P n (d >>= f) ↔ Ends (fun k a => Ends P k (f a)) n d := by
  show Ends P n (d.bind f) ↔ _
  induction d generalizing n with
  | done a => rfl
  | illegal => rfl
  | byte next ih => exact forall_congr' fun b => ih b

@[simp] theorem ends_ite {P : Nat → α → Prop} {c : Prop} [Decidable c] {d e : Decoding α} :
    Ends P n (if c then d else e) ↔ (c → Ends P n d) ∧ (¬c → Ends P n e) := by
  by_cases hc : c
  · simp [hc]
  · simp [hc]

private theorem ends_of_required {P : Nat → Unit → Prop} {c : Bool} (hn : n ≤ 10) (h : c = true → P n ()) :
    Ends P n (require c) :=
  (ends_require c).2 ⟨h, fun _ => hn⟩

/-- A decoding whose operations all have at most ten bytes has consumed no more than ten before any of its steps. -/
theorem Ends.le {P : Nat → α → Prop} {n : Nat} {d : Decoding α} (hP : ∀ n a, P n a → n ≤ 10) (h : Ends P n d) :
    n ≤ 10 := by
  induction d generalizing n with
  | done a => exact hP n a h
  | illegal => exact h
  | byte next ih => exact Nat.le_of_succ_le (ih 0 (h 0))

/-! ### Parts of encodings -/

private theorem memoryBit_ends (target : MemOperand) (writes : Bool) (h : n % 2 = 0 ∧ n ≤ 8) :
    Ends Whole n (memoryBit target writes) := by
  unfold memoryBit
  split
  · simp only [writingMemoryBit, ends_bind, ends_next]
    intro c d
    refine ends_of_required (by omega) fun _ => ?_
    split <;> simp [Whole] <;> omega
  · simp only [testingMemoryBit, ends_bind, ends_next]
    intro c d
    refine ends_of_required (by omega) fun _ => ?_
    split <;> simp [Whole] <;> omega

private theorem jumpTarget_ends {P : Nat → JumpTarget → Prop} (mode : UInt8) (hn : n + 1 ≤ 10)
    (short : ∀ t, P (n + 1) t) (wide : ∀ t, P (n + 3) t) : Ends P n (jumpTarget mode) := by
  unfold jumpTarget
  split
  · simp only [ends_bind, ends_next, ends_require, ends_pure]
    exact fun b => ⟨fun _ => short _, fun _ => hn⟩
  · simp only [ends_bind, ends_next, ends_word, ends_pure]
    exact fun b hi lo => wide _
  · simp only [ends_bind, ends_next, ends_pure]
    exact fun b => short _

private theorem longMove_ends : Ends Whole 2 longMove := by
  simp only [longMove, ends_bind, ends_next]
  intro c d
  split <;> simp [Whole, address16, address32, signedWord, long, longDisplaced32]

private theorem controlPage_ends (reg : ControlReg) : Ends Whole 2 (controlPage reg) := by
  simp only [controlPage, ends_bind, ends_next]
  intro c d
  split
  case h_5 =>
    unfold controlMemory
    split <;> simp [Whole, address16, address32, signedWord, long]
  all_goals simp [Whole]

private theorem signedMulDiv_ends (b : UInt8) : Ends Whole 2 (signedMulDiv b) := by
  simp only [signedMulDiv, ends_bind, ends_next]
  refine ends_of_required (by decide) fun _ c d => ?_
  split <;> simp [Whole]

private theorem longLogic_ends (b : UInt8) : Ends Whole 2 (longLogic b) := by
  simp only [longLogic, ends_bind, ends_next]
  refine ends_of_required (by decide) fun _ c d => ends_of_required (by decide) fun _ => ?_
  split <;> simp [Whole]

private theorem page01_ends : Ends Whole 1 page01 := by
  simp only [page01, ends_bind, ends_next]
  intro b
  split
  · simp [longMove_ends]
  · simp [registerList, Whole]
  · simp [registerList, Whole]
  · simp [registerList, Whole]
  · split
    · exact controlPage_ends .ccr
    · exact controlPage_ends .exr
    · simp
  · simp [Whole]
  · exact signedMulDiv_ends b
  · exact signedMulDiv_ends b
  · simp [testAndSet, Whole]
  · exact longLogic_ends b
  · simp

private theorem smallSteps_ends (pointer : UInt8 → UInt8 → Operation) (counter : Width → UInt8 → UInt8 → Operation) :
    Ends Whole 1 (smallSteps pointer counter) := by
  simp only [smallSteps, ends_bind, ends_next]
  intro b
  split <;> simp [Whole]

private theorem controlAndRegister_ends {P : Nat → ControlReg × UInt8 → Prop} (hn : n + 1 ≤ 10)
    (h : ∀ x, P (n + 1) x) : Ends P n controlAndRegister := by
  simp only [controlAndRegister, ends_bind, ends_next]
  intro b
  split
  · exact h _
  · exact h _
  · exact ends_illegal.2 hn

/-! ### Pages -/

private theorem page0_ends (code : UInt8) : Ends Whole 1 (page0 code) := by
  unfold page0
  split
  case h_2 => exact page01_ends
  case h_3 => exact (ends_bind _ _).2 (controlAndRegister_ends (by decide) fun _ => by simp [Whole])
  case h_4 => exact (ends_bind _ _).2 (controlAndRegister_ends (by decide) fun _ => by simp [Whole])
  case h_12 => exact smallSteps_ends .adds .inc
  all_goals simp [aluRegisters, byteOrLongs, longPair, Whole]

private theorem page1_ends (code : UInt8) : Ends Whole 1 (page1 code) := by
  have shifts : ∀ code, Ends Whole 1 (shift code) := by
    intro code
    simp only [shift, ends_bind, ends_next]
    intro b
    split <;> simp [Whole]
  have unaries : Ends Whole 1 unary := by
    simp only [unary, ends_bind, ends_next]
    intro b
    split <;> simp [Whole]
  unfold page1
  split
  case h_8 => exact unaries
  case h_12 => exact smallSteps_ends .subs .dec
  all_goals simp [shifts, aluRegisters, byteOrLongs, longPair, Whole]

private theorem page5_ends (start : UInt32) (code : UInt8) : Ends Whole 1 (page5 start code) := by
  unfold page5
  split <;> simp [Whole, mulDiv, signedByte, signedWord]
  all_goals exact jumpTarget_ends _ (by decide) (by simp) (by simp)

private theorem page6_ends (code : UInt8) : Ends Whole 1 (page6 code) := by
  have bytes : Ends Whole 1 byteAbsolute := by
    simp only [byteAbsolute, ends_bind, ends_next]
    intro b
    split <;> simp [Whole, address16, address32, signedWord, long, memoryBit_ends]
  have words : Ends Whole 1 wordAbsolute := by
    simp only [wordAbsolute, ends_bind, ends_next]
    intro b
    split <;> simp [Whole, address16, address32, signedWord, long]
  unfold page6
  split
  case h_9 => exact bytes
  case h_10 => exact words
  case h_11 =>
    simp only [ends_bind, ends_next]
    intro r
    split <;> simp [Whole, signedWord]
  all_goals simp [indexedRegisterBit, aluRegisters, carryIntoRegisterBit, Whole]

private theorem page7_ends (code : UInt8) : Ends Whole 1 (page7 code) := by
  have immediates : ∀ width, Ends Whole 1 (immediate width) := by
    intro width
    simp only [immediate, ends_bind, ends_next]
    intro b
    refine ends_of_required (by decide) fun _ => ?_
    split
    · simp
    · next op _ =>
      cases op with
      | none => simp [long, Whole]
      | some op => simp [long, Whole]
  have block : Ends Whole 1 blockMove := by
    simp only [blockMove, ends_bind, ends_next]
    intro b
    split <;> simp [Whole]
  unfold page7
  split
  case h_4 => exact block
  all_goals simp [displaced32, long, immediates, memoryBit_ends, numberedRegisterBit, Whole]

/-- Every encoding has an even number of bytes, from two to ten. -/
theorem operation_ends (start : UInt32) : Ends Whole 0 (operation start) := by
  simp only [operation, ends_bind, ends_next]
  intro b
  split
  · exact page0_ends _
  · exact page1_ends _
  · simp [bytePage, Whole]
  · simp [bytePage, Whole]
  · simp [shortBranch, signedByte, Whole]
  · exact page5_ends start _
  · exact page6_ends _
  · exact page7_ends _
  all_goals simp [byteImmediate, Whole]

/-- The address after an encoding, as a number. -/
theorem Whole.nextPc_toNat {i : Instruction} (h : Whole i.bytes.length i.op) (ha : i.addr.toNat < Address.spaceSize) :
    i.nextPc.toNat = i.addr.toNat + i.bytes.length := by
  obtain ⟨-, -, hle⟩ := h
  have hlen : i.len.toNat = i.bytes.length := by
    unfold Instruction.len
    simp
    omega
  unfold Instruction.nextPc
  rw [UInt32.toNat_add, hlen]
  unfold Address.spaceSize at ha
  omega

end H8S.Decoding
