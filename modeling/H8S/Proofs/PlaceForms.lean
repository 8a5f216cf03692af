import H8S.Proofs.WellFormedOperations

/-!
# Forms of places

A place in memory has several forms in an encoding: an absolute address of 8, 16 or 32 bits, or a displacement of 16 or 32
bits from a pointer.  Moves, the loads and stores of control registers and the bit operations share these forms, in opcodes of
their own.  `PlaceField.place` says which place a form means: an 8-bit address lies in the register page, a 16-bit number is
extended by its sign, and an address is cut to the address space.  Each use of a place in each of its forms is decoded to the
operation on the place that is meant (`PlaceUse.feed_encode`).
-/

namespace H8S

open Encoding

/-- The field of an encoding that says where an operand lies in memory, as it is written there. -/
inductive PlaceField where
  | absolute8 (aa : UInt8)
  | absolute16 (aa : UInt16)
  | absolute32 (aa : UInt32)
  | displaced16 (disp : UInt16) (base : UInt8)
  | displaced32 (disp : UInt32) (base : UInt8)

/-- What is done with a place in memory: a move from or to a register, the load or store of a control register, or an operation
on a bit. -/
inductive PlaceUse where
  | move (width : Width) (store : Bool) (reg : UInt8)
  | control (reg : ControlReg) (store : Bool)
  | bit (op : BitOp) (number : BitNumber)

/-- How far the opcodes of moves of a width are above those of bytes; long moves have those of words after a prefix. -/
def Encoding.wordBit : Width → UInt8
  | .byte => 0
  | .word | .long => 1

namespace PlaceField

/-- The place that a field means. -/
def place : PlaceField → MemOperand
  | absolute8 aa => .absolute (0xFFFF00 ||| aa.toUInt32)
  | absolute16 aa => .absolute (Address.trunc (Width.word.signExtend aa.toUInt32))
  | absolute32 aa => .absolute (Address.trunc aa)
  | displaced16 disp base => .displaced (Width.word.signExtend disp.toUInt32) base
  | displaced32 disp base => .displaced disp base

/-- A move between a register and a place, in the opcodes of bytes or, one above them, those of words. -/
def moveBytes (bit : UInt8) (store : Bool) (reg : UInt8) : PlaceField → List UInt8
  | absolute8 aa => [halves (if store then 3 else 2) reg, aa]
  | absolute16 aa => [0x6A + bit, marked store (halves 0 reg)] ++ wordBytes aa.toUInt32
  | absolute32 aa => [0x6A + bit, marked store (halves 2 reg)] ++ longBytes aa
  | displaced16 disp base => [0x6E + bit, marked store (halves base reg)] ++ wordBytes disp.toUInt32
  | displaced32 disp base => [0x78, halves base 0, 0x6A + bit, marked store (halves 2 reg)] ++ longBytes disp

/-- The bytes of a bit operation that name the place, in the opcodes of those that write or of those that only test. -/
def bitBytes (writes : Bool) : PlaceField → List UInt8
  | absolute8 aa => [if writes then 0x7F else 0x7E, aa]
  | absolute16 aa => [0x6A, if writes then 0x18 else 0x10] ++ wordBytes aa.toUInt32
  | absolute32 aa => [0x6A, if writes then 0x38 else 0x30] ++ longBytes aa
  | _ => []

/-- A bit is at an absolute address only. -/
def IsAbsolute : PlaceField → Prop
  | displaced16 .. | displaced32 .. => False
  | _ => True

/-- The base of a displacement is a long register. -/
def Based : PlaceField → Prop
  | displaced16 _ base | displaced32 _ base => base < Width.long.views
  | _ => True

end PlaceField

/-- The number of a bit: any operation takes it from the encoding, some take it from a register. -/
def BitOp.Selects (op : BitOp) : BitNumber → Prop
  | .imm n => n < 8
  | .reg id => id < Width.byte.views ∧ op ∈ [.bset, .bnot, .bclr, .btst]

namespace PlaceUse

def operation (place : MemOperand) : PlaceUse → Operation
  | move width true reg => .mov width (.reg reg) (.mem place)
  | move width false reg => .mov width (.mem place) (.reg reg)
  | control reg true => .stc reg (.mem place)
  | control reg false => .ldc (.mem place) reg
  | bit op number => .bit op number (.mem place)

def encode (f : PlaceField) : PlaceUse → List UInt8
  | move .long store reg => [0x01, 0x00] ++ f.moveBytes (wordBit .long) store reg
  | move width store reg => f.moveBytes (wordBit width) store reg
  | control reg store => [0x01, controlByte reg] ++ f.moveBytes (wordBit .word) store 0
  | bit op number => f.bitBytes op.modifies ++ bitSelection op number 0

/-- The uses that a field has an encoding for: 8-bit addresses are those of bytes and their bits, and bits are at absolute
addresses only. -/
def Takes (u : PlaceUse) (f : PlaceField) : Prop :=
  match u, f with
  | move width _ reg, .absolute8 _ => width = .byte ∧ reg < width.views
  | move width _ reg, f => reg < width.views ∧ f.Based
  | control .., .absolute8 _ => False
  | control .., f => f.Based
  | bit op number, f => f.IsAbsolute ∧ op.Selects number

end PlaceUse

namespace Decoding

variable {α : Type} {start : UInt32}

/-! ### Fields -/

private theorem word_of_half (v : UInt16) :
    (v.toUInt32 >>> 8).toUInt8.toUInt32 <<< 8 ||| v.toUInt32.toUInt8.toUInt32 = v.toUInt32 := by
  refine word_of_mask ?_
  have hv := v.toNat_lt
  have hmask : Width.word.mask.toNat = 65535 := rfl
  rw [UInt32.le_iff_toNat_le, hmask, UInt16.toNat_toUInt32]
  omega

theorem feed_word (f : UInt32 → Decoding α) (v : UInt16) (rest : List UInt8) :
    (word >>= f).feed (wordBytes v.toUInt32 ++ rest) = (f v.toUInt32).feed rest := by
  have h := word_of_half v
  exact congrArg (fun w => (f w).feed rest) h

theorem feed_long (f : UInt32 → Decoding α) (v : UInt32) (rest : List UInt8) :
    (long >>= f).feed (longBytes v ++ rest) = (f v).feed rest := by
  have h := long_of_bytes v
  exact congrArg (fun w => (f w).feed rest) h

private theorem bind_bind {β γ : Type} (d : Decoding α) (f : α → Decoding β) (g : β → Decoding γ) :
    (d >>= f) >>= g = d >>= fun a => f a >>= g := by
  show (d.bind f).bind g = d.bind fun a => (f a).bind g
  induction d with
  | done a => rfl
  | illegal => rfl
  | byte next ih => exact congrArg byte (funext ih)

theorem feed_signedWord (f : UInt32 → Decoding α) (v : UInt16) (rest : List UInt8) :
    (signedWord >>= f).feed (wordBytes v.toUInt32 ++ rest) = (f (Width.word.signExtend v.toUInt32)).feed rest := by
  unfold signedWord
  rw [bind_bind, feed_word]
  rfl

theorem feed_address16 (f : UInt32 → Decoding α) (v : UInt16) (rest : List UInt8) :
    (address16 >>= f).feed (wordBytes v.toUInt32 ++ rest) =
      (f (Address.trunc (Width.word.signExtend v.toUInt32))).feed rest := by
  unfold address16
  rw [bind_bind, feed_signedWord]
  rfl

theorem feed_address32 (f : UInt32 → Decoding α) (v : UInt32) (rest : List UInt8) :
    (address32 >>= f).feed (longBytes v ++ rest) = (f (Address.trunc v)).feed rest := by
  unfold address32
  rw [bind_bind, feed_long]
  rfl

/-! ### Bytes of registers -/

variable {store : Bool} {k reg base : UInt8} {rest : List UInt8}

/-- Three bits and a register are found again in a byte that marks stores. -/
private theorem marked_fields (store : Bool) (hk : k < 8) (hreg : reg < 16) :
    let b := marked store (halves k reg)
    highNibble b = (if store then 8 ||| k else k) ∧ topBit b = store ∧ highThree b = k ∧ lowNibble b = reg := by
  have h : ∀ (store : Bool) (k : Fin 8) (reg : Fin 16), let b := marked store (halves (.ofNat k) (.ofNat reg))
      highNibble b = (if store then 8 ||| .ofNat k else .ofNat k) ∧ topBit b = store ∧ highThree b = .ofNat k ∧
        lowNibble b = .ofNat reg := by decide
  have h := h store ⟨k.toNat, hk⟩ ⟨reg.toNat, hreg⟩
  rwa [UInt8.ofNat_toNat, UInt8.ofNat_toNat] at h

/-- So is a long register, and the byte passes the checks of long moves by its three bits. -/
private theorem marked_long (store : Bool) (hk : k < 8) (hreg : reg < 8) :
    let b := marked store (halves k reg)
    topBit b = store ∧ highThree b = k ∧ lowThree b = reg ∧ (b &&& 0x08 == 0) = true ∧ (b &&& 0x58 == 0) = (k &&& 5 == 0) ∧
      (b &&& 0x78 == 0x20) = (k == 2) ∧ (b &&& 0x20 != 0) = (k &&& 2 != 0) := by
  have h : ∀ (store : Bool) (k reg : Fin 8), let b := marked store (halves (.ofNat k) (.ofNat reg))
      topBit b = store ∧ highThree b = .ofNat k ∧ lowThree b = .ofNat reg ∧ (b &&& 0x08 == 0) = true ∧
        (b &&& 0x58 == 0) = ((.ofNat k : UInt8) &&& 5 == 0) ∧ (b &&& 0x78 == 0x20) = ((.ofNat k : UInt8) == 2) ∧
        (b &&& 0x20 != 0) = ((.ofNat k : UInt8) &&& 2 != 0) := by decide
  have h := h store ⟨k.toNat, hk⟩ ⟨reg.toNat, hreg⟩
  rwa [UInt8.ofNat_toNat, UInt8.ofNat_toNat] at h

/-- A pointer before a 32-bit displacement. -/
private theorem pointer_fields (hbase : base < 8) :
    let b := halves base 0
    (b &&& 0x8F == 0) = true ∧ highNibble b = base ∧ highThree b = base ∧ lowNibble b = 0 := by
  have h : ∀ base : Fin 8, let b := halves (.ofNat base) 0
      (b &&& 0x8F == 0) = true ∧ highNibble b = .ofNat base ∧ highThree b = .ofNat base ∧ lowNibble b = 0 := by decide
  have h := h ⟨base.toNat, hbase⟩
  rwa [UInt8.ofNat_toNat] at h

/-! ### Moves of bytes and words -/

private theorem feed_bytePage (hreg : reg < 16) (aa : UInt8) :
    (operation start).feed (halves (if store then 3 else 2) reg :: aa :: rest) =
      (done (transfer .byte store reg (.absolute (Address.ofPageOffset aa)))).feed rest := by
  have hk : (if store then 3 else 2 : UInt8) < 16 := by cases store <;> decide
  obtain ⟨hhigh, hlow⟩ := halves_fields hk hreg
  unfold operation
  rw [feed_next, hhigh, hlow]
  cases store <;> rfl

private theorem feed_narrowAbsolute16 (width : Width) (hw : width ≠ .long) (hreg : reg < 16) (aa : UInt16) :
    (operation start).feed ((0x6A + wordBit width) :: marked store (halves 0 reg) :: (wordBytes aa.toUInt32 ++ rest)) =
      (done (transfer width store reg (.absolute (Address.trunc (Width.word.signExtend aa.toUInt32))))).feed rest := by
  obtain ⟨hhigh, htop, -, hlow⟩ := marked_fields store (show (0 : UInt8) < 8 by decide) hreg
  cases width with
  | byte =>
    show byteAbsolute.feed _ = _
    unfold byteAbsolute
    rw [feed_next, hhigh, htop, hlow]
    cases store <;> exact feed_address16 _ aa rest
  | word =>
    show wordAbsolute.feed _ = _
    unfold wordAbsolute
    rw [feed_next, hhigh, htop, hlow]
    cases store <;> exact feed_address16 _ aa rest
  | long => exact absurd rfl hw

private theorem feed_narrowAbsolute32 (width : Width) (hw : width ≠ .long) (hreg : reg < 16) (aa : UInt32) :
    (operation start).feed ((0x6A + wordBit width) :: marked store (halves 2 reg) :: (longBytes aa ++ rest)) =
      (done (transfer width store reg (.absolute (Address.trunc aa)))).feed rest := by
  obtain ⟨hhigh, htop, -, hlow⟩ := marked_fields store (show (2 : UInt8) < 8 by decide) hreg
  cases width with
  | byte =>
    show byteAbsolute.feed _ = _
    unfold byteAbsolute
    rw [feed_next, hhigh, htop, hlow]
    cases store <;> exact feed_address32 _ aa rest
  | word =>
    show wordAbsolute.feed _ = _
    unfold wordAbsolute
    rw [feed_next, hhigh, htop, hlow]
    cases store <;> exact feed_address32 _ aa rest
  | long => exact absurd rfl hw

private theorem feed_narrowDisplaced16 (width : Width) (hw : width ≠ .long) (hbase : base < 8) (hreg : reg < 16)
    (disp : UInt16) :
    (operation start).feed ((0x6E + wordBit width) :: marked store (halves base reg) :: (wordBytes disp.toUInt32 ++ rest)) =
      (done (transfer width store reg (.displaced (Width.word.signExtend disp.toUInt32) base))).feed rest := by
  obtain ⟨-, htop, hthree, hlow⟩ := marked_fields store hbase hreg
  have hfields (r : UInt8) : (operation start).feed ((0x6E + wordBit width) :: r :: (wordBytes disp.toUInt32 ++ rest)) =
      (signedWord >>= fun disp => done (transfer width (topBit r) (lowNibble r) (.displaced disp (highThree r)))).feed
        (wordBytes disp.toUInt32 ++ rest) := by
    cases width with
    | byte => rfl
    | word => rfl
    | long => exact absurd rfl hw
  rw [hfields, htop, hlow, hthree]
  exact feed_signedWord _ disp rest

private theorem feed_narrowDisplaced32 (width : Width) (hw : width ≠ .long) (hbase : base < 8) (hreg : reg < 16)
    (disp : UInt32) :
    (operation start).feed
        (0x78 :: halves base 0 :: (0x6A + wordBit width) :: marked store (halves 2 reg) :: (longBytes disp ++ rest)) =
      (done (transfer width store reg (.displaced disp base))).feed rest := by
  obtain ⟨hrequired, hbase, -⟩ := pointer_fields hbase
  obtain ⟨-, htop, hthree, hlow⟩ := marked_fields store (show (2 : UInt8) < 8 by decide) hreg
  show displaced32.feed _ = _
  unfold displaced32
  rw [feed_next, feed_require hrequired, feed_next, hbase]
  cases width with
  | long => exact absurd rfl hw
  | _ =>
    rw [feed_require (by decide), feed_next, hthree, feed_require (by decide), htop, hlow]
    exact feed_long _ disp rest

/-! ### Long moves -/

private theorem feed_longAbsolute16 (hreg : reg < 8) (aa : UInt16) :
    (operation start).feed (0x01 :: 0x00 :: 0x6B :: marked store (halves 0 reg) :: (wordBytes aa.toUInt32 ++ rest)) =
      (done (transfer .long store reg (.absolute (Address.trunc (Width.word.signExtend aa.toUInt32))))).feed rest := by
  obtain ⟨htop, -, hlow, -, hfree, -, hwide⟩ := marked_long store (show (0 : UInt8) < 8 by decide) hreg
  show longMove.feed _ = _
  unfold longMove
  rw [feed_next, feed_next]
  show (require _ >>= _).feed _ = _
  rw [feed_require hfree, hwide, htop, hlow]
  exact feed_address16 _ aa rest

private theorem feed_longAbsolute32 (hreg : reg < 8) (aa : UInt32) :
    (operation start).feed (0x01 :: 0x00 :: 0x6B :: marked store (halves 2 reg) :: (longBytes aa ++ rest)) =
      (done (transfer .long store reg (.absolute (Address.trunc aa)))).feed rest := by
  obtain ⟨htop, -, hlow, -, hfree, -, hwide⟩ := marked_long store (show (2 : UInt8) < 8 by decide) hreg
  show longMove.feed _ = _
  unfold longMove
  rw [feed_next, feed_next]
  show (require _ >>= _).feed _ = _
  rw [feed_require hfree, hwide, htop, hlow]
  exact feed_address32 _ aa rest

private theorem feed_longDisplaced16 (hbase : base < 8) (hreg : reg < 8) (disp : UInt16) :
    (operation start).feed (0x01 :: 0x00 :: 0x6F :: marked store (halves base reg) :: (wordBytes disp.toUInt32 ++ rest)) =
      (done (transfer .long store reg (.displaced (Width.word.signExtend disp.toUInt32) base))).feed rest := by
  obtain ⟨htop, hthree, hlow, hfree, -⟩ := marked_long store hbase hreg
  show longMove.feed _ = _
  unfold longMove
  rw [feed_next, feed_next]
  show (require _ >>= _).feed _ = _
  rw [feed_require hfree, htop, hthree, hlow]
  exact feed_signedWord _ disp rest

private theorem feed_longDisplaced32 (hbase : base < 8) (hreg : reg < 8) (disp : UInt32) :
    (operation start).feed
        (0x01 :: 0x00 :: 0x78 :: halves base 0 :: 0x6B :: marked store (halves 2 reg) :: (longBytes disp ++ rest)) =
      (done (transfer .long store reg (.displaced disp base))).feed rest := by
  obtain ⟨hrequired, -, hbase, -⟩ := pointer_fields hbase
  obtain ⟨htop, -, hlow, -, -, hchecked, -⟩ := marked_long store (show (2 : UInt8) < 8 by decide) hreg
  show longMove.feed _ = _
  unfold longMove
  rw [feed_next, feed_next]
  show (require _ >>= _).feed _ = _
  rw [feed_require hrequired, hbase]
  unfold longDisplaced32
  rw [feed_next, feed_next, hchecked, feed_require (by decide), htop, hlow]
  exact feed_long _ disp rest

/-! ### Control registers -/

private theorem feed_controlAbsolute16 (reg : ControlReg) (aa : UInt16) :
    (operation start).feed
        (0x01 :: controlByte reg :: 0x6B :: marked store (halves 0 0) :: (wordBytes aa.toUInt32 ++ rest)) =
      (done (controlTransfer reg store (.absolute (Address.trunc (Width.word.signExtend aa.toUInt32))))).feed rest := by
  cases reg <;> cases store <;> exact feed_address16 _ aa rest

private theorem feed_controlAbsolute32 (reg : ControlReg) (aa : UInt32) :
    (operation start).feed (0x01 :: controlByte reg :: 0x6B :: marked store (halves 2 0) :: (longBytes aa ++ rest)) =
      (done (controlTransfer reg store (.absolute (Address.trunc aa)))).feed rest := by
  cases reg <;> cases store <;> exact feed_address32 _ aa rest

private theorem feed_controlDisplaced16 (reg : ControlReg) (hbase : base < 8) (disp : UInt16) :
    (operation start).feed
        (0x01 :: controlByte reg :: 0x6F :: marked store (halves base 0) :: (wordBytes disp.toUInt32 ++ rest)) =
      (done (controlTransfer reg store (.displaced (Width.word.signExtend disp.toUInt32) base))).feed rest := by
  obtain ⟨-, htop, hthree, hlow⟩ := marked_fields store hbase (show (0 : UInt8) < 16 by decide)
  have hpage (d : UInt8) (rest : List UInt8) : (operation start).feed (0x01 :: controlByte reg :: 0x6F :: d :: rest) =
      (controlMemory reg 0x6F d).feed rest := by cases reg <;> rfl
  rw [hpage]
  show (require _ >>= _).feed _ = _
  rw [hlow, htop, hthree, feed_require (by decide)]
  exact feed_signedWord _ disp rest

private theorem feed_controlDisplaced32 (reg : ControlReg) (hbase : base < 8) (disp : UInt32) :
    (operation start).feed
        (0x01 :: controlByte reg :: 0x78 :: halves base 0 :: 0x6B :: marked store (halves 2 0) :: (longBytes disp ++ rest)) =
      (done (controlTransfer reg store (.displaced disp base))).feed rest := by
  obtain ⟨-, -, hbase, hlow⟩ := pointer_fields hbase
  have hpage (d : UInt8) (rest : List UInt8) : (operation start).feed (0x01 :: controlByte reg :: 0x78 :: d :: rest) =
      (controlMemory reg 0x78 d).feed rest := by cases reg <;> rfl
  rw [hpage]
  show (require _ >>= _).feed _ = _
  rw [hlow, hbase, feed_require (by decide)]
  cases store <;> exact feed_long _ disp rest

/-! ### Bits -/

private theorem feed_bitPlace {f : PlaceField} (hf : f.IsAbsolute) (writes : Bool) (rest : List UInt8) :
    (operation start).feed (f.bitBytes writes ++ rest) = (memoryBit f.place writes).feed rest := by
  cases f with
  | absolute8 aa => cases writes <;> rfl
  | absolute16 aa => cases writes <;> exact feed_address16 _ aa rest
  | absolute32 aa => cases writes <;> exact feed_address32 _ aa rest
  | displaced16 disp base => exact hf.elim
  | displaced32 disp base => exact hf.elim

private theorem feed_memoryBit {op : BitOp} {number : BitNumber} (h : op.Selects number) (place : MemOperand) :
    (memoryBit place op.modifies).feed (bitSelection op number 0 ++ rest) =
      (done (.bit op number (.mem place))).feed rest := by
  cases number with
  | imm n =>
    obtain ⟨-, htop, hthree, hlow⟩ := marked_fields (inverted op) (show n < 8 from h) (show (0 : UInt8) < 16 by decide)
    have hrequired : (lowNibble (marked (inverted op) (halves n 0)) == 0) = true := by rw [hlow]; rfl
    cases op
    all_goals
      show (next >>= _).feed (_ :: _ :: rest) = _
      rw [feed_next, feed_next, feed_require hrequired, hthree, htop]
      rfl
  | reg id =>
    obtain ⟨hid, hop⟩ := h
    obtain ⟨hhigh, hlow⟩ := halves_fields (show id < 16 from hid) (show (0 : UInt8) < 16 by decide)
    simp only [List.mem_cons, List.not_mem_nil, or_false] at hop
    rcases hop with rfl | rfl | rfl | rfl
    all_goals
      show (next >>= _).feed (_ :: _ :: rest) = _
      rw [feed_next, feed_next, hlow, hhigh]
      rfl

end Decoding

namespace PlaceUse

open Decoding

variable {start : UInt32}

private theorem operation_move (width : Width) (store : Bool) (reg : UInt8) (place : MemOperand) :
    (move width store reg).operation place = transfer width store reg place := by
  cases store <;> rfl

private theorem operation_control (reg : ControlReg) (store : Bool) (place : MemOperand) :
    (control reg store).operation place = controlTransfer reg store place := by
  cases store <;> rfl

private theorem feed_move {width : Width} {store : Bool} {reg : UInt8} {f : PlaceField}
    (h : (move width store reg).Takes f) (rest : List UInt8) :
    (Decoding.operation start).feed ((move width store reg).encode f ++ rest) =
      (done ((move width store reg).operation f.place)).feed rest := by
  rw [operation_move]
  cases f with
  | absolute8 aa =>
    obtain ⟨rfl, hreg⟩ := h
    exact feed_bytePage hreg aa
  | absolute16 aa =>
    cases width with
    | byte => exact feed_narrowAbsolute16 .byte (by decide) h.1 aa
    | word => exact feed_narrowAbsolute16 .word (by decide) h.1 aa
    | long => exact feed_longAbsolute16 h.1 aa
  | absolute32 aa =>
    cases width with
    | byte => exact feed_narrowAbsolute32 .byte (by decide) h.1 aa
    | word => exact feed_narrowAbsolute32 .word (by decide) h.1 aa
    | long => exact feed_longAbsolute32 h.1 aa
  | displaced16 disp base =>
    cases width with
    | byte => exact feed_narrowDisplaced16 .byte (by decide) h.2 h.1 disp
    | word => exact feed_narrowDisplaced16 .word (by decide) h.2 h.1 disp
    | long => exact feed_longDisplaced16 h.2 h.1 disp
  | displaced32 disp base =>
    cases width with
    | byte => exact feed_narrowDisplaced32 .byte (by decide) h.2 h.1 disp
    | word => exact feed_narrowDisplaced32 .word (by decide) h.2 h.1 disp
    | long => exact feed_longDisplaced32 h.2 h.1 disp

private theorem feed_control {reg : ControlReg} {store : Bool} {f : PlaceField} (h : (control reg store).Takes f)
    (rest : List UInt8) :
    (Decoding.operation start).feed ((control reg store).encode f ++ rest) =
      (done ((control reg store).operation f.place)).feed rest := by
  rw [operation_control]
  cases f with
  | absolute8 aa => exact h.elim
  | absolute16 aa => exact feed_controlAbsolute16 reg aa
  | absolute32 aa => exact feed_controlAbsolute32 reg aa
  | displaced16 disp base => exact feed_controlDisplaced16 reg h disp
  | displaced32 disp base => exact feed_controlDisplaced32 reg h disp

/-- Each use of a place is decoded from each form that it takes. -/
theorem feed_encode {u : PlaceUse} {f : PlaceField} (h : u.Takes f) :
    (Decoding.operation start).feed (u.encode f) = some (done (u.operation f.place)) := by
  rw [← List.append_nil (u.encode f)]
  cases u with
  | move width store reg => exact feed_move h []
  | control reg store => exact feed_control h []
  | bit op number =>
    show (Decoding.operation start).feed (f.bitBytes op.modifies ++ bitSelection op number 0 ++ []) = _
    rw [List.append_assoc, feed_bitPlace h.1, feed_memoryBit h.2]
    rfl

end PlaceUse

end H8S
