import H8S.Alu.Arithmetic

/-!
# Decimal adjustment

A byte holds two decimal digits.  After an addition or subtraction of such bytes the adjustment, which is the data sheet's
table on the two halves of the result and the carries, makes the digits decimal again.
-/

namespace H8S.Alu

/-- What is added after an addition. -/
def additionAdjustment (value : UInt8) (carry half : Bool) : UInt8 :=
  let hi := value >>> 4
  let lo := value &&& 0x0F
  match carry, half with
  | true, true => if hi ≤ 3 ∧ lo ≤ 3 then 0x66 else 0x00
  | true, false => if hi ≤ 2 then (if lo ≤ 9 then 0x60 else 0x66) else 0x00
  | false, true => if lo ≤ 3 then (if hi ≤ 9 then 0x06 else 0x66) else 0x00
  | false, false =>
    if lo ≤ 9 then (if hi ≤ 9 then 0x00 else 0x60) else (if hi ≤ 8 then 0x06 else 0x66)

/-- What is added after a subtraction. -/
def subtractionAdjustment (value : UInt8) (carry half : Bool) : UInt8 :=
  let hi := value >>> 4
  let lo := value &&& 0x0F
  match carry, half with
  | true, true => if 6 ≤ hi ∧ 6 ≤ lo then 0x9A else 0x00
  | true, false => if 7 ≤ hi ∧ lo ≤ 9 then 0xA0 else 0x00
  | false, true => if hi ≤ 8 ∧ 6 ≤ lo then 0xFA else 0x00
  | false, false => 0x00

/-- The byte after an addition made decimal; a decimal carry is added to the binary one. -/
def adjustAddition (value : UInt8) (f : ConditionCodes) : Result :=
  let adjustment := additionAdjustment value f.c f.h
  let adjusted := moved .byte (value + adjustment).toUInt32 f
  { adjusted with flags := { adjusted.flags with c := f.c || 0x06 < adjustment } }

/-- The byte after a subtraction made decimal; the flags are those of adding the adjustment. -/
def adjustSubtraction (value : UInt8) (f : ConditionCodes) : Result :=
  add .byte value.toUInt32 (subtractionAdjustment value f.c f.h).toUInt32 false false f

end H8S.Alu
