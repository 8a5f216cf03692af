import H8S.ConditionCodes
import H8S.Instruction

/-!
# Addition, subtraction and logic

Operands are cut to their width.  The carries out of all bits of a sum are a word of bits themselves: a bit carries if both
operands have it, or one has it and the sum has not.  The carry and half carry are two bits of that word, and the overflow is
the top bit of the word of those bits whose operands agree with each other and not with the sum.  Subtraction reads its
borrows off in the same way.
-/

namespace H8S.Alu

/-- A value and the condition codes that go with it. -/
structure Result where
  value : UInt32
  flags : ConditionCodes
  deriving DecidableEq

/-- Whether the sign bit of a width is set. -/
def negative (w : Width) (value : UInt32) : Bool := value &&& w.signBit != 0

/-- Flags of a sum or difference.  With `keepZero` a zero leaves `Z` as it was, so that `Z` speaks of a chain of limbs. -/
def arithmeticFlags (w : Width) (value carries overflow : UInt32) (keepZero : Bool) (f : ConditionCodes) :
    ConditionCodes :=
  { f with
    h := carries &&& w.halfBit != 0
    n := negative w value
    z := value == 0 && (f.z || !keepZero)
    v := negative w overflow
    c := negative w carries }

/-- The sum with a carry in. -/
def add (w : Width) (a b : UInt32) (carry keepZero : Bool) (f : ConditionCodes) : Result :=
  let a := a &&& w.mask
  let b := b &&& w.mask
  let sum := (a + b + carry.toUInt32) &&& w.mask
  let carries := (a &&& b) ||| (a &&& ~~~ sum) ||| (b &&& ~~~ sum)
  let overflow := (a &&& b &&& ~~~ sum) ||| (~~~ a &&& ~~~ b &&& sum)
  ⟨sum, arithmeticFlags w sum carries overflow keepZero f⟩

/-- The difference with a borrow in. -/
def sub (w : Width) (a b : UInt32) (borrow keepZero : Bool) (f : ConditionCodes) : Result :=
  let a := a &&& w.mask
  let b := b &&& w.mask
  let difference := (a - b - borrow.toUInt32) &&& w.mask
  let borrows := (~~~ a &&& b) ||| (~~~ a &&& difference) ||| (b &&& difference)
  let overflow := (a &&& ~~~ b &&& ~~~ difference) ||| (~~~ a &&& b &&& difference)
  ⟨difference, arithmeticFlags w difference borrows overflow keepZero f⟩

/-- `N` and `Z` of a value. -/
def signFlags (w : Width) (value : UInt32) (f : ConditionCodes) : ConditionCodes :=
  { f with n := negative w value, z := value &&& w.mask == 0 }

/-- Flags of a move or a logic operation: `N` and `Z` of the value, and no overflow. -/
def moveFlags (w : Width) (value : UInt32) (f : ConditionCodes) : ConditionCodes :=
  { signFlags w value f with v := false }

/-- A value with the flags of its move. -/
def moved (w : Width) (value : UInt32) (f : ConditionCodes) : Result := ⟨value, moveFlags w value f⟩

/-- A small amount added; carries are not recorded. -/
def increment (w : Width) (value amount : UInt32) (f : ConditionCodes) : Result :=
  let value := value &&& w.mask
  let sum := (value + amount) &&& w.mask
  ⟨sum, { signFlags w sum f with v := negative w (~~~ value &&& sum) }⟩

/-- A small amount taken away; borrows are not recorded. -/
def decrement (w : Width) (value amount : UInt32) (f : ConditionCodes) : Result :=
  let value := value &&& w.mask
  let difference := (value - amount) &&& w.mask
  ⟨difference, { signFlags w difference f with v := negative w (value &&& ~~~ difference) }⟩

/-- An operation on a destination `a` and a source `b`. -/
def binary (op : AluOp) (w : Width) (a b : UInt32) (f : ConditionCodes) : Result :=
  match op with
  | .add => add w a b false false f
  | .addx => add w a b f.c true f
  | .sub | .cmp => sub w a b false false f
  | .subx => sub w a b f.c true f
  | .and => moved w (a &&& b) f
  | .or => moved w (a ||| b) f
  | .xor => moved w (a ^^^ b) f

/-- The low half of a value, extended to its width. -/
def extend (signed : Bool) (w : Width) (value : UInt32) : UInt32 :=
  let low := value &&& w.half.mask
  if signed then w.half.signExtend low &&& w.mask else low

def unary (op : UnaryOp) (w : Width) (value : UInt32) (f : ConditionCodes) : Result :=
  match op with
  | .neg => sub w 0 value false false f
  | .not => moved w (~~~ value &&& w.mask) f
  | .extu => moved w (extend false w value) f
  | .exts => moved w (extend true w value) f

end H8S.Alu
