import H8S.Address
import H8S.Fault
import H8S.Instruction

/-!
# Decodings

A `Decoding` asks for the bytes of an encoding one after the other and ends in a result or in the verdict that the bytes so
far begin no instruction.  It knows neither memory nor cycles: `Decoding.run` feeds it from any source of bytes, and is the
only place where addresses are fetched.  What a decoding returns therefore depends on the bytes it asked for and on nothing
else.
-/

namespace H8S

inductive Decoding (α : Type) where
  | done (result : α)
  | illegal
  | byte (next : UInt8 → Decoding α)

namespace Decoding

variable {α β : Type}

protected def bind : Decoding α → (α → Decoding β) → Decoding β
  | done a, f => f a
  | illegal, _ => illegal
  | byte next, f => byte fun b => (next b).bind f

instance : Monad Decoding where
  pure := done
  bind := Decoding.bind

/-! ### Fields -/

def next : Decoding UInt8 := byte done

/-- Two bytes, the high one first. -/
def word : Decoding UInt32 := do
  let hi ← next
  let lo ← next
  return hi.toUInt32 <<< 8 ||| lo.toUInt32

def long : Decoding UInt32 := do
  let hi ← word
  let lo ← word
  return hi <<< 16 ||| lo

/-- A 16-bit number extended by its sign. -/
def signedWord : Decoding UInt32 := do
  return Width.word.signExtend (← word)

/-- An 8-bit number extended by its sign. -/
def signedByte : Decoding UInt32 := do
  return Width.byte.signExtend (← next).toUInt32

/-- A 16-bit absolute address, which names the two ends of the address space. -/
def address16 : Decoding UInt32 := do
  return Address.trunc (← signedWord)

/-- A 32-bit absolute address, of which the top byte is ignored. -/
def address32 : Decoding UInt32 := do
  return Address.trunc (← long)

/-- The bytes so far are illegal unless the condition holds. -/
def require (condition : Bool) : Decoding Unit :=
  if condition then done () else illegal

/-! ### Sources of bytes -/

/-- Feeds a decoding with the bytes after those consumed, which lie at `start`. -/
def run {m : Type → Type} [Monad m] [MonadExcept Fault m] (fetch : UInt32 → m UInt8) (start : UInt32) :
    Decoding α → List UInt8 → m (α × List UInt8)
  | done a, consumed => pure (a, consumed)
  | illegal, consumed => throw (.illegalInstruction start consumed)
  | byte next, consumed => do
    let b ← fetch (start + consumed.length.toUInt32)
    run fetch start (next b) (consumed ++ [b])

end Decoding

/-- The high half of an opcode byte. -/
def highNibble (b : UInt8) : UInt8 := b >>> 4

def lowNibble (b : UInt8) : UInt8 := b &&& 0x0F

/-- The high half of a byte without its top bit: a pointer or a bit number. -/
def highThree (b : UInt8) : UInt8 := (b >>> 4) &&& 7

def lowThree (b : UInt8) : UInt8 := b &&& 7

/-- Whether the top bit is set, which marks stores and inverted forms. -/
def topBit (b : UInt8) : Bool := b &&& 0x80 != 0

end H8S
