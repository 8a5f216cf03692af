/-!
# Operand widths

Data operands are bytes, words of two bytes or longs of four.  Values of every width are kept in 32-bit words; `mask` says
which bits count, `signBit` and `halfBit` are the bits whose carries the condition codes report.
-/

namespace H8S

inductive Width where
  | byte
  | word
  | long
  deriving DecidableEq, Inhabited

namespace Width

def bytes : Width → UInt32
  | byte => 1
  | word => 2
  | long => 4

def bits : Width → UInt32
  | byte => 8
  | word => 16
  | long => 32

def mask : Width → UInt32
  | byte => 0xFF
  | word => 0xFFFF
  | long => 0xFFFFFFFF

def signBit : Width → UInt32
  | byte => 0x80
  | word => 0x8000
  | long => 0x80000000

/-- The top bit of all but the highest digit: its carry is the half carry. -/
def halfBit : Width → UInt32
  | byte => 0x08
  | word => 0x0800
  | long => 0x08000000

/-- Sign-extends the low `w.bits` bits to 32 bits. -/
def signExtend (w : Width) (v : UInt32) : UInt32 :=
  let low := v &&& w.mask
  if low &&& w.signBit = 0 then low else low ||| ~~~ w.mask

/-- The letter that marks the width in a mnemonic. -/
def suffix : Width → String
  | byte => "B"
  | word => "W"
  | long => "L"

/-- The width twice as large, as products and dividends have; a long has no double. -/
def double : Width → Width
  | byte => word
  | word => long
  | long => long

/-- The width half as large. -/
def half : Width → Width
  | byte => byte
  | word => byte
  | long => word

end Width

end H8S
