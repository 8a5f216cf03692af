/-!
# Hexadecimal text

Numbers are written in upper-case hexadecimal, padded with zeros to a least number of digits and never cut
(`Hex.padded`).
-/

namespace H8S.Hex

def digit (n : Nat) : Char :=
  "0123456789ABCDEF".toList.getD (n % 16) '0'

/-- How many digits a number needs. -/
def digitCount (n : Nat) : Nat := Nat.log2 n / 4 + 1

/-- The `k` lowest digits of `n`, highest first. -/
def digits : Nat → Nat → List Char
  | 0, _ => []
  | k + 1, n => digits k (n / 16) ++ [digit n]

def padded (width n : Nat) : String := String.ofList (digits (max width (digitCount n)) n)

/-- The shortest text, which is `0` for zero. -/
def minimal (n : Nat) : String := padded 1 n

def byte (b : UInt8) : String := padded 2 b.toNat

def address (a : UInt32) : String := padded 6 a.toNat

def long (v : UInt32) : String := padded 8 v.toNat

/-- Bytes with a space between each two. -/
def spaced (bs : List UInt8) : String := " ".intercalate (bs.map byte)

end H8S.Hex
