/-!
# Unsigned numbers

An unsigned number is written with digits of a radix after an optional plus sign.  `Number.read` reads one below a bound and
says why it cannot.
-/

namespace H8S.Number

inductive Error where
  | empty
  | invalidDigit
  | tooLarge
  deriving DecidableEq

def Error.message : Error → String
  | empty => "cannot parse integer from empty string"
  | invalidDigit => "invalid digit found in string"
  | tooLarge => "number too large to fit in target type"

/-- The value of a letter or a decimal digit, in any radix. -/
def digit (c : Char) : Nat :=
  if '0' ≤ c ∧ c ≤ '9' then c.toNat - '0'.toNat
  else if 'a' ≤ c ∧ c ≤ 'z' then c.toNat - 'a'.toNat + 10
  else if 'A' ≤ c ∧ c ≤ 'Z' then c.toNat - 'A'.toNat + 10
  else 36

/-- Reads digits after those of `n`; of two errors the one further left is found. -/
def readDigits (radix bound : Nat) : Nat → List Char → Except Error Nat
  | n, [] => .ok n
  | n, c :: cs =>
    if radix ≤ digit c then .error .invalidDigit
    else if bound ≤ n * radix + digit c then .error .tooLarge
    else readDigits radix bound (n * radix + digit c) cs

/-- Reads a number below a bound.  A sign alone is a digit that is invalid. -/
def read (radix bound : Nat) : List Char → Except Error Nat
  | [] => .error .empty
  | '+' :: c :: cs => readDigits radix bound 0 (c :: cs)
  | cs => readDigits radix bound 0 cs

theorem readDigits_lt {radix bound n m : Nat} {cs : List Char} (hn : n < bound)
    (h : readDigits radix bound n cs = .ok m) : m < bound := by
  induction cs generalizing n with
  | nil => cases h; exact hn
  | cons c cs ih =>
    unfold readDigits at h
    split at h
    · cases h
    · split at h
      · cases h
      · exact ih (by omega) h

/-- What is read is below the bound. -/
theorem read_lt {radix bound m : Nat} {cs : List Char} (hb : 0 < bound) (h : read radix bound cs = .ok m) : m < bound := by
  unfold read at h
  split at h
  · cases h
  · exact readDigits_lt hb h
  · exact readDigits_lt hb h

end H8S.Number
