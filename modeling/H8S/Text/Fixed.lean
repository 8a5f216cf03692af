/-!
# Fixed decimals

A quotient is written with a fixed number of decimal places.  It is rounded to the nearest number that has them, and to the
one with an even last digit if two are equally near (`two_mul_nearest_le`, `le_two_mul_nearest`, `nearest_even_of_tie`).  A
float is written as the quotient that it is.
-/

namespace H8S.Fixed

/-- The integer nearest to a quotient, and of two the even one. -/
def nearest (num den : Nat) : Nat :=
  if 2 * (num % den) < den ∨ (2 * (num % den) = den ∧ num / den % 2 = 0) then num / den else num / den + 1

theorem two_mul_nearest_le (num : Nat) {den : Nat} (hd : 0 < den) : 2 * (den * nearest num den) ≤ 2 * num + den := by
  have hdiv := Nat.div_add_mod num den
  have hmod := Nat.mod_lt num hd
  unfold nearest
  split
  · omega
  · rw [Nat.mul_add]
    omega

theorem le_two_mul_nearest (num : Nat) {den : Nat} (hd : 0 < den) : 2 * num ≤ 2 * (den * nearest num den) + den := by
  have hdiv := Nat.div_add_mod num den
  have hmod := Nat.mod_lt num hd
  unfold nearest
  split
  · omega
  · rw [Nat.mul_add]
    omega

theorem nearest_even_of_tie {num den : Nat} (h : 2 * (num % den) = den) : nearest num den % 2 = 0 := by
  unfold nearest
  split
  · omega
  · omega

def digit (n : Nat) : Char := "0123456789".toList.getD (n % 10) '0'

/-- The `k` lowest digits of a number, highest first. -/
def digits : Nat → Nat → List Char
  | 0, _ => []
  | k + 1, n => digits k (n / 10) ++ [digit n]

/-- A quotient with some decimal places. -/
def text (places num den : Nat) : String :=
  let unit := Nat.pow 10 places
  let scaled := nearest (num * unit) den
  toString (scaled / unit) ++ "." ++ String.ofList (digits places scaled)

/-- The magnitude of a finite float, as a quotient. -/
def quotient (x : Float) : Nat × Nat :=
  let bits := x.toBits.toNat
  let fraction := bits % (1 <<< 52)
  let exponent := (bits >>> 52) % (1 <<< 11)
  let significand := if exponent = 0 then fraction else (1 <<< 52) + fraction
  (significand <<< (max exponent 1 - 1075), 1 <<< (1075 - max exponent 1))

/-- A float that is finite and not negative, with some decimal places. -/
def ofFloat (places : Nat) (x : Float) : String := text places (quotient x).1 (quotient x).2

end H8S.Fixed
