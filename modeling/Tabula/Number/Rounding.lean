/-!
# Rounding to a binary grid

A floating-point format is a grid of magnitudes, numbered from zero upwards. The number of a
magnitude is its bit pattern without the sign, so consecutive numbers are consecutive magnitudes,
and one formula covers subnormal and normal magnitudes alike.

* `roundDiv` — a quotient rounded to the nearest integer, a tie to the even neighbour.
* `Grid.units` — a magnitude as a multiple of the smallest positive one.
* `Grid.nearest` — the number of the magnitude nearest to a non-negative quotient.
-/

namespace Tabula

/-- The quotient rounded to the nearest integer; a tie goes to the even neighbour. -/
def roundDiv (num den : Nat) : Nat :=
  let q := num / den
  let r := num % den
  if 2 * r < den ∨ (2 * r = den ∧ q % 2 = 0) then q else q + 1

/-- A binary floating-point grid. -/
structure Grid where
  /-- Bits stored after the leading one of a normal significand. -/
  fractionBits : Nat
  /-- The smallest positive magnitude is two to the minus `unitExponent`. -/
  unitExponent : Nat
  /-- The number given to infinity; larger numbers stand for no number at all. -/
  infinity : Nat

namespace Grid

/-- The grid of 64-bit numbers. -/
def double : Grid := ⟨52, 1074, 0x7ff0000000000000⟩

/-- The grid of 32-bit numbers. -/
def single : Grid := ⟨23, 149, 0x7f800000⟩

variable (g : Grid)

/-- The first normal significand, which is also the count of magnitudes in one binade. -/
def binade : Nat := Nat.pow 2 g.fractionBits

/-- The smallest positive magnitude is one over this. -/
def unitsPerOne : Nat := Nat.pow 2 g.unitExponent

/-- How many times the magnitude numbered `m` holds the smallest positive one. -/
def units (m : Nat) : Nat :=
  match m / g.binade with
  | 0 => m
  | e + 1 => (g.binade + m % g.binade) * Nat.pow 2 e

/-- The number of the magnitude nearest to `num / den`, a tie going to the even number.

The value is first counted in smallest magnitudes; `e` doublings of that step leave a significand
of at most one bit more than the stored ones. A significand that rounds up to the next power of two
carries into the exponent by plain addition. -/
def nearest (num den : Nat) : Nat :=
  let scaled := num * g.unitsPerOne
  let e := (scaled / den).log2 - g.fractionBits
  min g.infinity (e * g.binade + roundDiv scaled (den * Nat.pow 2 e))

end Grid

end Tabula
