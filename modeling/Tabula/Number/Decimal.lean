import Tabula.Number.Binary64

/-!
# Decimals

The decimal side of floating-point numbers, in exact integer arithmetic.

* `Decimal.nearest` — the magnitude nearest to a decimal.
* `Decimal.shortest` — the fewest digits that read back as a magnitude.
* `Decimal.fixed`, `Decimal.significant` — a magnitude rounded to a number of places or digits.
-/

namespace Tabula

/-- The decimal `digits · 10 ^ exponent`. -/
structure Decimal where
  digits : Nat
  exponent : Int
  deriving DecidableEq, Repr, Inhabited

/-- Which neighbour an exact tie goes to. -/
inductive Tie where
  | even
  | up
  deriving DecidableEq, Repr

namespace Decimal

/-- The digits as characters, the most significant first. -/
def chars (d : Decimal) : List Char := Nat.toDigits 10 d.digits

/-- The place of the decimal point, counted from the left end of the digits. -/
def point (d : Decimal) : Int := d.chars.length + d.exponent

/-- The number of the magnitude nearest to the decimal. A value with more than four hundred places
before the point, or as many zeros after it, is beyond the grid and is decided by that count. -/
def nearest (d : Decimal) : Nat :=
  if d.digits = 0 then 0
  else if 400 < d.point then Grid.double.infinity
  else if d.point < -400 then 0
  else Grid.double.nearest (d.digits * Nat.pow 10 d.exponent.toNat)
    (Nat.pow 10 (-d.exponent).toNat)

/-- The same decimal without zeros at the end of its digits. -/
def trim (d : Decimal) : Decimal :=
  if _h : d.digits ≠ 0 ∧ d.digits % 10 = 0 then trim ⟨d.digits / 10, d.exponent + 1⟩ else d
termination_by d.digits
decreasing_by omega

/-- The exponent of the leading digit of `num / den`, for a binary fraction `num / den`. -/
def leadingExponent (num den : Nat) : Int :=
  if den ≤ num then (Nat.toDigits 10 (num / den)).length - 1
  else -((Nat.toDigits 10 (den / num)).length : Int)

/-- The neighbours of `num / den` on the multiples of `10 ^ e` that read back as magnitude `m`; the
nearer one if both do. -/
def neighbour? (tie : Tie) (m num den : Nat) (e : Int) : Option Decimal :=
  let x := num * Nat.pow 10 (-e).toNat
  let y := den * Nat.pow 10 e.toNat
  let low : Decimal := ⟨x / y, e⟩
  let high : Decimal := ⟨x / y + 1, e⟩
  let rest := 2 * (x % y)
  let lowIsNearer :=
    match tie with
    | .even => rest < y || (rest == y && low.digits % 2 == 0)
    | .up => rest < y
  match low.nearest == m, high.nearest == m with
  | true, true => some (if lowIsNearer then low else high)
  | true, false => some low
  | false, true => some high
  | false, false => none

/-- The decimal of the fewest digits that reads back as the finite magnitude `m`, and of those the
nearest to it. Seventeen digits always suffice; the last case is the exact value. -/
def shortest (tie : Tie) (m : Nat) : Decimal :=
  if m = 0 then ⟨0, 0⟩
  else
    let num := Grid.double.units m
    let den := Grid.double.unitsPerOne
    let lead := leadingExponent num den
    let found := (List.range 17).findSome? fun i => neighbour? tie m num den (lead - Int.ofNat i)
    (found.getD ⟨num * Nat.pow 5 Grid.double.unitExponent, -Grid.double.unitExponent⟩).trim

/-- The finite magnitude `m` rounded to a number of decimal places, ties to even. -/
def fixed (places m : Nat) : Decimal :=
  ⟨roundDiv (Grid.double.units m * Nat.pow 10 places) Grid.double.unitsPerOne, -(places : Int)⟩

/-- The finite positive magnitude `m` rounded to `extra + 1` significant digits, ties to even. -/
def significant (extra m : Nat) : Decimal :=
  let num := Grid.double.units m
  let den := Grid.double.unitsPerOne
  let e := leadingExponent num den - extra
  let c := roundDiv (num * Nat.pow 10 (-e).toNat) (den * Nat.pow 10 e.toNat)
  if c = Nat.pow 10 (extra + 1) then ⟨Nat.pow 10 extra, e + 1⟩ else ⟨c, e⟩

end Decimal

end Tabula
