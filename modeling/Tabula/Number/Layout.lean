import Tabula.Number.Decimal

/-!
# Writing floating-point numbers

One layout says how a number's shortest digits are set: which numbers are written positionally,
whether a whole number keeps a point, how an exponent looks and where an exact tie goes.

* `Layout.plain` — never an exponent, and no point after a whole number.
* `Layout.signed`, `Layout.compact` — an exponent from `10 ^ 16` upwards and below `10 ^ -5`, with
  and without a plus sign; otherwise at least one decimal.
-/

namespace Tabula

/-- How the digits of a floating-point number are set. -/
structure Layout where
  /-- Where an exact tie between two shortest decimals goes. -/
  tie : Tie
  /-- The exponents of the leading digit that are written positionally, from the first up to but
  not including the second; without bounds every number is. -/
  positional : Option (Int × Int)
  /-- Whether a point and a zero follow the digits of a whole number. -/
  marksWhole : Bool
  /-- Whether an exponent that is not negative has a plus sign. -/
  marksPlus : Bool

namespace Layout

/-- Numbers in messages and cells. -/
def plain : Layout := ⟨.up, none, false, false⟩

/-- Numbers in JSON text of values and errors. -/
def signed : Layout := ⟨.even, some (-5, 16), true, true⟩

/-- Numbers in files. -/
def compact : Layout := ⟨.even, some (-5, 16), true, false⟩

/-- The digits with the point set between them, padded with zeros on either side. -/
def positionalChars (marksWhole : Bool) (d : Decimal) : List Char :=
  let cs := d.chars
  if d.point ≤ 0 then '0' :: '.' :: (List.replicate (-d.point).toNat '0' ++ cs)
  else if (cs.length : Int) ≤ d.point then
    cs ++ List.replicate (d.point - cs.length).toNat '0' ++ (if marksWhole then ['.', '0'] else [])
  else cs.take d.point.toNat ++ '.' :: cs.drop d.point.toNat

/-- The first digit, the others after a point, and the exponent of the first digit. -/
def scientificChars (marksPlus : Bool) (d : Decimal) : List Char :=
  let e := d.point - 1
  let fraction := d.chars.drop 1
  d.chars.take 1 ++ (if fraction.isEmpty then [] else '.' :: fraction) ++ 'e' ::
    ((if marksPlus ∧ 0 ≤ e then ['+'] else []) ++ (toString e).toList)

/-- The digits set as the layout says. -/
def decimalChars (l : Layout) (d : Decimal) : List Char :=
  match l.positional with
  | none => positionalChars l.marksWhole d
  | some (low, high) =>
    if low ≤ d.point - 1 ∧ d.point - 1 < high then positionalChars l.marksWhole d
    else scientificChars l.marksPlus d

/-- The text of a number: the shortest digits that read back, or the name of what is not finite. -/
def render (l : Layout) (x : Binary64) : String :=
  let sign := if x.isNegative then ['-'] else []
  if x.isNaN then "NaN"
  else if x.isInfinite then String.ofList (sign ++ "inf".toList)
  else String.ofList (sign ++ l.decimalChars (.shortest l.tie x.magnitude))

end Layout

end Tabula
