import Tabula.Number.Decimal

/-!
# JSON numbers

A number is kept as it is written, because readers differ in what they make of it.

* `Json.Number.integer?` — the integer that a literal without point and exponent denotes.
* `Json.Number.nearest` — the magnitude nearest to the literal.
* `Json.Number.stepwise?` — the magnitude found in steps of one rounding each: the leading digits
  that fit 64 bits, then a power of ten.
-/

namespace Tabula.Json

/-- A number literal. -/
structure Number where
  negative : Bool
  /-- The digits before the point. -/
  whole : List Char
  /-- The digits after the point; without any there is no point. -/
  fraction : List Char
  exponent : Option Int
  deriving DecidableEq, Repr

/-- The number that a list of decimal digits denotes. -/
def digitsValue (cs : List Char) : Nat := Nat.ofDigitChars 10 cs 0

namespace Number

/-- The literal without its sign as a decimal. -/
def decimal (n : Number) : Decimal :=
  ⟨digitsValue (n.whole ++ n.fraction), n.exponent.getD 0 - n.fraction.length⟩

/-- The integer that the literal denotes, if it has neither point nor exponent. -/
def integer? (n : Number) : Option Int :=
  if n.fraction.isEmpty && n.exponent.isNone then
    some (if n.negative then -(digitsValue n.whole : Int) else digitsValue n.whole)
  else none

/-- The magnitude nearest to the literal. -/
def nearest (n : Number) : Nat := n.decimal.nearest

/-- Appends digits to a number while it fits 64 bits, and returns the digits left over. -/
def appendDigits (acc : Nat) : List Char → Nat × List Char
  | [] => (acc, [])
  | c :: cs =>
    let next := 10 * acc + (c.toNat - '0'.toNat)
    if next < UInt64.size then appendDigits next cs else (acc, c :: cs)

/-- The magnitude nearest to a power of ten, counted in smallest magnitudes. -/
def powerUnits (k : Nat) : Nat := Grid.double.units (Grid.double.nearest (Nat.pow 10 k) 1)

/-- A magnitude divided by a power of ten, itself rounded. -/
def divideByPower (m k : Nat) : Nat := Grid.double.nearest (Grid.double.units m) (powerUnits k)

/-- A magnitude times a power of ten. Beyond the largest finite magnitude there is none. A power
below `10 ^ -308` is no magnitude itself, so the value is divided by `10 ^ 308` first. -/
def scale? (m : Nat) (e : Int) : Option Nat :=
  if _h : e < -308 then
    if m = 0 then some 0 else scale? (divideByPower m 308) (e + 308)
  else if e < 0 then some (divideByPower m (-e).toNat)
  else if m = 0 then some 0
  else if 308 < e then none
  else
    let r := Grid.double.nearest (Grid.double.units m * powerUnits e.toNat)
      (Grid.double.unitsPerOne * Grid.double.unitsPerOne)
    if r < Grid.double.infinity then some r else none
termination_by (-e).toNat
decreasing_by omega

/-- The magnitude found by rounding the leading digits and then scaling them. Digits before the
point that no longer fit count as zeros, digits after it are dropped. -/
def stepwise? (n : Number) : Option Nat :=
  let (whole, beyond) := appendDigits 0 n.whole
  let (significand, dropped) := appendDigits whole n.fraction
  let used := n.fraction.length - dropped.length
  scale? (Grid.double.nearest significand 1) (n.exponent.getD 0 + beyond.length - used)

end Number

/-- The digits at the front of the text, if there are any, and the rest. -/
def readDigits? (cs : List Char) : Option (List Char × List Char) :=
  let ds := cs.takeWhile Char.isDigit
  if ds.isEmpty then none else some (ds, cs.dropWhile Char.isDigit)

/-- The digits after a point at the front of the text; no digits if there is no point. -/
def readFraction? : List Char → Option (List Char × List Char)
  | '.' :: rest => readDigits? rest
  | rest => some ([], rest)

/-- The exponent at the front of the text, if there is one. -/
def readExponent? : List Char → Option (Option Int × List Char)
  | c :: rest =>
    if c = 'e' ∨ c = 'E' then
      match rest with
      | '-' :: rest => (readDigits? rest).map fun (ds, rest) =>
        (some (-(digitsValue ds : Int)), rest)
      | '+' :: rest => (readDigits? rest).map fun (ds, rest) => (some (digitsValue ds), rest)
      | rest => (readDigits? rest).map fun (ds, rest) => (some (digitsValue ds), rest)
    else some (none, c :: rest)
  | [] => some (none, [])

/-- The unsigned part of a number literal. Only a lone zero may start with a zero. -/
def readUnsigned? (negative : Bool) (cs : List Char) : Option (Number × List Char) := do
  let (whole, rest) ← readDigits? cs
  if whole.head? = some '0' ∧ whole.length ≠ 1 then none
  let (fraction, rest) ← readFraction? rest
  let (exponent, rest) ← readExponent? rest
  return (⟨negative, whole, fraction, exponent⟩, rest)

/-- The number literal at the front of the text. -/
def readNumber? : List Char → Option (Number × List Char)
  | '-' :: rest => readUnsigned? true rest
  | rest => readUnsigned? false rest

end Tabula.Json
