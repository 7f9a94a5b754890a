import Tabula.Number.Rounding

/-!
# Floating-point numbers of 64 and 32 bits

Numbers are their bit patterns, and everything said about them is exact integer arithmetic on the
pattern. A finite number is an integer count of the smallest positive magnitude, so its value needs
no rationals.

* `Binary64.canonical` — folds every not-a-number into one and the negative zero into the positive.
* `Binary64.rank` — the place of a number in the total order; equal ranks are equal values.
* `Binary64.units` — the value of a finite number as a multiple of the smallest magnitude.
* `Binary64.integer?` — the integer that a number is, if it is one.
* `Binary64.ofInt`, `Binary32.widen`, `Binary64.narrow` — conversions, rounded to nearest.
-/

namespace Tabula

/-- A floating-point number of 64 bits: a sign bit, eleven bits of exponent and 52 of fraction. -/
structure Binary64 where
  bits : UInt64
  deriving DecidableEq, Repr, Inhabited

/-- A floating-point number of 32 bits: a sign bit, eight bits of exponent and 23 of fraction. -/
structure Binary32 where
  bits : UInt32
  deriving DecidableEq, Repr, Inhabited

/-- The bit of the sign. -/
def Binary32.signBit : Nat := 0x80000000

namespace Binary64

/-- The bit of the sign. -/
def signBit : Nat := 0x8000000000000000

/-- The number of the magnitude on the grid: the pattern without its sign bit. -/
def magnitude (x : Binary64) : Nat := x.bits.toNat % signBit

/-- Whether the sign bit is set, also for a zero or a not-a-number. -/
def isNegative (x : Binary64) : Bool := signBit ≤ x.bits.toNat

/-- The number with the given sign bit and magnitude. -/
def ofParts (negative : Bool) (magnitude : Nat) : Binary64 :=
  ⟨UInt64.ofNat (if negative then signBit + magnitude else magnitude)⟩

/-- The one not-a-number that stands for all of them. -/
def nan : Binary64 := ⟨0x7ff8000000000000⟩

/-- The positive zero. -/
def zero : Binary64 := ⟨0⟩

def isNaN (x : Binary64) : Bool := Grid.double.infinity < x.magnitude

def isFinite (x : Binary64) : Bool := x.magnitude < Grid.double.infinity

def isInfinite (x : Binary64) : Bool := x.magnitude == Grid.double.infinity

def isZero (x : Binary64) : Bool := x.magnitude == 0

/-- Every not-a-number becomes `nan` and both zeros become `zero`. -/
def canonical (x : Binary64) : Binary64 :=
  if x.isNaN then nan else if x.isZero then zero else x

/-- The place of the number in the total order: negative numbers by falling magnitude, then the two
zeros together, then positive numbers by rising magnitude, infinity, and every not-a-number. -/
def rank (x : Binary64) : Int :=
  let c := x.canonical
  if c.isNegative then -(c.magnitude : Int) else c.magnitude

/-- The value of a finite number as a multiple of the smallest positive magnitude. -/
def units (x : Binary64) : Int :=
  let u := Grid.double.units x.magnitude
  if x.isNegative then -(u : Int) else u

/-- The integer that the number is; a fraction, an infinity and a not-a-number are none. -/
def integer? (x : Binary64) : Option Int :=
  if x.isFinite && x.units % (Grid.double.unitsPerOne : Int) == 0 then
    some (x.units / (Grid.double.unitsPerOne : Int))
  else none

/-- The number nearest to an integer. -/
def ofInt (i : Int) : Binary64 := ofParts (i < 0) (Grid.double.nearest i.natAbs 1)

/-- The 32-bit number nearest to a 64-bit one. -/
def narrow (x : Binary64) : Binary32 :=
  let m :=
    if x.isNaN then 0x7fc00000
    else if x.isInfinite then Grid.single.infinity
    else Grid.single.nearest x.units.natAbs Grid.double.unitsPerOne
  ⟨UInt32.ofNat (if x.isNegative then Binary32.signBit + m else m)⟩

end Binary64

namespace Binary32

/-- The number of the magnitude on the grid: the pattern without its sign bit. -/
def magnitude (x : Binary32) : Nat := x.bits.toNat % signBit

/-- Whether the sign bit is set. -/
def isNegative (x : Binary32) : Bool := signBit ≤ x.bits.toNat

/-- The 64-bit number of the same value, which always exists. All not-a-numbers become the same one,
whatever their sign and payload. -/
def widen (x : Binary32) : Binary64 :=
  if Grid.single.infinity < x.magnitude then .nan
  else if x.magnitude = Grid.single.infinity then .ofParts x.isNegative Grid.double.infinity
  else .ofParts x.isNegative
    (Grid.double.nearest (Grid.single.units x.magnitude) Grid.single.unitsPerOne)

end Binary32

end Tabula
