import Tabula.Number.Layout
import Tabula.Value.Basic

/-!
# Cells of a display

* `Display.floatText` — a floating-point number in few characters.
* `Display.cellText` — any value, long texts cut short.
-/

namespace Tabula.Display

/-- What stands for what is left out. -/
def ellipsis : Char := '…'

/-- The greatest number of characters of a text that is not cut. -/
def longest : Nat := 30

/-- A text, cut after its first characters if it is long. -/
def cut (cs : List Char) : List Char :=
  if cs.length ≤ longest then cs else cs.take longest ++ [ellipsis]

/-- Digits after the point without zeros at their end, except for the first. -/
def trimZeros (cs : List Char) : List Char :=
  let kept := (cs.reverse.dropWhile (· == '0')).reverse
  if kept.getLast? = some '.' then kept ++ ['0'] else kept

/-- The magnitude of a finite number in few characters. A whole number below a million has one
place. A number whose shortest text (of the given length) has more than nine characters has four
places and an exponent if it is below a millionth or above 999999, otherwise at most six places. -/
def magnitudeText (isWhole : Bool) (length : Nat) (m : Nat) : List Char :=
  if isWhole && m < Decimal.nearest ⟨1, 6⟩ then Layout.positionalChars true (.fixed 1 m)
  else if 9 < length then
    if m < Decimal.nearest ⟨1, -6⟩ || Decimal.nearest ⟨999999, 0⟩ < m then
      Layout.scientificChars false (.significant 4 m)
    else trimZeros (Layout.positionalChars true (.fixed 6 m))
  else if isWhole then Layout.scientificChars false (.shortest .up m)
  else Layout.positionalChars true (.shortest .up m)

/-- A floating-point number in few characters. -/
def floatText (x : Binary64) : List Char :=
  let plain := (Layout.plain.render x).toList
  if x.isFinite then
    (if x.isNegative then ['-'] else []) ++
      magnitudeText x.integer?.isSome plain.length x.magnitude
  else plain

/-- The text of a value in a cell. -/
def cellText : Value → List Char
  | .null => "null".toList
  | .boolean b => (if b then "true" else "false").toList
  | .integer i => (toString i.toInt).toList
  | .float x => floatText x
  | .string s => cut s.toList

end Tabula.Display
