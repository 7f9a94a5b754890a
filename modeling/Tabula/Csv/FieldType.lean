import Tabula.Csv.Field
import Tabula.Value.Basic

/-!
# Types of CSV columns

The type of a column is told from the form of its fields: each field that is not empty votes for one
type, and the votes have to agree, except that integers join floating-point numbers.

* `Digit.isDecimal` — whether a character is a decimal digit of some script.
* `Csv.fieldType?` — the type that the form of a field asks for.
* `Csv.unifyTypes` — the type that a set of votes agrees on.
* `Csv.columnTypes` — the types of all columns from a sample of lines.
-/

namespace Tabula.Digit

/-- The blocks of decimal digits in ascending order, each with its first code point and its size. -/
def blocks : List (Nat × Nat) :=
  [(0x30, 10), (0x660, 10), (0x6f0, 10), (0x7c0, 10), (0x966, 10), (0x9e6, 10), (0xa66, 10),
   (0xae6, 10), (0xb66, 10), (0xbe6, 10), (0xc66, 10), (0xce6, 10), (0xd66, 10), (0xde6, 10),
   (0xe50, 10), (0xed0, 10), (0xf20, 10), (0x1040, 10), (0x1090, 10), (0x17e0, 10), (0x1810, 10),
   (0x1946, 10), (0x19d0, 10), (0x1a80, 10), (0x1a90, 10), (0x1b50, 10), (0x1bb0, 10),
   (0x1c40, 10), (0x1c50, 10), (0xa620, 10), (0xa8d0, 10), (0xa900, 10), (0xa9d0, 10),
   (0xa9f0, 10), (0xaa50, 10), (0xabf0, 10), (0xff10, 10), (0x104a0, 10), (0x10d30, 10),
   (0x10d40, 10), (0x11066, 10), (0x110f0, 10), (0x11136, 10), (0x111d0, 10), (0x112f0, 10),
   (0x11450, 10), (0x114d0, 10), (0x11650, 10), (0x116c0, 10), (0x116d0, 20), (0x11730, 10),
   (0x118e0, 10), (0x11950, 10), (0x11bf0, 10), (0x11c50, 10), (0x11d50, 10), (0x11da0, 10),
   (0x11f50, 10), (0x16a60, 10), (0x16ac0, 10), (0x16b50, 10), (0x16d70, 10), (0x1ccf0, 10),
   (0x1d7ce, 50), (0x1e140, 10), (0x1e2f0, 10), (0x1e4f0, 10), (0x1e5f1, 10), (0x1e950, 10),
   (0x1fbf0, 10)]

/-- Whether the character is a decimal digit of any script. -/
def isDecimal (c : Char) : Bool :=
  c.isDigit || (127 < c.toNat && blocks.any fun b => b.1 ≤ c.toNat && c.toNat < b.1 + b.2)

end Tabula.Digit

namespace Tabula.Csv

/-- The letter in lower case; the long s is a small letter s too. -/
def foldLetter (c : Char) : Char := if c = 'ſ' then 's' else c.toLower

/-- Whether the text is a truth value in letters of any case. -/
def isTruthForm (cs : List Char) : Bool :=
  let folded := cs.map foldLetter
  folded == "true".toList || folded == "false".toList

/-- Whether the text is a run of digits. -/
def isDigits (cs : List Char) : Bool := !cs.isEmpty && cs.all Digit.isDecimal

/-- Whether the text is a run of digits with at most a minus sign before it. -/
def isIntegerForm : List Char → Bool
  | '-' :: cs => isDigits cs
  | cs => isDigits cs

/-- The text without a sign at its front. -/
def dropSign : List Char → List Char
  | '-' :: cs => cs
  | '+' :: cs => cs
  | cs => cs

/-- Whether the text is the letter e in either case and digits, with at most a sign between. -/
def isExponentForm : List Char → Bool
  | [] => false
  | c :: cs => (c == 'e' || c == 'E') && isDigits (dropSign cs)

/-- Whether the text has a point or an exponent, or names a number that is not finite. -/
def isFloatForm (cs : List Char) : Bool :=
  let cs := dropSign cs
  let whole := cs.takeWhile Digit.isDecimal
  cs == "inf".toList || cs == "NaN".toList ||
    match cs.dropWhile Digit.isDecimal with
    | '.' :: rest =>
      let after := rest.dropWhile Digit.isDecimal
      if (rest.takeWhile Digit.isDecimal).isEmpty then !whole.isEmpty && after.isEmpty
      else after.isEmpty || isExponentForm after
    | rest => !whole.isEmpty && isExponentForm rest

/-- The type that the form of a text asks for. -/
def textType (cs : List Char) : ColumnType :=
  if isTruthForm cs then .boolean
  else if isFloatForm cs then .float
  else if isIntegerForm cs then .integer
  else .string

/-- The type that a field asks for, its quotes left aside; an empty field asks for none. -/
def fieldType? (f : Field) : Option ColumnType :=
  if f.text.isEmpty then none
  else some (textType (if f.isQuoted && 2 ≤ f.text.length then inner f.text else f.text))

/-- The type that a list of types agrees on. -/
def unifyTypes (types : List ColumnType) : ColumnType :=
  match types.eraseDups with
  | [type] => type
  | [.integer, .float] => .float
  | [.float, .integer] => .float
  | _ => .string

/-- The types of `n` columns from a sample of lines; empty lines say nothing. -/
def columnTypes (separator : Char) (n : Nat) (sample : List (List Char)) : List ColumnType :=
  let records := sample.map fun line => (scanFields separator n (dropReturn line)).1
  (List.range n).map fun i =>
    unifyTypes (records.filterMap fun fields => fields[i]?.bind fieldType?)

end Tabula.Csv
