/-!
# JSON strings

A string is written between quotes, with a short escape for the characters that have one and four
hexadecimal digits for the other control characters; everything else stands for itself.

A string is read in two steps. The scanner accepts what the grammar allows and returns pieces; the
pieces are then joined, which fails exactly if one half of a surrogate pair stands alone. A reader
that skips a value needs the first step only.

* `Json.quote` — the written form of a string.
* `Json.scanString` — the pieces up to the closing quote.
* `Json.joinPieces` — the characters that the pieces stand for.
-/

namespace Tabula.Json

/-- A digit of base sixteen, letters in lower case. -/
def hexDigit (n : Nat) : Char := Nat.digitChar (n % 16)

/-- The value of a digit of base sixteen, letters in either case. -/
def hexValue? (c : Char) : Option Nat :=
  if c.isDigit then some (c.toNat - '0'.toNat)
  else if 'a' ≤ c ∧ c ≤ 'f' then some (c.toNat - 'a'.toNat + 10)
  else if 'A' ≤ c ∧ c ≤ 'F' then some (c.toNat - 'A'.toNat + 10)
  else none

/-- One character as it stands inside a string. -/
def escapeChar (c : Char) : List Char :=
  if c = '"' then ['\\', '"']
  else if c = '\\' then ['\\', '\\']
  else if c = '\x08' then ['\\', 'b']
  else if c = '\x0c' then ['\\', 'f']
  else if c = '\n' then ['\\', 'n']
  else if c = '\r' then ['\\', 'r']
  else if c = '\t' then ['\\', 't']
  else if c.toNat < 32 then ['\\', 'u', '0', '0', hexDigit (c.toNat / 16), hexDigit c.toNat]
  else [c]

/-- A string in quotes. -/
def quote (s : String) : List Char := '"' :: (s.toList.flatMap escapeChar ++ ['"'])

/-- What one character or one escape stands for. -/
inductive Piece where
  | char (c : Char)
  /-- Half of a surrogate pair. -/
  | surrogate (unit : Nat)
  deriving DecidableEq, Repr

/-- The piece with a number of four hexadecimal digits. -/
def Piece.ofUnit (n : Nat) : Piece :=
  if 0xd800 ≤ n ∧ n < 0xe000 then .surrogate n else .char (Char.ofNat n)

/-- The character of an escape of one letter. -/
def unescape? (c : Char) : Option Char :=
  if c = '"' ∨ c = '\\' ∨ c = '/' then some c
  else if c = 'b' then some '\x08'
  else if c = 'f' then some '\x0c'
  else if c = 'n' then some '\n'
  else if c = 'r' then some '\r'
  else if c = 't' then some '\t'
  else none

/-- The number of four hexadecimal digits. -/
def hexNumber? (a b c d : Char) : Option Nat := do
  return (← hexValue? a) * 4096 + (← hexValue? b) * 256 + (← hexValue? c) * 16 + (← hexValue? d)

/-- The pieces up to the closing quote, and the rest after it. A control character may not stand for
itself. -/
def scanString : List Char → Option (List Piece × List Char)
  | [] => none
  | '"' :: rest => some ([], rest)
  | '\\' :: 'u' :: a :: b :: c :: d :: rest =>
    (hexNumber? a b c d).bind fun n =>
      (scanString rest).map fun (ps, rest) => (Piece.ofUnit n :: ps, rest)
  | '\\' :: c :: rest =>
    (unescape? c).bind fun u => (scanString rest).map fun (ps, rest) => (Piece.char u :: ps, rest)
  | c :: rest =>
    if c.toNat < 32 ∨ c = '\\' then none
    else (scanString rest).map fun (ps, rest) => (Piece.char c :: ps, rest)

/-- The character that two halves of a surrogate pair stand for. -/
def pairChar? (high low : Nat) : Option Char :=
  if high < 0xdc00 ∧ 0xdc00 ≤ low then
    some (Char.ofNat (0x10000 + (high - 0xd800) * 0x400 + (low - 0xdc00)))
  else none

/-- The characters of the pieces; none if half of a surrogate pair stands alone. -/
def joinPieces : List Piece → Option (List Char)
  | [] => some []
  | .char c :: rest => (joinPieces rest).map (c :: ·)
  | .surrogate high :: .surrogate low :: rest =>
    (pairChar? high low).bind fun c => (joinPieces rest).map (c :: ·)
  | .surrogate _ :: _ => none

end Tabula.Json
