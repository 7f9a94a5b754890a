/-!
# Decoding UTF-8

* `Utf8.strict?` — the characters that bytes encode, if they encode any.
* `Utf8.lossy` — the same, with the replacement character for what encodes nothing: for every byte
  that cannot begin a character, and for every beginning of one that is not continued.
-/

namespace Tabula.Utf8

/-- A character of which some bytes are still to come. -/
structure Pending where
  /-- The bits read so far. -/
  code : Nat
  /-- The number of bytes to come. -/
  owed : Nat
  /-- The range of the next byte, which for the second byte of some characters is narrower. -/
  low : Nat
  high : Nat

/-- What stands for bytes that encode nothing. -/
def replacement : Char := '\ufffd'

/-- The characters completed by a byte that does not continue a character, and what it begins. -/
def begin (b : Nat) : List Char × Option Pending :=
  if b < 0x80 then ([Char.ofNat b], none)
  else if b < 0xc2 then ([replacement], none)
  else if b < 0xe0 then ([], some ⟨b - 0xc0, 1, 0x80, 0xbf⟩)
  else if b = 0xe0 then ([], some ⟨0, 2, 0xa0, 0xbf⟩)
  else if b = 0xed then ([], some ⟨0xd, 2, 0x80, 0x9f⟩)
  else if b < 0xf0 then ([], some ⟨b - 0xe0, 2, 0x80, 0xbf⟩)
  else if b = 0xf0 then ([], some ⟨0, 3, 0x90, 0xbf⟩)
  else if b < 0xf4 then ([], some ⟨b - 0xf0, 3, 0x80, 0xbf⟩)
  else if b = 0xf4 then ([], some ⟨4, 3, 0x80, 0x8f⟩)
  else ([replacement], none)

/-- The characters completed by one byte, and the character that is pending after it. -/
def step (pending : Option Pending) (b : Nat) : List Char × Option Pending :=
  match pending with
  | none => begin b
  | some p =>
    if p.low ≤ b ∧ b ≤ p.high then
      let code := p.code * 64 + (b - 0x80)
      if p.owed = 1 then ([Char.ofNat code], none) else ([], some ⟨code, p.owed - 1, 0x80, 0xbf⟩)
    else
      let (cs, next) := begin b
      (replacement :: cs, next)

/-- The characters of the bytes after a pending one. -/
def decode : Option Pending → List UInt8 → List Char
  | none, [] => []
  | some _, [] => [replacement]
  | pending, b :: bs =>
    let (cs, next) := step pending b.toNat
    cs ++ decode next bs

/-- The characters that the bytes encode, if they encode any. -/
def strict? (bytes : ByteArray) : Option (List Char) := (String.fromUTF8? bytes).map String.toList

/-- The characters that the bytes encode, with the replacement character for what encodes nothing.
-/
def lossy (bytes : ByteArray) : List Char := decode none bytes.toList

end Tabula.Utf8
