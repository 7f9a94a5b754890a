import Mathlib.Data.List.TakeWhile
import Tabula.Json.Syntax

/-!
# Literals and strings in JSON texts

How numbers and strings may be written. A literal is a sign, digits, and maybe a fraction and an
exponent. A string consists of characters that stand for themselves and of escapes. Each of them is
read as what it stands for, in front of any text that does not go on where it ends.

* `Json.Literal` — a number literal; `Json.Literal.IsInteger` — one without fraction and exponent.
* `Json.readNumber?_chars`, `Json.readValue?_chars` — a literal is read as what is kept of it.
* `Json.Glyph` — a character or an escape; `Json.readString?_glyphs`, `Json.readValue?_glyphs` — a
  string is read glyph by glyph.
-/

namespace Tabula.Json

variable {c : Char} {cs rest : List Char} {fuel : Nat}

/-! ### Number literals -/

/-- Decimal digits, at least one. -/
structure Digits where
  chars : List Char
  ne_nil : chars ≠ []
  isDigit : ∀ c ∈ chars, c.isDigit = true

/-- The sign in front of the digits of an exponent. -/
inductive ExponentSign where
  | absent
  | plus
  | minus

def ExponentSign.chars : ExponentSign → List Char
  | absent => []
  | plus => ['+']
  | minus => ['-']

/-- An exponent as it is written, with the letter in upper or in lower case. -/
structure Exponent where
  upper : Bool
  sign : ExponentSign
  digits : Digits

namespace Exponent

def chars (e : Exponent) : List Char :=
  (if e.upper then 'E' else 'e') :: (e.sign.chars ++ e.digits.chars)

def toInt (e : Exponent) : Int :=
  match e.sign with
  | .minus => -(digitsValue e.digits.chars : Int)
  | _ => digitsValue e.digits.chars

end Exponent

/-- A number literal as it is written. -/
structure Literal where
  negative : Bool
  whole : Digits
  fraction : Option Digits
  exponent : Option Exponent
  /-- Only a lone zero starts with a zero. -/
  lead : whole.chars.head? = some '0' → whole.chars.length = 1

namespace Literal

/-- The point and the digits after it. -/
def fractionChars : Option Digits → List Char
  | none => []
  | some ds => '.' :: ds.chars

def exponentChars : Option Exponent → List Char
  | none => []
  | some e => e.chars

def unsignedChars (l : Literal) : List Char :=
  l.whole.chars ++ (fractionChars l.fraction ++ exponentChars l.exponent)

def chars (l : Literal) : List Char :=
  if l.negative then '-' :: l.unsignedChars else l.unsignedChars

/-- What is kept of the literal. -/
def number (l : Literal) : Number :=
  ⟨l.negative, l.whole.chars, (l.fraction.map Digits.chars).getD [],
    l.exponent.map Exponent.toInt⟩

/-- The literal has neither a fraction nor an exponent. -/
def IsInteger (l : Literal) : Prop := l.fraction = none ∧ l.exponent = none

/-- The integer that the digits and the sign denote. -/
def toInt (l : Literal) : Int :=
  if l.negative then -(digitsValue l.whole.chars : Int) else digitsValue l.whole.chars

/-- A literal without fraction and exponent keeps its integer. -/
theorem integer?_number {l : Literal} (h : l.IsInteger) : l.number.integer? = some l.toInt := by
  rw [number, h.1, h.2]
  rfl

end Literal

/-- The text does not go on with a number. -/
def EndsNumber (rest : List Char) : Prop :=
  ∀ c ∈ rest.head?, c.isDigit = false ∧ c ≠ '.' ∧ c ≠ 'e' ∧ c ≠ 'E'

/-- There is at least one digit. -/
theorem Digits.exists_eq_cons (ds : Digits) :
    ∃ c cs, ds.chars = c :: cs ∧ c.isDigit = true := by
  obtain ⟨c, cs, hcs⟩ := List.exists_cons_of_ne_nil ds.ne_nil
  exact ⟨c, cs, hcs, ds.isDigit c (hcs ▸ List.mem_cons_self)⟩

/-- Digits are read up to the first character that is none. -/
theorem readDigits?_chars (ds : Digits) (hrest : ∀ c ∈ rest.head?, c.isDigit = false) :
    readDigits? (ds.chars ++ rest) = some (ds.chars, rest) := by
  -- what follows has no digit at its front, so nothing of it is taken
  have hnone : rest.takeWhile Char.isDigit = [] ∧ rest.dropWhile Char.isDigit = rest := by
    cases rest with
    | nil => exact ⟨rfl, rfl⟩
    | cons c rest =>
      rw [List.takeWhile_cons, List.dropWhile_cons, hrest c rfl]
      exact ⟨rfl, rfl⟩
  rw [readDigits?, List.takeWhile_append_of_pos ds.isDigit, List.dropWhile_append_of_pos ds.isDigit,
    hnone.1, hnone.2, List.append_nil]
  exact if_neg (by simpa using ds.ne_nil)

/-- A fraction is read if there is one, and without a point there is none. -/
theorem readFraction?_chars (f : Option Digits)
    (hrest : ∀ c ∈ rest.head?, c.isDigit = false ∧ c ≠ '.') :
    readFraction? (Literal.fractionChars f ++ rest) =
      some ((f.map Digits.chars).getD [], rest) := by
  cases f with
  | none =>
    rw [Literal.fractionChars, List.nil_append, readFraction?.eq_def]
    -- a point in front of what follows would have been a fraction
    split
    · exact absurd rfl (hrest _ rfl).2
    · rfl
  | some ds => exact readDigits?_chars ds fun c hc => (hrest c hc).1

/-- So is an exponent, with its letter in upper or lower case and with or without a sign. -/
theorem readExponent?_chars (e : Option Exponent) (hrest : EndsNumber rest) :
    readExponent? (Literal.exponentChars e ++ rest) = some (e.map Exponent.toInt, rest) := by
  cases e with
  | none =>
    cases rest with
    | nil => rfl
    | cons c rest =>
      obtain ⟨-, -, he, hE⟩ := hrest c rfl
      rw [Literal.exponentChars, List.nil_append, readExponent?.eq_def]
      simp [he, hE]
  | some e =>
    obtain ⟨upper, sign, ds⟩ := e
    have hread : readDigits? (ds.chars ++ rest) = some (ds.chars, rest) :=
      readDigits?_chars ds fun c hc => (hrest c hc).1
    -- the letter is looked at once, and both cases of it go on in the same way
    have hletter : ∀ cs, readExponent? ((if upper then 'E' else 'e') :: cs) =
        readExponent? ('e' :: cs) := by
      intro cs
      cases upper with
      | true => rfl
      | false => rfl
    rw [Literal.exponentChars, Exponent.chars, List.cons_append, hletter, List.append_assoc]
    cases sign with
    | plus =>
      show (readDigits? (ds.chars ++ rest)).map _ = _
      rw [hread]
      rfl
    | minus =>
      show (readDigits? (ds.chars ++ rest)).map _ = _
      rw [hread]
      rfl
    | absent =>
      -- the first digit is neither of the signs
      obtain ⟨d, cs, hcs, hd⟩ := ds.exists_eq_cons
      have hplus : d ≠ '+' := by
        rintro rfl
        cases hd
      have hminus : d ≠ '-' := by
        rintro rfl
        cases hd
      rw [ExponentSign.chars, List.nil_append, readExponent?.eq_def]
      simp only [true_or, if_true]
      rw [hcs, List.cons_append] at hread ⊢
      split
      · next h => exact absurd (List.cons.inj h).1 hminus
      · next h => exact absurd (List.cons.inj h).1 hplus
      · rw [hread, ← hcs]
        rfl

/-- Without its sign a literal begins with a digit. -/
theorem Literal.exists_unsignedChars_eq_cons (l : Literal) :
    ∃ c cs, l.unsignedChars = c :: cs ∧ c.isDigit = true := by
  obtain ⟨c, cs, hcs, hc⟩ := l.whole.exists_eq_cons
  exact ⟨c, _, by rw [unsignedChars, hcs, List.cons_append], hc⟩

/-- A literal begins with its sign or with a digit, and so like no other value. -/
theorem Literal.exists_chars_eq_cons (l : Literal) :
    ∃ c cs, l.chars = c :: cs ∧ (c = '-' ∨ c.isDigit = true) := by
  obtain ⟨c, cs, hcs, hc⟩ := l.exists_unsignedChars_eq_cons
  rw [chars]
  split
  · exact ⟨_, _, rfl, .inl rfl⟩
  · exact ⟨c, cs, hcs, .inr hc⟩

/-- A literal is read part by part behind its sign: whole digits, fraction, exponent. -/
theorem readUnsigned?_chars (l : Literal) (hrest : EndsNumber rest) :
    readUnsigned? l.negative (l.unsignedChars ++ rest) = some (l.number, rest) := by
  -- what follows the whole digits and the fraction ends each of them
  have hexp : ∀ c ∈ (Literal.exponentChars l.exponent ++ rest).head?,
      c.isDigit = false ∧ c ≠ '.' := by
    cases l.exponent with
    | none => exact fun c hc => ⟨(hrest c hc).1, (hrest c hc).2.1⟩
    | some e =>
      intro c hc
      obtain rfl := Option.some.inj hc
      cases e.upper with
      | true => exact ⟨rfl, by decide⟩
      | false => exact ⟨rfl, by decide⟩
  have hfrac : ∀ c ∈ (Literal.fractionChars l.fraction ++
      (Literal.exponentChars l.exponent ++ rest)).head?, c.isDigit = false := by
    cases l.fraction with
    | none => exact fun c hc => (hexp c hc).1
    | some ds =>
      intro c hc
      obtain rfl := Option.some.inj hc
      rfl
  -- a leading zero stands alone
  have hlead : ¬(l.whole.chars.head? = some '0' ∧ l.whole.chars.length ≠ 1) :=
    fun h => h.2 (l.lead h.1)
  rw [readUnsigned?, Literal.unsignedChars, List.append_assoc, List.append_assoc,
    readDigits?_chars l.whole hfrac]
  simp only [Option.bind_eq_bind, Option.bind_some]
  rw [if_neg hlead, readFraction?_chars l.fraction hexp]
  simp only [Option.bind_some]
  rw [readExponent?_chars l.exponent hrest]
  rfl

/-- A literal is read as what is kept of it. -/
theorem readNumber?_chars (l : Literal) (hrest : EndsNumber rest) :
    readNumber? (l.chars ++ rest) = some (l.number, rest) := by
  have hread := readUnsigned?_chars l hrest
  rw [Literal.chars]
  cases hneg : l.negative with
  | true =>
    rw [hneg] at hread
    exact hread
  | false =>
    obtain ⟨c, cs, hcs, hc⟩ := l.exists_unsignedChars_eq_cons
    -- without a sign the first character is a digit, so no sign is read either
    have hsign : c ≠ '-' := by
      rintro rfl
      cases hc
    rw [hneg, hcs, List.cons_append] at hread
    rw [if_neg Bool.false_ne_true, hcs, List.cons_append, ← hread]
    exact readNumber?.eq_2 _ fun _ h => hsign (List.cons.inj h).1

/-- A literal is read as a number: no other value begins with a sign or a digit. -/
theorem readValue?_chars (l : Literal) (hrest : EndsNumber rest) :
    readValue? (fuel + 1) (l.chars ++ rest) = some (.number l.number, rest) := by
  have hread := readNumber?_chars l hrest
  obtain ⟨c, cs, hcs, hc⟩ := l.exists_chars_eq_cons
  -- the characters that other values begin with are not those of a literal
  have hne : ∀ d : Char, d ≠ '-' → d.isDigit = false → c ≠ d := by
    rintro d hsign hdigit rfl
    obtain rfl | hc := hc
    · exact hsign rfl
    · rw [hdigit] at hc
      cases hc
  have hblank : skipBlank (c :: (cs ++ rest)) = c :: (cs ++ rest) := by
    have hc' : isBlank c = false := by
      simp [isBlank, hne ' ' (by decide) (by decide), hne '\t' (by decide) (by decide),
        hne '\n' (by decide) (by decide), hne '\r' (by decide) (by decide)]
    rw [skipBlank, List.dropWhile_cons, hc']
    rfl
  rw [hcs, List.cons_append] at hread ⊢
  rw [readValue?, hblank]
  split
  -- none of the six other kinds of values begins here
  iterate 6
    · next h => exact absurd (List.cons.inj h).1 (hne _ (by decide) (by decide))
  · rw [hread]
    rfl

/-! ### Strings -/

/-- A character or an escape as it is written in a string. -/
inductive Glyph where
  /-- A character that stands for itself: no control character, no quote and no backslash. -/
  | plain (c : Char) (control : 32 ≤ c.toNat) (quote : c ≠ '"') (slash : c ≠ '\\')
  /-- A backslash and a letter. -/
  | short (letter c : Char) (escape : unescape? letter = some c)
  /-- A backslash, the letter u and four hexadecimal digits. -/
  | unit (a b c d : Char) (n : Nat) (digits : hexNumber? a b c d = some n)

namespace Glyph

def chars : Glyph → List Char
  | plain c .. => [c]
  | short letter .. => ['\\', letter]
  | unit a b c d .. => ['\\', 'u', a, b, c, d]

/-- What the glyph stands for. -/
def piece : Glyph → Piece
  | plain c .. => .char c
  | short _ c _ => .char c
  | unit _ _ _ _ n _ => .ofUnit n

end Glyph

/-- The text between the quotes of a string, if there is one. -/
def textOf (gs : List Glyph) : Option String :=
  (joinPieces (gs.map Glyph.piece)).map String.ofList

/-- A string in quotes. -/
def quotedGlyphs (gs : List Glyph) : List Char := '"' :: (gs.flatMap Glyph.chars ++ ['"'])

/-- Whatever stands for one piece of a string is scanned as this piece. -/
theorem scanString_glyph (g : Glyph) (rest : List Char) :
    scanString (g.chars ++ rest) = (scanString rest).map fun p => (g.piece :: p.1, p.2) := by
  cases g with
  | plain c control quote slash =>
    -- neither a quote nor an escape begins here
    show scanString (c :: rest) = _
    rw [scanString.eq_def]
    split
    · next h => cases h
    · next h => exact absurd (List.cons.inj h).1 quote
    · next h => exact absurd (List.cons.inj h).1 slash
    · next h => exact absurd (List.cons.inj h).1 slash
    · next h =>
      obtain ⟨rfl, rfl⟩ := List.cons.inj h
      rw [if_neg (by simp [slash]; omega)]
      rfl
  | short letter c escape =>
    -- the letter of a short escape never is the one that four hexadecimal digits follow
    have hu : letter ≠ 'u' := by
      rintro rfl
      cases escape
    show scanString ('\\' :: letter :: rest) = _
    rw [scanString.eq_def]
    split
    · next h => cases h
    · next h => exact absurd (List.cons.inj h).1 (by decide)
    · next h => exact absurd (List.cons.inj (List.cons.inj h).2).1 hu
    · next h =>
      obtain ⟨rfl, rfl⟩ := List.cons.inj (List.cons.inj h).2
      rw [escape]
      rfl
    · next hno h =>
      obtain ⟨rfl, rfl⟩ := List.cons.inj h
      exact absurd rfl (hno _ _ rfl)
  | unit a b c d n digits =>
    show (hexNumber? a b c d).bind _ = _
    rw [digits]
    rfl

/-- A string is read glyph by glyph up to its closing quote. -/
theorem scanString_glyphs (gs : List Glyph) (rest : List Char) :
    scanString (gs.flatMap Glyph.chars ++ '"' :: rest) = some (gs.map Glyph.piece, rest) := by
  induction gs with
  | nil => rfl
  | cons g gs ih =>
    rw [List.flatMap_cons, List.append_assoc, scanString_glyph, ih]
    rfl

/-- A string is read up to its closing quote as the text of its pieces. -/
theorem readString?_glyphs (gs : List Glyph) (rest : List Char) :
    readString? (gs.flatMap Glyph.chars ++ '"' :: rest) = some (textOf gs, rest) := by
  rw [readString?, scanString_glyphs]
  rfl

/-- A quoted text in front of another one, as the reader comes upon it. -/
theorem quotedGlyphs_append (gs : List Glyph) (rest : List Char) :
    quotedGlyphs gs ++ rest = '"' :: (gs.flatMap Glyph.chars ++ '"' :: rest) := by
  simp [quotedGlyphs]

/-- Where a value is asked for, an opening quote leads to a string. -/
theorem readValue?_glyphs (gs : List Glyph) (rest : List Char) :
    readValue? (fuel + 1) (quotedGlyphs gs ++ rest) = some (.string (textOf gs), rest) := by
  rw [quotedGlyphs_append]
  show (readString? (gs.flatMap Glyph.chars ++ '"' :: rest)).map _ = _
  rw [readString?_glyphs]
  rfl

end Tabula.Json
