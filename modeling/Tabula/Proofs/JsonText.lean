import Tabula.Proofs.Tokens

/-!
# Strings and integers as they are written

A text that is written as a JSON string is a sequence of glyphs that stand for its characters,
whatever these are, and an integer is written as the literal that denotes it, whatever its size.
Neither has control characters in it, so that it can stand on a line.

* `Json.exists_glyph`, `Json.exists_glyphs` — one character and a whole text, in whatever form.
* `Json.Literal.ofInt`, `Json.Literal.chars_ofInt` — the literal of an integer.
* `Json.Number.integer?_ofInt` — the literal denotes the integer that it was written for.
* `Json.le_toNat_of_mem_quote`, `Json.le_toNat_of_mem_toString` — there are no control characters.
-/

namespace Tabula.Json

variable {c : Char} {n : Nat}

/-! ### Strings -/

/-- The escape of a control character has its number. -/
theorem hexNumber?_hexDigit :
    ∀ n < 32, hexNumber? '0' '0' (hexDigit (n / 16)) (hexDigit n) = some n := by decide

/-- A character is written as a glyph that stands for it. -/
theorem exists_glyph (c : Char) : ∃ g : Glyph, g.chars = escapeChar c ∧ g.piece = .char c := by
  unfold escapeChar
  -- seven characters are written as an escape of one letter
  iterate 7
    split
    · next h =>
      subst h
      exact ⟨.short _ _ rfl, rfl, rfl⟩
  split
  · next hc =>
    have hunit : Piece.ofUnit c.toNat = .char c := by
      rw [Piece.ofUnit, if_neg (by omega), Char.ofNat_toNat]
    exact ⟨.unit '0' '0' _ _ c.toNat (hexNumber?_hexDigit c.toNat hc), rfl, hunit⟩
  · next hquote hslash _ _ _ _ _ hc => exact ⟨.plain c (by omega) hquote hslash, rfl, rfl⟩

/-- A text is written as glyphs that stand for it. -/
theorem exists_glyphs (s : String) : ∃ gs : List Glyph,
    gs.flatMap Glyph.chars = s.toList.flatMap escapeChar ∧ textOf gs = some s := by
  have hglyphs : ∀ cs : List Char, ∃ gs : List Glyph,
      gs.flatMap Glyph.chars = cs.flatMap escapeChar ∧
        joinPieces (gs.map Glyph.piece) = some cs := by
    -- by induction on the characters, each of which is one glyph
    intro cs
    induction cs with
    | nil => exact ⟨[], rfl, rfl⟩
    | cons c cs ih =>
      obtain ⟨g, hg, hpiece⟩ := exists_glyph c
      obtain ⟨gs, hgs, hjoin⟩ := ih
      refine ⟨g :: gs, ?_, ?_⟩
      · rw [List.flatMap_cons, List.flatMap_cons, hg, hgs]
      · rw [List.map_cons, hpiece, joinPieces, hjoin]
        rfl
  obtain ⟨gs, hgs, hjoin⟩ := hglyphs s.toList
  refine ⟨gs, hgs, ?_⟩
  rw [textOf, hjoin, Option.map_some, String.ofList_toList]

theorem le_toNat_hexDigit (n : Nat) : 32 ≤ (hexDigit n).toNat := by
  have hdigit : ∀ k < 16, 32 ≤ (Nat.digitChar k).toNat := by decide
  exact hdigit (n % 16) (Nat.mod_lt n (by decide))

/-- A written text has no control characters in it: the escapes consist of signs that are none. -/
theorem le_toNat_of_mem_escapeChar {d : Char} (h : d ∈ escapeChar c) : 32 ≤ d.toNat := by
  have hshort : ∀ l : Char, 32 ≤ l.toNat → d ∈ ['\\', l] → 32 ≤ d.toNat := by
    intro l hl hd
    obtain rfl | rfl : d = '\\' ∨ d = l := by simpa using hd
    · decide
    · exact hl
  unfold escapeChar at h
  -- the seven characters with an escape of their own
  iterate 7
    split at h
    · exact hshort _ (by decide) h
  split at h
  · -- the other control characters, by their number in four digits
    simp only [List.mem_cons, List.not_mem_nil, or_false] at h
    obtain rfl | rfl | rfl | rfl | rfl | rfl := h
    · decide
    · decide
    · decide
    · decide
    · exact le_toNat_hexDigit _
    · exact le_toNat_hexDigit _
  · next hc =>
    -- and the rest as they are
    obtain rfl := List.mem_singleton.1 h
    omega

/-- There is no control character in a text in quotes. -/
theorem le_toNat_of_mem_quote {s : String} {d : Char} (h : d ∈ quote s) : 32 ≤ d.toNat := by
  rw [quote, List.mem_cons, List.mem_append, List.mem_singleton, List.mem_flatMap] at h
  obtain rfl | ⟨c, -, hc⟩ | rfl := h
  · decide
  · exact le_toNat_of_mem_escapeChar hc
  · decide

/-! ### Integers -/

namespace Number

/-- The literal of an integer. -/
def ofInt (i : Int) : Number := ⟨decide (i < 0), Nat.toDigits 10 i.natAbs, [], none⟩

end Number

/-- An integer is written as its digits, behind a sign if it is negative. -/
theorem toList_toString (i : Int) : (toString i).toList =
    if i < 0 then '-' :: Nat.toDigits 10 i.natAbs else Nat.toDigits 10 i.natAbs := by
  cases i with
  | ofNat m =>
    rw [if_neg (by simp)]
    exact String.toList_ofList
  | negSucc m =>
    rw [if_pos (Int.negSucc_lt_zero m)]
    show ("-" ++ String.ofList (Nat.toDigits 10 (m + 1))).toList = _
    rw [String.toList_append]
    simp [String.toList_ofList]

theorem isDigit_of_mem_toDigits (h : c ∈ Nat.toDigits 10 n) : c.isDigit = true :=
  Nat.isDigit_of_mem_toDigits (by decide) (by decide) h

/-- A number has at least one digit. -/
theorem exists_toDigits_eq_cons (n : Nat) :
    ∃ c cs, Nat.toDigits 10 n = c :: cs ∧ c.isDigit = true := by
  obtain ⟨c, cs, hcs⟩ := List.exists_cons_of_ne_nil (Nat.toDigits_ne_nil (n := n) (b := 10))
  exact ⟨c, cs, hcs, isDigit_of_mem_toDigits (hcs ▸ List.mem_cons_self)⟩

/-- An integer is written with digits and at most a sign. -/
theorem eq_or_isDigit_of_mem_toString {i : Int} (h : c ∈ (toString i).toList) :
    c = '-' ∨ c.isDigit = true := by
  rw [toList_toString] at h
  split at h
  · exact (List.mem_cons.1 h).imp_right isDigit_of_mem_toDigits
  · exact .inr (isDigit_of_mem_toDigits h)

/-- A written integer holds no character that is neither its sign nor a digit. -/
theorem ne_of_mem_toString {i : Int} {d : Char} (h : c ∈ (toString i).toList) (hsign : d ≠ '-')
    (hdigit : d.isDigit = false) : c ≠ d := by
  rintro rfl
  obtain heq | h := eq_or_isDigit_of_mem_toString h
  · exact hsign heq
  · rw [hdigit] at h
    cases h

/-- A written integer is not empty. -/
theorem exists_toString_eq_cons (i : Int) : ∃ c cs, (toString i).toList = c :: cs := by
  obtain ⟨c, cs, hcs, -⟩ := exists_toDigits_eq_cons i.natAbs
  rw [toList_toString, hcs]
  split
  · exact ⟨_, _, rfl⟩
  · exact ⟨_, _, rfl⟩

/-- A written integer holds no control character. -/
theorem le_toNat_of_mem_toString {i : Int} {d : Char} (h : d ∈ (toString i).toList) :
    32 ≤ d.toNat := by
  obtain rfl | hdigit := eq_or_isDigit_of_mem_toString h
  · decide
  · simp only [Char.isDigit, Bool.and_eq_true, decide_eq_true_eq] at hdigit
    exact Nat.le_trans (by decide) (UInt32.le_iff_toNat_le.1 hdigit.1)

/-- Only zero is written with a zero in front. -/
theorem eq_zero_of_head?_toDigits (h : (Nat.toDigits 10 n).head? = some '0') : n = 0 := by
  -- a number of several digits has the front of a smaller one
  induction n using Nat.strongRecOn with
  | ind n ih =>
    by_cases hn : n < 10
    · have hdigit : ∀ k < 10, Nat.digitChar k = '0' → k = 0 := by decide
      rw [Nat.toDigits_of_lt_base hn] at h
      exact hdigit n hn (Option.some.inj h)
    · obtain ⟨c, cs, hcs, -⟩ := exists_toDigits_eq_cons (n / 10)
      rw [Nat.toDigits_of_base_le (by decide) (by omega), hcs] at h
      have hfront : n / 10 = 0 := ih (n / 10) (by omega) (hcs ▸ h)
      omega

/-- The literal of an integer, as it is written. -/
def Literal.ofInt (i : Int) : Literal where
  negative := decide (i < 0)
  whole := ⟨Nat.toDigits 10 i.natAbs, Nat.toDigits_ne_nil, fun _ => isDigit_of_mem_toDigits⟩
  fraction := none
  exponent := none
  lead := fun h => by rw [eq_zero_of_head?_toDigits h]; rfl

/-- The literal of an integer is spelt as the integer is written. -/
theorem Literal.chars_ofInt (i : Int) : (Literal.ofInt i).chars = (toString i).toList := by
  have hunsigned : (Literal.ofInt i).unsignedChars = Nat.toDigits 10 i.natAbs := List.append_nil _
  rw [toList_toString, chars, hunsigned]
  simp only [Literal.ofInt, decide_eq_true_eq]

/-- The literal of an integer denotes the integer. -/
theorem Literal.toInt_ofInt (i : Int) : (Literal.ofInt i).toInt = i := by
  have hdigits : digitsValue (Nat.toDigits 10 i.natAbs) = i.natAbs :=
    Nat.ofDigitChars_toDigits (by decide) (by decide)
  show (if decide (i < 0) = true then -(digitsValue (Nat.toDigits 10 i.natAbs) : Int)
    else digitsValue (Nat.toDigits 10 i.natAbs)) = i
  rw [hdigits]
  simp only [decide_eq_true_eq]
  split <;> omega

/-- The literal of an integer denotes it. -/
theorem Number.integer?_ofInt (i : Int) : (ofInt i).integer? = some i := by
  have hread := Literal.integer?_number (l := Literal.ofInt i) ⟨rfl, rfl⟩
  rw [Literal.toInt_ofInt] at hread
  exact hread

end Tabula.Json
