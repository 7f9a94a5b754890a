import Tabula.Proofs.Grammar
import Tabula.Proofs.Overflow
import Tabula.Value.Text

/-!
# Values as JSON texts

The JSON text of a value does not say of which type the value is, and the type is told from the form
of the text alone. For all values but floating-point numbers this loses nothing. Among the number
literals, those of integers of 64 bits are integers and all others floating-point numbers. A minus
sign before a zero is the one exception: only a floating-point number can keep it. A literal without
point and exponent may have so many digits that no value is found for it; this begins at an integer
that is slightly less than the largest finite number.

* `Value.parse?_json` — nothing, truth values, integers and texts come back from their texts.
* `Value.json_of_not_isFinite` — what is not finite is written as nothing.
* `Value.parse?_text_eq_integer_iff` — which literals are integers of 64 bits.
* `Value.told_by_form` — all of this, for every value and every literal.
* `Value.refused_in_range` — the largest finite number, as the literal of an integer, is refused.
-/

namespace Tabula

/-! ### Literals of integers -/

namespace Json.Literal

variable {l : Literal}

/-- The whole text of a literal. -/
def text (l : Literal) : String := String.ofList l.chars

theorem text_ofInt (i : Int) : (ofInt i).text = toString i := by
  rw [text, chars_ofInt, String.ofList_toList]

/-- A literal with a point or an exponent denotes no integer. -/
theorem integer?_number_of_not_isInteger (h : ¬l.IsInteger) : l.number.integer? = none := by
  rw [number, Number.integer?]
  cases hfraction : l.fraction with
  | some ds =>
    obtain ⟨c, cs, hcs, -⟩ := ds.exists_eq_cons
    simp [hcs]
  | none =>
    cases hexponent : l.exponent with
    | some e => rfl
    | none => exact absurd ⟨hfraction, hexponent⟩ h

theorem unsignedChars_eq (h : l.IsInteger) : l.unsignedChars = l.whole.chars := by
  rw [unsignedChars, h.1, h.2]
  exact List.append_nil _

/-- Only a lone zero denotes zero. -/
theorem whole_eq_of_digitsValue_eq_zero (h : digitsValue l.whole.chars = 0) :
    l.whole.chars = ['0'] := by
  obtain ⟨c, cs, hcs, hc⟩ := l.whole.exists_eq_cons
  -- the first digit counts the most, so it is zero, and no digit may follow a zero
  have hfirst : (c.toNat - '0'.toNat) * 10 ^ cs.length ≤ digitsValue l.whole.chars := by
    rw [hcs, digitsValue, Nat.ofDigitChars_cons, Nat.mul_zero, Nat.zero_add]
    exact Number.le_ofDigitChars cs _
  have hzero : c.toNat - '0'.toNat = 0 := by
    rw [h, Nat.le_zero, Nat.mul_eq_zero] at hfirst
    exact hfirst.resolve_right (Nat.pow_pos (by decide)).ne'
  have hchar : c = '0' := by
    simp only [Char.isDigit, Bool.and_eq_true, decide_eq_true_eq] at hc
    have hle : '0'.toNat ≤ c.toNat := UInt32.le_iff_toNat_le.1 hc.1
    exact Char.toNat_inj.1 (by omega)
  have hlength : l.whole.chars.length = 1 := l.lead (by rw [hcs, hchar]; rfl)
  -- so there is one digit, the zero
  obtain rfl : cs = [] := by
    rw [hcs, List.length_cons] at hlength
    exact List.length_eq_zero_iff.1 (by omega)
  rw [hcs, hchar]

/-- The negative zero has one literal. -/
theorem text_eq_iff (h : l.IsInteger) :
    l.text = "-0" ↔ l.negative = true ∧ digitsValue l.whole.chars = 0 := by
  have htext : l.text = "-0" ↔ l.chars = ['-', '0'] := by
    rw [text, ← String.toList_inj, String.toList_ofList]
    rfl
  rw [htext, chars, unsignedChars_eq h]
  constructor
  · intro hchars
    split at hchars
    · next hneg =>
      rw [(List.cons.inj hchars).2]
      exact ⟨hneg, rfl⟩
    · -- no digit is a sign
      have hdigit := l.whole.isDigit '-' (hchars ▸ List.mem_cons_self)
      cases hdigit
  · rintro ⟨hneg, hzero⟩
    rw [if_pos hneg, whole_eq_of_digitsValue_eq_zero hzero]

/-- The text of a literal is read as the number of that literal: the grammar has no other reading of
it. -/
theorem parse?_text (l : Literal) : Json.parse? l.text = some (.number l.number) := by
  apply parse?_of_denotes
  rw [text, String.toList_ofList]
  exact .number l

end Json.Literal

namespace Value

variable {v : Value} {l : Json.Literal} {n : Int64}

/-! ### Numbers -/

/-- The value of a literal is the one found for its number. -/
theorem parse?_text (l : Json.Literal) : parse? l.text = ofNumber? l.number := by
  rw [parse?, l.parse?_text]
  rfl

/-- What is made a floating-point number is not an integer. -/
theorem floatOfNumber?_ne_integer (m : Json.Number) : floatOfNumber? m ≠ some (.integer n) := by
  rw [floatOfNumber?, Ne, Option.map_eq_some_iff]
  rintro ⟨k, -, hk⟩
  cases hk

/-- A number becomes an integer only where an integer is looked for. -/
theorem ofNumber?_eq_integer_iff {m : Json.Number} :
    ofNumber? m = some (.integer n) ↔ integerOfNumber? m = some n := by
  rw [ofNumber?]
  cases integerOfNumber? m with
  | some i => simp
  | none => simp [floatOfNumber?_ne_integer]

/-- A literal is an integer of 64 bits exactly if it is the literal of one and not that of the
negative zero. -/
theorem parse?_text_eq_integer_iff : parse? l.text = some (.integer n) ↔
    l.IsInteger ∧ n.toInt = l.toInt ∧ l.text ≠ "-0" := by
  rw [parse?_text, ofNumber?_eq_integer_iff, integerOfNumber?]
  by_cases hl : l.IsInteger
  · -- the sign of a zero is seen in the text only
    have hzero : (l.number.negative && l.toInt == 0) = true ↔ l.text = "-0" := by
      rw [l.text_eq_iff hl, Bool.and_eq_true, beq_iff_eq]
      refine and_congr_right fun hneg => ?_
      have hneg : l.negative = true := hneg
      rw [Json.Literal.toInt, if_pos hneg]
      omega
    rw [l.integer?_number hl, Option.bind_some]
    split
    · next h => simp [hzero.1 h]
    · next h =>
      have htext : l.text ≠ "-0" := fun htext => h (hzero.2 htext)
      simp only [Integer64.ofInt?_eq_some_iff, hl, htext, ne_eq, not_false_eq_true, and_true,
        true_and]
  · rw [l.integer?_number_of_not_isInteger hl]
    simp [hl]

/-- What is not an integer is a floating-point number, if it is anything. -/
theorem parse?_text_cases (h : parse? l.text = some v) :
    (∃ n, v = .integer n) ∨ ∃ x, v = .float x := by
  rw [parse?_text, ofNumber?] at h
  split at h
  · exact .inl ⟨_, (Option.some.inj h).symm⟩
  · obtain ⟨m, -, rfl⟩ := Option.map_eq_some_iff.1 h
    exact .inr ⟨_, rfl⟩

/-- The literal of an integer is refused exactly from one integer on, with either sign. -/
theorem parse?_text_eq_none_iff (hl : l.IsInteger) :
    parse? l.text = none ↔ Json.Number.overflow ≤ l.toInt.natAbs := by
  have habs : l.toInt.natAbs = Json.digitsValue l.whole.chars := by
    rw [Json.Literal.toInt]
    split <;> simp
  have hfraction : l.number.fraction = [] := by
    rw [Json.Literal.number, hl.1]
    rfl
  have hexponent : l.number.exponent = none := by
    rw [Json.Literal.number, hl.2]
    rfl
  have hstepwise : l.number.stepwise? = none ↔ Json.Number.overflow ≤ l.toInt.natAbs := by
    rw [habs]
    exact Json.Number.stepwise?_eq_none_iff hfraction hexponent l.whole.isDigit
  rw [← hstepwise, parse?_text, ofNumber?]
  -- no value is found only if the number is no integer of 64 bits and the steps overflow
  cases hinteger : integerOfNumber? l.number with
  | none =>
    rw [floatOfNumber?]
    exact Option.map_eq_none_iff
  | some i =>
    -- an integer of 64 bits is far below
    have hi : i.toInt = l.toInt :=
      (parse?_text_eq_integer_iff.1 (by rw [parse?_text, ofNumber?, hinteger])).2.1
    have hsmall : l.toInt.natAbs < Json.Number.overflow := by
      have hlow := i.le_toInt
      have hhigh := i.toInt_lt
      have hbound : 2 ^ 63 < Json.Number.overflow := by decide +kernel
      omega
    simp only [reduceCtorEq, false_iff]
    rw [hstepwise]
    exact Nat.not_le.2 hsmall

/-! ### Values -/

/-- An integer of 64 bits is read back from its own literal. -/
theorem ofNumber?_ofInt (i : Int64) : ofNumber? (.ofInt i.toInt) = some (.integer i) := by
  rw [ofNumber?_eq_integer_iff, integerOfNumber?, Json.Number.integer?_ofInt, Option.bind_some]
  -- the literal of an integer has a sign only below zero
  have hsign : ¬((Json.Number.ofInt i.toInt).negative && i.toInt == 0) = true := by
    rw [Json.Number.ofInt, Bool.and_eq_true, decide_eq_true_eq, beq_iff_eq]
    omega
  rw [if_neg hsign]
  exact Integer64.ofInt?_eq_some_iff.2 rfl

/-- A value that is not a floating-point number comes back from its text, whatever it is. -/
theorem parse?_json (hv : v.columnType? ≠ some .float) : parse? v.json = some v := by
  cases v with
  | null =>
    rw [parse?, json, Json.parse?_of_denotes .null]
    rfl
  | boolean b =>
    cases b with
    | true =>
      have htrue : Json.parse? "true" = some (.bool true) := Json.parse?_of_denotes .true
      exact congrArg (Option.bind · ofJson?) htrue
    | false =>
      have hfalse : Json.parse? "false" = some (.bool false) := Json.parse?_of_denotes .false
      exact congrArg (Option.bind · ofJson?) hfalse
  | integer i =>
    rw [parse?, json, Json.parse?_of_denotes (Json.denotes_toString i.toInt)]
    exact ofNumber?_ofInt i
  | float x => exact absurd rfl hv
  | string s =>
    -- the quoted text denotes the text it was made from
    have hdenotes : Json.Denotes (.value (.string (some s))) (string s).json.toList := by
      rw [json, String.toList_ofList]
      exact Json.denotes_quote s
    rw [parse?, Json.parse?_of_denotes hdenotes]
    rfl

/-- What is not finite is written like nothing. -/
theorem json_of_not_isFinite {x : Binary64} (h : x.isNaN = true ∨ x.isInfinite = true) :
    (float x).json = "null" := by
  have hfinite : ¬x.isFinite = true := by
    simp only [Binary64.isNaN, Binary64.isInfinite, Binary64.isFinite, decide_eq_true_eq,
      beq_iff_eq] at h ⊢
    omega
  rw [json, if_neg hfinite]

/-- The type of a value is told from the form of its text. Whatever is not a floating-point number
is read back as it is, and what is not finite as nothing. Of the literals of integers exactly those
of the integers of 64 bits are read as integers, each as the one that it denotes, and the literal of
the negative zero is not; the others are floating-point numbers, up to the integer from which on
there is no value. No literal with a fraction or an exponent is read as an integer. -/
theorem told_by_form :
    (∀ v : Value, v.columnType? ≠ some .float → parse? v.json = some v) ∧
    (∀ x : Binary64, x.isNaN = true ∨ x.isInfinite = true →
      (float x).json = "null" ∧ parse? (float x).json = some null) ∧
    (∀ l : Json.Literal, l.IsInteger →
      (∀ n, parse? l.text = some (.integer n) ↔ n.toInt = l.toInt ∧ l.text ≠ "-0") ∧
      (∀ v, parse? l.text = some v → (∃ n, v = .integer n) ∨ ∃ x, v = .float x) ∧
      (parse? l.text = none ↔ Json.Number.overflow ≤ l.toInt.natAbs)) ∧
    ∀ l : Json.Literal, ¬l.IsInteger → ∀ n, parse? l.text ≠ some (.integer n) := by
  refine ⟨fun v hv => parse?_json hv, fun x hx => ?_, fun l hl => ⟨fun n => ?_, fun v hv => ?_, ?_⟩,
    fun l hl n hn => ?_⟩
  · -- what is not finite has no literal, and is written as nothing
    have hjson := json_of_not_isFinite hx
    rw [hjson]
    exact ⟨rfl, parse?_json (v := null) (by decide)⟩
  · rw [parse?_text_eq_integer_iff]
    exact and_iff_right hl
  · exact parse?_text_cases hv
  · exact parse?_text_eq_none_iff hl
  · exact hl (parse?_text_eq_integer_iff.1 hn).1

/-- A text with signs of every kind, a not-a-number, the end of the range of 64 bits, the first
integer beyond it, and the integer from which on literals are refused. -/
theorem told_by_form_limits :
    parse? (string "\"\\\n\x01é").json = some (string "\"\\\n\x01é") ∧
    parse? (float .nan).json = some null ∧
    parse? (Json.Literal.ofInt 9223372036854775807).text = some (.integer 9223372036854775807) ∧
    (∃ x, parse? (Json.Literal.ofInt 9223372036854775808).text = some (.float x)) ∧
    parse? (Json.Literal.ofInt Json.Number.overflow).text = none := by
  obtain ⟨hvalues, hfloats, hliterals, -⟩ := told_by_form
  have hlimit := hliterals (.ofInt 9223372036854775807) ⟨rfl, rfl⟩
  have hbeyond := hliterals (.ofInt 9223372036854775808) ⟨rfl, rfl⟩
  have hoverflow := hliterals (.ofInt Json.Number.overflow) ⟨rfl, rfl⟩
  refine ⟨hvalues _ (by decide), (hfloats .nan (.inl (by decide))).2, ?_, ?_, ?_⟩
  · refine (hlimit.1 _).2 ⟨rfl, ?_⟩
    rw [Json.Literal.text_ofInt]
    decide
  · -- one more than fits is no integer of 64 bits, and far from the overflow
    cases hparse : parse? (Json.Literal.ofInt 9223372036854775808).text with
    | none =>
      have hlarge := hbeyond.2.2.1 hparse
      rw [Json.Literal.toInt_ofInt] at hlarge
      exact absurd hlarge (by decide +kernel)
    | some v =>
      obtain ⟨n, rfl⟩ | ⟨x, rfl⟩ := hbeyond.2.1 v hparse
      · have hn := ((hbeyond.1 n).1 hparse).1
        have hlt := n.toInt_lt
        rw [Json.Literal.toInt_ofInt] at hn
        omega
      · exact ⟨x, rfl⟩
  · rw [hoverflow.2.2, Json.Literal.toInt_ofInt]
    exact le_rfl

/-- The largest finite number is in the range of floating-point numbers, and is refused as the
literal of an integer: its leading digits are rounded up before they are scaled. -/
theorem refused_in_range :
    (Json.Literal.ofInt ((2 ^ 53 - 1) * 2 ^ 971)).IsInteger ∧
    (Json.Literal.ofInt ((2 ^ 53 - 1) * 2 ^ 971)).text = toString ((2 ^ 53 - 1) * 2 ^ 971 : Int) ∧
    parse? (Json.Literal.ofInt ((2 ^ 53 - 1) * 2 ^ 971)).text = none ∧
    (Binary64.ofParts false (Grid.double.infinity - 1)).isFinite = true ∧
    (Binary64.ofParts false (Grid.double.infinity - 1)).integer? =
      some ((2 ^ 53 - 1) * 2 ^ 971) := by
  have hinteger : (Json.Literal.ofInt ((2 ^ 53 - 1) * 2 ^ 971)).IsInteger := ⟨rfl, rfl⟩
  refine ⟨hinteger, Json.Literal.text_ofInt _, (parse?_text_eq_none_iff hinteger).2 ?_,
    by decide +kernel, by decide +kernel⟩
  rw [Json.Literal.toInt_ofInt]
  decide +kernel

end Value

end Tabula
