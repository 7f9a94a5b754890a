import Tabula.Proofs.Canonical
import Tabula.Proofs.Fields
import Tabula.Proofs.JsonText

/-!
# Cells that are read back from CSV

An integer is written with digits and a sign, a truth value with one of two words. Such a text is
never quoted, and its form tells the type that it was written for, so both the value and the type
are read back; an empty cell says nothing about the type of its column.

* `Csv.int64?_toString`, `Csv.textType_toString` — an integer and its type.
* `Csv.cells?_field`, `Csv.fieldType?_field` — the cells of a column and what they say of its type.
* `Csv.unifyTypes_of_forall` — votes for one type agree on it.
-/

namespace Tabula.Csv

variable {separator c : Char} {cs : List Char} {v : Value} {ws : List Value} {type : ColumnType}
  {types : List ColumnType} {name : String} {s : Series} {o : Options}

/-! ### Characters -/

/-- A separator that the options accept can stand between fields. -/
theorem separates_of_check (ho : o.check = .ok ()) : Separates (Char.ofNat o.separator.toNat) := by
  have hvalid : Options.separates o.separator = true := by
    rw [Options.check] at ho
    split at ho
    · cases ho
    · next hvalid => exact of_not_not hvalid
  simp only [Options.separates, Bool.and_eq_true, bne_iff_ne, decide_eq_true_eq] at hvalid
  obtain ⟨⟨⟨hascii, hquote⟩, hbreak⟩, hreturn⟩ := hvalid
  -- separators are compared as bytes and as characters, which is the same below 128
  have hne : ∀ b : UInt8, b < 128 → o.separator ≠ b →
      Char.ofNat o.separator.toNat ≠ Char.ofNat b.toNat := by
    intro b hb hne heq
    have hlt : o.separator.toNat < 128 := UInt8.lt_iff_toNat_lt.1 hascii
    have hlt' : b.toNat < 128 := UInt8.lt_iff_toNat_lt.1 hb
    have hcode := congrArg Char.toNat heq
    rw [Char.toNat_ofNat, Char.toNat_ofNat, if_pos (.inl (by omega)), if_pos (.inl (by omega))]
      at hcode
    exact hne (UInt8.toNat_inj.1 hcode)
  exact ⟨hne 34 (by decide) hquote, hne 10 (by decide) hbreak, hne 13 (by decide) hreturn⟩

/-- A letter, a digit, an underscore or a minus sign. -/
def isWord (c : Char) : Bool := c.isAlphanum || c == '_' || c == '-'

/-- A text of words without the separator is plain. -/
theorem plain_of_isWord (h : ∀ c ∈ cs, isWord c = true) (hs : separator ∉ cs) :
    Plain separator cs := by
  refine ⟨⟨fun hmem => ?_, fun hmem => ?_⟩, hs, fun hmem => ?_⟩
  · exact absurd (h _ hmem) (by decide)
  · exact absurd (h _ hmem) (by decide)
  · exact absurd (h _ hmem) (by decide)

/-! ### Integers -/

/-- Without its sign an integer is a run of digits. -/
theorem dropSign_toString (i : Int) :
    dropSign (toString i).toList = Nat.toDigits 10 i.natAbs := by
  rw [Json.toList_toString]
  split
  · rfl
  · obtain ⟨c, cs, hcs, hc⟩ := Json.exists_toDigits_eq_cons i.natAbs
    -- without a minus the text begins with a digit, so nothing is dropped
    rw [hcs, dropSign.eq_def]
    split
    · next heq =>
      cases (List.cons.inj heq).1
      cases hc
    · next heq =>
      cases (List.cons.inj heq).1
      cases hc
    · rfl

/-- The sign in front of an integer tells that it is negative. -/
theorem head?_toString (i : Int) : (toString i).toList.head? = some '-' ↔ i < 0 := by
  rw [Json.toList_toString]
  split
  · next hi => simp [hi]
  · next hi =>
    obtain ⟨c, cs, hcs, hc⟩ := Json.exists_toDigits_eq_cons i.natAbs
    rw [hcs, List.head?_cons, Option.some.injEq]
    refine ⟨?_, fun h => absurd h hi⟩
    rintro rfl
    cases hc

/-- An integer of 64 bits is read back. -/
theorem int64?_toString (i : Int64) : int64? (toString i.toInt).toList = some i := by
  have hne : (Nat.toDigits 10 i.toInt.natAbs).isEmpty = false :=
    List.isEmpty_eq_false_iff.2 Nat.toDigits_ne_nil
  have hall : (Nat.toDigits 10 i.toInt.natAbs).all Char.isDigit = true :=
    List.all_eq_true.2 fun c hc => Json.isDigit_of_mem_toDigits hc
  have hvalue : Json.digitsValue (Nat.toDigits 10 i.toInt.natAbs) = i.toInt.natAbs :=
    Nat.ofDigitChars_toDigits (by decide) (by decide)
  rw [int64?, dropSign_toString]
  dsimp only
  rw [hne, hall, hvalue, Bool.not_true, Bool.or_false, if_neg Bool.false_ne_true,
    Integer64.ofInt?_eq_some_iff]
  -- the sign that is read is the one of the integer
  split
  · next hi =>
    have hneg := (head?_toString i.toInt).1 hi
    omega
  · next hi =>
    have hnonneg := mt (head?_toString i.toInt).2 hi
    omega

/-- Digits have no cases to be folded. -/
theorem foldLetter_of_isDigit (h : c.isDigit = true) : foldLetter c = c := by
  have hfold : c ≠ 'ſ' := by
    rintro rfl
    cases h
  have hlower : c.toLower = c := by
    rw [Char.toLower, dif_neg]
    rintro ⟨hle, -⟩
    simp only [Char.isDigit, Bool.and_eq_true, decide_eq_true_eq] at h
    exact absurd (UInt32.le_trans hle h.2) (by decide)
  rw [foldLetter, if_neg hfold, hlower]

/-- An integer is not taken for a truth value. -/
theorem isTruthForm_toString (i : Int) : isTruthForm (toString i).toList = false := by
  have hfold : (toString i).toList.map foldLetter = (toString i).toList := by
    refine (List.map_congr_left fun c hc => ?_).trans (List.map_id _)
    obtain rfl | hdigit := Json.eq_or_isDigit_of_mem_toString hc
    · rfl
    · exact foldLetter_of_isDigit hdigit
  have hletter : 'e' ∉ (toString i).toList :=
    fun hmem => Json.ne_of_mem_toString hmem (by decide) rfl rfl
  rw [isTruthForm, hfold, Bool.or_eq_false_iff, beq_eq_false_iff_ne, beq_eq_false_iff_ne]
  exact ⟨fun heq => hletter (heq ▸ by decide), fun heq => hletter (heq ▸ by decide)⟩

/-- After the digits there is neither a point nor an exponent. -/
theorem isFloatForm_toString (i : Int) : isFloatForm (toString i).toList = false := by
  have hdecimal : ∀ c ∈ Nat.toDigits 10 i.natAbs, Digit.isDecimal c = true := by
    intro c hc
    rw [Digit.isDecimal, Json.isDigit_of_mem_toDigits hc, Bool.true_or]
  -- a number would need a point, an exponent or a word to be one, and there are only digits
  have hletter : ∀ d : Char, d.isDigit = false → d ∉ Nat.toDigits 10 i.natAbs := by
    intro d hd hmem
    rw [Json.isDigit_of_mem_toDigits hmem] at hd
    cases hd
  have hinf : (Nat.toDigits 10 i.natAbs == "inf".toList) = false :=
    beq_eq_false_iff_ne.2 fun heq => hletter 'i' rfl (heq ▸ by decide)
  have hnan : (Nat.toDigits 10 i.natAbs == "NaN".toList) = false :=
    beq_eq_false_iff_ne.2 fun heq => hletter 'N' rfl (heq ▸ by decide)
  rw [isFloatForm, dropSign_toString]
  dsimp only
  rw [hinf, hnan, List.dropWhile_eq_nil_iff.2 hdecimal]
  simp [isExponentForm]

/-- An integer is taken for one. -/
theorem isIntegerForm_toString (i : Int) : isIntegerForm (toString i).toList = true := by
  have hne : (Nat.toDigits 10 i.natAbs).isEmpty = false :=
    List.isEmpty_eq_false_iff.2 Nat.toDigits_ne_nil
  have hdigits : isDigits (Nat.toDigits 10 i.natAbs) = true := by
    rw [isDigits, hne, List.all_eq_true.2 fun c hc => ?_]
    · rfl
    · rw [Digit.isDecimal, Json.isDigit_of_mem_toDigits hc, Bool.true_or]
  rw [Json.toList_toString]
  split
  · exact hdigits
  · rw [isIntegerForm.eq_def]
    split
    · next cs hcs =>
      have hsign := Json.isDigit_of_mem_toDigits (hcs ▸ List.mem_cons_self : '-' ∈ _)
      cases hsign
    · exact hdigits

/-- So the text of an integer tells its type. -/
theorem textType_toString (i : Int) : textType (toString i).toList = .integer := by
  rw [textType, isTruthForm_toString, isFloatForm_toString, isIntegerForm_toString]
  rfl

/-! ### Cells -/

/-- The field that a value is written as. -/
def field (separator : Char) (v : Value) : Field := ⟨valueField separator v, false⟩

/-- The fields of integers and truth values are words. -/
theorem isWord_of_mem_valueField (ht : type = .integer ∨ type = .boolean)
    (hv : type.accepts v = true) (h : c ∈ valueField separator v) : isWord c = true := by
  cases v with
  | null => cases h
  | boolean b =>
    cases b with
    | true => exact List.all_eq_true.1 (by decide : "true".toList.all isWord = true) c h
    | false => exact List.all_eq_true.1 (by decide : "false".toList.all isWord = true) c h
  | integer i =>
    obtain rfl | hdigit := Json.eq_or_isDigit_of_mem_toString h
    · rfl
    · rw [isWord, Char.isAlphanum, hdigit, Bool.or_true]
      rfl
  | float x => obtain rfl | rfl := ht <;> cases hv
  | string s => obtain rfl | rfl := ht <;> cases hv

/-- An integer cell is read back as it was written. -/
theorem cell?_of_integer (hv : ColumnType.integer.accepts v = true) :
    cell? true int64? (field separator v) = some v.int64? := by
  cases v with
  | null => rfl
  | integer i =>
    obtain ⟨c, cs, hcs⟩ := Json.exists_toString_eq_cons i.toInt
    -- a number begins with a digit or a sign, so no blank is skipped
    have hne : ∀ d : Char, d ≠ '-' → d.isDigit = false → c ≠ d :=
      fun d => Json.ne_of_mem_toString (hcs ▸ List.mem_cons_self)
    have hblank : (c == ' ' || c == '\t') = false := by
      rw [Bool.or_eq_false_iff, beq_eq_false_iff_ne, beq_eq_false_iff_ne]
      exact ⟨hne ' ' (by decide) rfl, hne '\t' (by decide) rfl⟩
    have hskip : (toString i.toInt).toList.dropWhile (fun c => c == ' ' || c == '\t') =
        (toString i.toInt).toList := by
      rw [hcs, List.dropWhile_cons_of_neg (by simp [hblank])]
    have hempty : (toString i.toInt).toList.isEmpty = false := by
      rw [hcs]
      rfl
    simp only [field, valueField, cell?, hempty, hskip, int64?_toString, Bool.false_and,
      Bool.false_eq_true, if_false, if_true]
    rfl
  | _ => cases hv

/-- A boolean cell is read back as it was written. -/
theorem cell?_of_boolean (hv : ColumnType.boolean.accepts v = true) :
    cell? false bool? (field separator v) = some v.bool? := by
  cases v with
  | null => rfl
  | boolean b =>
    cases b with
    | true => rfl
    | false => rfl
  | _ => cases hv

/-- The cells that are read are those of the series that was written. -/
theorem cells?_field (ht : type = .integer ∨ type = .boolean)
    (hs : Series.ofValues name type ws = .ok s) :
    cells? type (ws.map (field separator)) = some s.cells := by
  have hws : ∀ w ∈ ws, type.accepts w = true := (Series.ofValues_eq_ok_iff.1 hs).1
  have hfind : ws.find? (fun w => !type.accepts w) = none := by simpa using hws
  unfold Series.ofValues at hs
  rw [hfind] at hs
  obtain rfl := Except.ok.inj hs
  -- each of the two types is read cell by cell
  obtain rfl | rfl := ht
  · rw [cells?, mapM_map_eq_some fun w hw => cell?_of_integer (hws w hw)]
    rfl
  · rw [cells?, mapM_map_eq_some fun w hw => cell?_of_boolean (hws w hw)]
    rfl

/-! ### Types -/

/-- A value asks for its own type, and an empty cell for none. -/
theorem fieldType?_field (ht : type = .integer ∨ type = .boolean)
    (hv : type.accepts v = true) :
    fieldType? (field separator v) = if v.isNull then none else some type := by
  cases v with
  | null => rfl
  | boolean b =>
    obtain rfl : .boolean = type := of_decide_eq_true hv
    cases b with
    | true => rfl
    | false => rfl
  | integer i =>
    obtain rfl : .integer = type := of_decide_eq_true hv
    obtain ⟨c, cs, hcs⟩ := Json.exists_toString_eq_cons i.toInt
    have hempty : (toString i.toInt).toList.isEmpty = false := by
      rw [hcs]
      rfl
    rw [field, valueField, fieldType?]
    dsimp only
    rw [hempty, Bool.false_and, if_neg Bool.false_ne_true, if_neg Bool.false_ne_true,
      textType_toString]
    rfl
  | float x => obtain rfl | rfl := ht <;> cases hv
  | string s => obtain rfl | rfl := ht <;> cases hv

/-- Votes for one type agree on it. -/
theorem unifyTypes_of_forall (hne : types ≠ []) (h : ∀ t ∈ types, t = type) :
    unifyTypes types = type := by
  obtain ⟨t, types, rfl⟩ := List.exists_cons_of_ne_nil hne
  obtain ⟨rfl, htypes⟩ := List.forall_mem_cons.1 h
  -- all others repeat the first vote
  have hothers : types.filter (fun u => !u == t) = [] := by
    rw [List.filter_eq_nil_iff]
    intro u hu
    rw [htypes u hu]
    simp
  rw [unifyTypes, List.eraseDups_cons, hothers]
  rfl

end Tabula.Csv
