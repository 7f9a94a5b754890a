import Tabula.Csv.Document
import Tabula.Proofs.Pieces

/-!
# Fields without quotes

A field that holds no quote, no separator and no line break means itself. A reader goes through it
up to what follows, and since no quote is opened, neither the separators between fields nor the
breaks between lines can be mistaken. So a line of such fields is read field by field, and a text of
such lines line by line, whatever the separator is.

* `Csv.Separates` — characters that can stand between fields; `Csv.Plain` — texts that mean
  themselves between them.
* `Csv.Stops` — what may follow a field, and `Csv.scanFields_of_plain` — the fields up to there.
* `Csv.scanRecords?_flatMap` — as many records are read as lines were written.
* `Csv.lines_flatMap`, `Csv.completeLines_flatMap` — the lines themselves are told apart.
-/

namespace Tabula.Csv

variable {separator : Char} {cs l rest tail : List Char} {fs : List (List Char)}
  {ls : List (List Char)} {rows : List (List (List Char))} {ending : FieldEnd} {n : Nat}

/-! ### Separators and texts between them -/

/-- The character can stand between fields. -/
structure Separates (separator : Char) : Prop where
  ne_quote : separator ≠ '"'
  ne_break : separator ≠ '\n'
  ne_return : separator ≠ '\r'

/-- In the text nothing is quoted, and no line ends. -/
structure Unbroken (cs : List Char) : Prop where
  quote_notMem : '"' ∉ cs
  break_notMem : '\n' ∉ cs

/-- No character of the text is read as anything but itself. -/
structure Plain (separator : Char) (cs : List Char) : Prop extends Unbroken cs where
  separator_notMem : separator ∉ cs
  return_notMem : '\r' ∉ cs

/-- What is true of a text without quotes and breaks is true of its first character and of the
rest. -/
theorem Unbroken.of_cons {c : Char} (h : Unbroken (c :: cs)) :
    c ≠ '"' ∧ c ≠ '\n' ∧ Unbroken cs := by
  obtain ⟨hq, hq'⟩ := not_or.1 (List.mem_cons.not.1 h.quote_notMem)
  obtain ⟨hb, hb'⟩ := not_or.1 (List.mem_cons.not.1 h.break_notMem)
  exact ⟨Ne.symm hq, Ne.symm hb, hq', hb'⟩

/-- The same for a plain text. -/
theorem Plain.of_cons {c : Char} (h : Plain separator (c :: cs)) :
    c ≠ separator ∧ c ≠ '"' ∧ c ≠ '\n' ∧ Plain separator cs := by
  obtain ⟨hq, hb, hcs⟩ := h.toUnbroken.of_cons
  obtain ⟨hs, hs'⟩ := not_or.1 (List.mem_cons.not.1 h.separator_notMem)
  exact ⟨Ne.symm hs, hq, hb, hcs, hs', fun hr => h.return_notMem (List.mem_cons_of_mem c hr)⟩

/-- A text that means itself is written as it is, unless it is empty. -/
theorem textField_of_plain {s : String} (hne : s.toList ≠ []) (h : Plain separator s.toList) :
    textField separator s = s.toList := by
  have hany : (s.toList.any fun c => c == separator || c == '"' || c == '\n' || c == '\r') =
      false := by
    rw [List.any_eq_false]
    intro c hc
    -- none of the four characters for which a field is put in quotes is in the text
    have hs : c ≠ separator := fun heq => h.separator_notMem (heq ▸ hc)
    have hq : c ≠ '"' := fun heq => h.quote_notMem (heq ▸ hc)
    have hb : c ≠ '\n' := fun heq => h.break_notMem (heq ▸ hc)
    have hr : c ≠ '\r' := fun heq => h.return_notMem (heq ▸ hc)
    simp [hs, hq, hb, hr]
  have hempty : s.toList.isEmpty = false := List.isEmpty_eq_false_iff.2 hne
  rw [textField, hempty, hany]
  rfl

/-! ### Fields -/

/-- A text at which a field stops, what the field ends at then, and the text after that. -/
inductive Stops (separator : Char) : List Char → FieldEnd → List Char → Prop where
  | textEnd : Stops separator [] .textEnd []
  | lineBreak (rest : List Char) : Stops separator ('\n' :: rest) .lineBreak rest
  | separator (rest : List Char) : Stops separator (separator :: rest) .separator rest

/-- A plain text is read up to what may follow a field. -/
theorem scanText_of_plain (hs : Separates separator) (h : Plain separator cs)
    (hend : Stops separator tail ending rest) :
    scanText false separator false (cs ++ tail) = (cs, ending, rest) := by
  induction cs with
  | nil =>
    -- the end of the text, a line break or a separator stops the field
    cases hend with
    | textEnd => rfl
    | lineBreak => simp [scanText]
    | separator => simp [scanText, hs.ne_break]
  | cons c cs ih =>
    obtain ⟨hc, -, hb, hcs⟩ := h.of_cons
    rw [List.cons_append, scanText]
    simp [hc, hb, ih hcs]

/-- A plain field is read up to there, and is none in quotes. -/
theorem scanField_of_plain (hs : Separates separator) (h : Plain separator cs)
    (hend : Stops separator tail ending rest) :
    scanField separator (cs ++ tail) = (⟨cs, false⟩, ending, rest) := by
  have hhead : ((cs ++ tail).head? == some '"') = false := by
    rw [beq_eq_false_iff_ne]
    -- neither a plain field begins with a quote nor what follows an empty one
    cases cs with
    | nil =>
      cases hend with
      | textEnd => simp
      | lineBreak => simp
      | separator => simpa using hs.ne_quote
    | cons c cs => simpa using h.of_cons.2.1
  rw [scanField]
  dsimp only
  rw [hhead, scanText_of_plain hs h hend]

/-- The fields of a line are read one after the other, up to where the line stops. -/
theorem scanFields_of_plain (hs : Separates separator) (hne : fs ≠ [])
    (h : ∀ f ∈ fs, Plain separator f) (hn : fs.length ≤ n)
    (hend : Stops separator tail ending rest) (hending : ending ≠ .separator) :
    scanFields separator n ([separator].intercalate fs ++ tail) =
      (fs.map (⟨·, false⟩), ending, rest) := by
  induction fs generalizing n with
  | nil => exact absurd rfl hne
  | cons f fs ih =>
    obtain ⟨hf, hfs⟩ := List.forall_mem_cons.1 h
    obtain ⟨k, rfl⟩ : ∃ k, n = k + 1 := Nat.exists_eq_add_one.2 (Nat.lt_of_lt_of_le (by simp) hn)
    cases fs with
    | nil =>
      -- the last field is followed by what the line stops at, the others by a separator
      rw [List.intercalate_singleton, scanFields, scanField_of_plain hs hf hend]
      cases ending with
      | separator => exact absurd rfl hending
      | lineBreak => rfl
      | textEnd => rfl
    | cons g fs =>
      -- the separator before the next field is where this one stops
      have hrest := ih (List.cons_ne_nil g fs) hfs (Nat.le_of_succ_le_succ hn)
      rw [Text.intercalate_cons_cons, List.append_assoc, List.cons_append, scanFields,
        scanField_of_plain hs hf (.separator _)]
      dsimp only
      rw [hrest]
      rfl

/-! ### Records -/

/-- A line of plain fields is read as these, and what follows it is left for the next. -/
theorem scanRecord?_line (hs : Separates separator) (hne : fs ≠ [])
    (h : ∀ f ∈ fs, Plain separator f) (hn : fs.length ≤ n) (rest : List Char) :
    scanRecord? separator n (line separator fs ++ rest) = some (fs.map (⟨·, false⟩), rest) := by
  have hfields := scanFields_of_plain hs hne h hn (.lineBreak rest) (by simp)
  rw [scanRecord?, line, List.append_assoc, List.singleton_append, hfields]

/-- Lines of fields are read as records of these fields. -/
theorem scanRecords?_flatMap (hs : Separates separator) (hn : 0 < n)
    (hlength : ∀ fs ∈ rows, fs.length = n) (h : ∀ fs ∈ rows, ∀ f ∈ fs, Plain separator f) :
    scanRecords? separator n rows.length (rows.flatMap (line separator)) =
      some (rows.map fun fs => fs.map (⟨·, false⟩)) := by
  induction rows with
  | nil => rfl
  | cons fs rows ih =>
    obtain ⟨hfs, hrows⟩ := List.forall_mem_cons.1 hlength
    obtain ⟨hplain, hplains⟩ := List.forall_mem_cons.1 h
    have hne : fs ≠ [] := by
      rintro rfl
      exact hn.ne hfs
    have hrecord := scanRecord?_line hs hne hplain hfs.le (rows.flatMap (line separator))
    have hrest := ih hrows hplains
    rw [List.flatMap_cons, List.length_cons, scanRecords?, hrecord, Option.bind_some]
    · dsimp only
      rw [hrest]
      rfl
    · -- there is a line break in the text
      simp [line]

/-! ### Lines -/

/-- Fields that mean themselves make a line in which nothing is quoted. -/
theorem unbroken_intercalate (hs : Separates separator) (h : ∀ f ∈ fs, Plain separator f) :
    Unbroken ([separator].intercalate fs) := by
  constructor
  · intro hmem
    obtain heq | ⟨f, hf, hmem⟩ := Text.mem_of_mem_intercalate hmem
    · exact hs.ne_quote heq.symm
    · exact (h f hf).quote_notMem hmem
  · intro hmem
    obtain heq | ⟨f, hf, hmem⟩ := Text.mem_of_mem_intercalate hmem
    · exact hs.ne_break heq.symm
    · exact (h f hf).break_notMem hmem

/-- Plain fields between separators hold no carriage return. -/
theorem return_notMem_intercalate (hs : Separates separator) (h : ∀ f ∈ fs, Plain separator f) :
    '\r' ∉ [separator].intercalate fs := by
  intro hmem
  obtain heq | ⟨f, hf, hmem⟩ := Text.mem_of_mem_intercalate hmem
  · exact hs.ne_return heq.symm
  · exact (h f hf).return_notMem hmem

/-- A line is cut off at its break. -/
theorem splitLine_append (h : Unbroken l) (rest : List Char) :
    splitLine false (l ++ '\n' :: rest) = (l, rest) := by
  induction l with
  | nil => rfl
  | cons c l ih =>
    obtain ⟨hq, hb, hl⟩ := h.of_cons
    rw [List.cons_append, splitLine]
    simp [hq, hb, ih hl]

/-- The first of several lines ends at its break. -/
theorem lines_append (h : Unbroken l) (rest : List Char) :
    lines false (l ++ '\n' :: rest) = l :: lines false rest := by
  induction l with
  | nil => rfl
  | cons c l ih =>
    obtain ⟨hq, hb, hl⟩ := h.of_cons
    rw [List.cons_append, lines]
    simp [hq, hb, ih hl]

/-- A line that ends in a break counts as complete, and the text behind it is looked at in turn. -/
theorem completeLines_append (h : Unbroken l) (rest : List Char) :
    completeLines false (l ++ '\n' :: rest) = ((completeLines false rest).1 + 1,
      l ++ '\n' :: (completeLines false rest).2.1, (completeLines false rest).2.2) := by
  -- character by character, and no quote is opened on the way
  induction l with
  | nil => rfl
  | cons c l ih =>
    obtain ⟨hq, hb, hl⟩ := h.of_cons
    rw [List.cons_append, completeLines]
    simp [hq, hb, ih hl]

/-- Texts written as lines are read as these lines. -/
theorem lines_flatMap (h : ∀ l ∈ ls, Unbroken l) :
    lines false (ls.flatMap (· ++ ['\n'])) = ls := by
  induction ls with
  | nil => rfl
  | cons l ls ih =>
    obtain ⟨hl, hls⟩ := List.forall_mem_cons.1 h
    rw [List.flatMap_cons, List.append_assoc, List.singleton_append, lines_append hl, ih hls]

/-- All of them are complete, and nothing is left over. -/
theorem completeLines_flatMap (h : ∀ l ∈ ls, Unbroken l) :
    completeLines false (ls.flatMap (· ++ ['\n'])) =
      (ls.length, ls.flatMap (· ++ ['\n']), []) := by
  induction ls with
  | nil => rfl
  | cons l ls ih =>
    obtain ⟨hl, hls⟩ := List.forall_mem_cons.1 h
    rw [List.flatMap_cons, List.append_assoc, List.singleton_append, completeLines_append hl,
      ih hls]
    rfl

/-- Where there is no carriage return, none is dropped. -/
theorem dropReturn_of_notMem (h : '\r' ∉ l) : dropReturn l = l := by
  rw [dropReturn, if_neg]
  rintro ⟨-, hlast⟩
  exact h (List.mem_of_getLast? hlast)

/-- Where there is no carriage return, none is trimmed off a field. -/
theorem trimReturn_of_notMem (h : '\r' ∉ cs) (isQuoted : Bool) :
    Field.trimReturn ⟨cs, isQuoted⟩ = ⟨cs, isQuoted⟩ := by
  rw [Field.trimReturn, if_neg]
  exact fun hlast => h (List.mem_of_getLast? hlast)

end Tabula.Csv
