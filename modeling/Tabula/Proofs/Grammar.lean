import Mathlib.Data.List.DropRight
import Tabula.Proofs.JsonText

/-!
# The grammar of JSON texts

Which texts are JSON, and what they stand for, without saying how they are read: values are put
together from literals, strings and other values, with blanks in between wherever they are allowed.
The reader accepts every text of the grammar and finds the value that it stands for.

* `Json.Part`, `Json.Denotes` — what a piece of a text may stand for, and the texts that do.
* `Json.Denotes.reads` — every piece is read as what it stands for, in front of any text that may
  follow it; `Json.parseChars?_of_denotes` — so is a whole text.
* `Json.denotes_quote`, `Json.denotes_toString`, `Json.denotes_member` — strings, integers and
  members as they are written; `Json.denotes_items`, `Json.denotes_members` — several of them, with
  commas in between.
-/

namespace Tabula.Json

variable {cs rest : List Char} {fuel : Nat}

/-! ### Values -/

/-- What a piece of a text may stand for. -/
inductive Part where
  /-- A value. -/
  | value (j : Json)
  /-- A value with blanks around it. -/
  | element (j : Json)
  /-- The items of an array, at least one. -/
  | items (js : List Json)
  /-- A name and a value, with blanks around both. -/
  | member (m : Option String × Json)
  /-- The members of an object, at least one. -/
  | members (ms : List (Option String × Json))

/-- The text consists of blanks. -/
def Blank (cs : List Char) : Prop := ∀ c ∈ cs, isBlank c = true

/-- The texts that stand for a value, or for what values are put together from. -/
inductive Denotes : Part → List Char → Prop
  | null : Denotes (.value .null) ['n', 'u', 'l', 'l']
  | true : Denotes (.value (.bool true)) ['t', 'r', 'u', 'e']
  | false : Denotes (.value (.bool false)) ['f', 'a', 'l', 's', 'e']
  | number (l : Literal) : Denotes (.value (.number l.number)) l.chars
  | string (gs : List Glyph) : Denotes (.value (.string (textOf gs))) (quotedGlyphs gs)
  | emptyArray {w : List Char} : Blank w → Denotes (.value (.array [])) ('[' :: (w ++ [']']))
  | array {js : List Json} {cs : List Char} : Denotes (.items js) cs →
      Denotes (.value (.array js)) ('[' :: (cs ++ [']']))
  | emptyObject {w : List Char} : Blank w → Denotes (.value (.object [])) ('{' :: (w ++ ['}']))
  | object {ms : List (Option String × Json)} {cs : List Char} : Denotes (.members ms) cs →
      Denotes (.value (.object ms)) ('{' :: (cs ++ ['}']))
  | element {j : Json} {w cs w' : List Char} : Blank w → Blank w' → Denotes (.value j) cs →
      Denotes (.element j) (w ++ (cs ++ w'))
  | lastItem {j : Json} {cs : List Char} : Denotes (.element j) cs → Denotes (.items [j]) cs
  | item {j : Json} {js : List Json} {cs ds : List Char} : Denotes (.element j) cs →
      Denotes (.items js) ds → Denotes (.items (j :: js)) (cs ++ ',' :: ds)
  | member {gs : List Glyph} {j : Json} {w w' cs : List Char} : Blank w → Blank w' →
      Denotes (.element j) cs →
      Denotes (.member (textOf gs, j)) (w ++ (quotedGlyphs gs ++ (w' ++ ':' :: cs)))
  | lastMember {m : Option String × Json} {cs : List Char} : Denotes (.member m) cs →
      Denotes (.members [m]) cs
  | members {m : Option String × Json} {ms : List (Option String × Json)} {cs ds : List Char} :
      Denotes (.member m) cs → Denotes (.members ms) ds →
      Denotes (.members (m :: ms)) (cs ++ ',' :: ds)

/-! ### Blanks -/

theorem blank_nil : Blank [] := fun c hc => by cases hc

/-- There need not be any blanks around a value. -/
theorem Denotes.unpadded {j : Json} (h : Denotes (.value j) cs) : Denotes (.element j) cs := by
  have helement : Denotes (.element j) ([] ++ (cs ++ [])) := .element blank_nil blank_nil h
  rwa [List.nil_append, List.append_nil] at helement

/-- Blanks in front of a text are skipped, and it is looked at as if they were not there. -/
theorem skipBlank_append {w : List Char} (hw : Blank w) (cs : List Char) :
    skipBlank (w ++ cs) = skipBlank cs :=
  List.dropWhile_append_of_pos hw

theorem skipBlank_skipBlank (cs : List Char) : skipBlank (skipBlank cs) = skipBlank cs :=
  List.dropWhile_idempotent _ cs

/-- A character ends a number unless a number could go on with it: a digit, a point or the letter of
an exponent. -/
theorem endsNumber_of_not_isDigit {c : Char} (hdigit : c.isDigit = false) (hpoint : c ≠ '.')
    (he : c ≠ 'e') (hE : c ≠ 'E') (rest : List Char) : EndsNumber (c :: rest) := by
  intro d hd
  obtain rfl := Option.some.inj hd
  exact ⟨hdigit, hpoint, he, hE⟩

/-- A blank ends a number. -/
theorem EndsNumber.append {w : List Char} (hw : Blank w) (hrest : EndsNumber rest) :
    EndsNumber (w ++ rest) := by
  cases w with
  | nil => exact hrest
  | cons c w =>
    have hc : isBlank c = true := hw c List.mem_cons_self
    simp only [isBlank, Bool.or_eq_true, decide_eq_true_eq, or_assoc] at hc
    obtain rfl | rfl | rfl | rfl := hc
    all_goals exact endsNumber_of_not_isDigit rfl (by decide) (by decide) (by decide) _

/-- The reader looks at a value behind the blanks in front of it. -/
theorem readValue?_skipBlank (fuel : Nat) (cs : List Char) :
    readValue? fuel (skipBlank cs) = readValue? fuel cs := by
  cases fuel with
  | zero => rfl
  | succ fuel => rw [readValue?, readValue?, skipBlank_skipBlank]

/-- Blanks in front of the items of an array make no difference. -/
theorem readItems?_skipBlank (fuel : Nat) (cs : List Char) :
    readItems? fuel (skipBlank cs) = readItems? fuel cs := by
  cases fuel with
  | zero => rfl
  | succ fuel => rw [readItems?, readItems?, readValue?_skipBlank]

/-- Nor do blanks in front of the members of an object. -/
theorem readMembers?_skipBlank (fuel : Nat) (cs : List Char) :
    readMembers? fuel (skipBlank cs) = readMembers? fuel cs := by
  cases fuel with
  | zero => rfl
  | succ fuel => rw [readMembers?, readMembers?, skipBlank_skipBlank]

/-! ### Reading -/

/-- What the readers make of a text, in front of any text that may follow it. The fuel is enough if
there are two units of it for every character. -/
def Reads : Part → List Char → Prop
  | .value j, cs => ∀ fuel rest, 2 * cs.length ≤ fuel → EndsNumber rest →
      readValue? fuel (cs ++ rest) = some (j, rest)
  | .element j, cs => ∀ fuel rest, 2 * cs.length ≤ fuel → EndsNumber rest →
      ∃ tail, readValue? fuel (cs ++ rest) = some (j, tail) ∧ skipBlank tail = skipBlank rest
  | .items js, cs => ∀ fuel rest, 2 * cs.length < fuel →
      readItems? fuel (cs ++ ']' :: rest) = some (js, rest)
  | .member m, cs => ∀ fuel rest, 2 * cs.length ≤ fuel →
      readMembers? (fuel + 1) (cs ++ '}' :: rest) = some ([m], rest) ∧
      readMembers? (fuel + 1) (cs ++ ',' :: rest) =
        (readMembers? fuel rest).map fun p => (m :: p.1, p.2)
  | .members ms, cs => ∀ fuel rest, 2 * cs.length < fuel →
      readMembers? fuel (cs ++ '}' :: rest) = some (ms, rest)

/-- After an opening bracket the reader looks for the closing one, and reads items if it is not
there. -/
theorem readValue?_array (fuel : Nat) (cs : List Char) : readValue? (fuel + 1) ('[' :: cs) =
    match skipBlank cs with
    | ']' :: rest => some (.array [], rest)
    | rest => (readItems? fuel rest).map fun (items, rest) => (.array items, rest) := rfl

/-- After an opening brace it does the same with members. -/
theorem readValue?_object (fuel : Nat) (cs : List Char) : readValue? (fuel + 1) ('{' :: cs) =
    match skipBlank cs with
    | '}' :: rest => some (.object [], rest)
    | rest => (readMembers? fuel rest).map fun (members, rest) => (.object members, rest) := rfl

/-- After an item follows a comma and another one, or the bracket that closes the array. -/
theorem readItems?_of_readValue? {j : Json} {tail : List Char}
    (h : readValue? fuel cs = some (j, tail)) : readItems? (fuel + 1) cs =
      match skipBlank tail with
      | ',' :: rest => (readItems? fuel rest).map fun (items, rest) => (j :: items, rest)
      | ']' :: rest => some ([j], rest)
      | _ => none := by
  rw [readItems?, h]
  rfl

/-- No item begins with the bracket that closes an array. -/
theorem readItems?_bracket (fuel : Nat) (cs : List Char) : readItems? fuel (']' :: cs) = none := by
  cases fuel with
  | zero => rfl
  | succ fuel =>
    cases fuel with
    | zero => rfl
    | succ fuel => rfl

/-- No member begins with the brace that closes an object. -/
theorem readMembers?_brace (fuel : Nat) (cs : List Char) :
    readMembers? fuel ('}' :: cs) = none := by
  cases fuel with
  | zero => rfl
  | succ fuel => rfl

/-- The text of a value is not empty, so there is fuel to begin with. -/
theorem exists_eq_add_one_of_length {c : Char} (h : 2 * (c :: cs).length ≤ fuel) :
    ∃ f, fuel = f + 1 ∧ 2 * cs.length < f := by
  rw [List.length_cons] at h
  exact ⟨fuel - 1, by omega, by omega⟩

namespace Reads

variable {j : Json} {js : List Json} {m : Option String × Json} {ms : List (Option String × Json)}
  {ds w w' : List Char}

theorem null : Reads (.value .null) ['n', 'u', 'l', 'l'] := by
  intro fuel rest hf _
  obtain ⟨f, rfl, -⟩ := exists_eq_add_one_of_length hf
  rfl

theorem true : Reads (.value (.bool true)) ['t', 'r', 'u', 'e'] := by
  intro fuel rest hf _
  obtain ⟨f, rfl, -⟩ := exists_eq_add_one_of_length hf
  rfl

theorem false : Reads (.value (.bool false)) ['f', 'a', 'l', 's', 'e'] := by
  intro fuel rest hf _
  obtain ⟨f, rfl, -⟩ := exists_eq_add_one_of_length hf
  rfl

/-- A literal is read as its number if what follows does not go on with the literal. Its first
character pays for the unit of fuel that one value takes. -/
theorem number (l : Literal) : Reads (.value (.number l.number)) l.chars := by
  intro fuel rest hf hrest
  obtain ⟨c, cs, hcs, -⟩ := l.exists_chars_eq_cons
  rw [hcs] at hf
  -- a literal is never empty, so there is fuel for one value
  obtain ⟨f, rfl, -⟩ := exists_eq_add_one_of_length hf
  exact readValue?_chars l hrest

/-- A string ends with its own quote, so that anything may follow. -/
theorem string (gs : List Glyph) : Reads (.value (.string (textOf gs))) (quotedGlyphs gs) := by
  intro fuel rest hf _
  obtain ⟨f, rfl, -⟩ := exists_eq_add_one_of_length hf
  exact readValue?_glyphs gs rest

/-- An array without items may have blanks between its brackets. -/
theorem emptyArray (hw : Blank w) : Reads (.value (.array [])) ('[' :: (w ++ [']'])) := by
  intro fuel rest hf _
  obtain ⟨f, rfl, -⟩ := exists_eq_add_one_of_length hf
  have hblank : skipBlank (w ++ ']' :: rest) = ']' :: rest := skipBlank_append hw _
  -- after the blanks the array is closed at once
  rw [List.cons_append, List.append_assoc, List.singleton_append, readValue?_array, hblank]
  rfl

/-- An array is read if its items are. The bracket in front leaves them one unit of fuel less and a
text that is shorter by two. -/
theorem array (h : Reads (.items js) cs) : Reads (.value (.array js)) ('[' :: (cs ++ [']'])) := by
  intro fuel rest hf _
  obtain ⟨f, rfl, hlength⟩ := exists_eq_add_one_of_length hf
  have hread : readItems? f (skipBlank (cs ++ ']' :: rest)) = some (js, rest) := by
    rw [readItems?_skipBlank]
    exact h f rest (by rw [List.length_append] at hlength; omega)
  rw [List.cons_append, List.append_assoc, List.singleton_append, readValue?_array]
  -- there are items, so the array is not closed at once
  split
  · next hclose =>
    rw [hclose, readItems?_bracket] at hread
    cases hread
  · rw [hread]
    rfl

/-- An object without members may have blanks between its braces. -/
theorem emptyObject (hw : Blank w) : Reads (.value (.object [])) ('{' :: (w ++ ['}'])) := by
  intro fuel rest hf _
  obtain ⟨f, rfl, -⟩ := exists_eq_add_one_of_length hf
  have hblank : skipBlank (w ++ '}' :: rest) = '}' :: rest := skipBlank_append hw _
  rw [List.cons_append, List.append_assoc, List.singleton_append, readValue?_object, hblank]
  rfl

/-- An object is read if its members are, as an array is by its items. -/
theorem object (h : Reads (.members ms) cs) :
    Reads (.value (.object ms)) ('{' :: (cs ++ ['}'])) := by
  intro fuel rest hf _
  obtain ⟨f, rfl, hlength⟩ := exists_eq_add_one_of_length hf
  have hread : readMembers? f (skipBlank (cs ++ '}' :: rest)) = some (ms, rest) := by
    rw [readMembers?_skipBlank]
    exact h f rest (by rw [List.length_append] at hlength; omega)
  rw [List.cons_append, List.append_assoc, List.singleton_append, readValue?_object]
  -- there are members, so the object is not closed at once
  split
  · next hclose =>
    rw [hclose, readMembers?_brace] at hread
    cases hread
  · rw [hread]
    rfl

/-- A value is read with the blanks around it; those behind it are still there when the reader
returns, and are skipped by whoever asked for the value. -/
theorem element (hw : Blank w) (hw' : Blank w') (h : Reads (.value j) cs) :
    Reads (.element j) (w ++ (cs ++ w')) := by
  intro fuel rest hf hrest
  -- the blanks behind the value end a number just as what follows them does
  have hread : readValue? fuel (cs ++ (w' ++ rest)) = some (j, w' ++ rest) := by
    refine h fuel _ ?_ (hrest.append hw')
    rw [List.length_append, List.length_append] at hf
    omega
  refine ⟨w' ++ rest, ?_, skipBlank_append hw' rest⟩
  rw [List.append_assoc, List.append_assoc, ← readValue?_skipBlank, skipBlank_append hw,
    readValue?_skipBlank, hread]

/-- The last item stands in front of the bracket that closes the array. -/
theorem lastItem (h : Reads (.element j) cs) : Reads (.items [j]) cs := by
  intro fuel rest hf
  obtain ⟨f, rfl⟩ : ∃ f, fuel = f + 1 := ⟨fuel - 1, by omega⟩
  obtain ⟨tail, hread, htail⟩ := h f (']' :: rest) (by omega)
    (endsNumber_of_not_isDigit rfl (by decide) (by decide) (by decide) rest)
  rw [readItems?_of_readValue? hread, htail]
  rfl

/-- An item that is not the last one stands in front of a comma and the items after it. -/
theorem item (h : Reads (.element j) cs) (hs : Reads (.items js) ds) :
    Reads (.items (j :: js)) (cs ++ ',' :: ds) := by
  intro fuel rest hf
  rw [List.length_append, List.length_cons] at hf
  obtain ⟨f, rfl⟩ : ∃ f, fuel = f + 1 := ⟨fuel - 1, by omega⟩
  obtain ⟨tail, hread, htail⟩ := h f (',' :: (ds ++ ']' :: rest)) (by omega)
    (endsNumber_of_not_isDigit rfl (by decide) (by decide) (by decide) _)
  -- the comma is paid for by the item, so the items after it are left enough fuel
  have hreads : readItems? f (ds ++ ']' :: rest) = some (js, rest) := hs f rest (by omega)
  rw [List.append_assoc, List.cons_append, readItems?_of_readValue? hread, htail]
  show (readItems? f (ds ++ ']' :: rest)).map _ = _
  rw [hreads]
  rfl

/-- The name is read up to its quote, then the value behind the colon. -/
theorem readMembers?_member {gs : List Glyph} (hw : Blank w) (hw' : Blank w')
    (h : Reads (.element j) cs) (hf : 2 * cs.length ≤ fuel) (hrest : EndsNumber rest) :
    readMembers? (fuel + 1) (w ++ (quotedGlyphs gs ++ (w' ++ ':' :: cs)) ++ rest) =
      match skipBlank rest with
      | ',' :: rest => (readMembers? fuel rest).map fun p => ((textOf gs, j) :: p.1, p.2)
      | '}' :: rest => some ([(textOf gs, j)], rest)
      | _ => none := by
  obtain ⟨tail, hread, htail⟩ := h fuel rest hf hrest
  have hcolon : skipBlank (w' ++ ':' :: (cs ++ rest)) = ':' :: (cs ++ rest) :=
    skipBlank_append hw' _
  -- the text, bracketed in the order in which it is read: blanks, name, blanks, colon, value
  have hassoc : w ++ (quotedGlyphs gs ++ (w' ++ ':' :: cs)) ++ rest =
      w ++ (quotedGlyphs gs ++ (w' ++ ':' :: (cs ++ rest))) := by simp
  rw [hassoc, ← readMembers?_skipBlank, skipBlank_append hw, readMembers?_skipBlank,
    quotedGlyphs_append]
  show (readString? (gs.flatMap Glyph.chars ++ '"' :: (w' ++ ':' :: (cs ++ rest)))).bind _ = _
  rw [readString?_glyphs, Option.bind_some]
  dsimp only
  rw [hcolon]
  show (readValue? fuel (cs ++ rest)).bind _ = _
  rw [hread, Option.bind_some]
  dsimp only
  -- only what comes after the value decides how to go on
  generalize skipBlank tail = next at htail ⊢
  subst htail
  rfl

/-- A member is read in front of a comma and in front of a brace, whichever comes. -/
theorem member {gs : List Glyph} (hw : Blank w) (hw' : Blank w') (h : Reads (.element j) cs) :
    Reads (.member (textOf gs, j)) (w ++ (quotedGlyphs gs ++ (w' ++ ':' :: cs))) := by
  intro fuel rest hf
  have hlength : 2 * cs.length ≤ fuel := by
    simp only [List.length_append, List.length_cons] at hf
    omega
  constructor
  · rw [readMembers?_member hw hw' h hlength
      (endsNumber_of_not_isDigit rfl (by decide) (by decide) (by decide) rest)]
    rfl
  · rw [readMembers?_member hw hw' h hlength
      (endsNumber_of_not_isDigit rfl (by decide) (by decide) (by decide) rest)]
    rfl

/-- The last member stands in front of the brace that closes the object. -/
theorem lastMember (h : Reads (.member m) cs) : Reads (.members [m]) cs := by
  intro fuel rest hf
  obtain ⟨f, rfl⟩ : ∃ f, fuel = f + 1 := ⟨fuel - 1, by omega⟩
  exact (h f rest (by omega)).1

/-- A member that is not the last one stands in front of a comma and the members after it. -/
theorem members (h : Reads (.member m) cs) (hs : Reads (.members ms) ds) :
    Reads (.members (m :: ms)) (cs ++ ',' :: ds) := by
  intro fuel rest hf
  rw [List.length_append, List.length_cons] at hf
  obtain ⟨f, rfl⟩ : ∃ f, fuel = f + 1 := ⟨fuel - 1, by omega⟩
  have hreads : readMembers? f (ds ++ '}' :: rest) = some (ms, rest) := hs f rest (by omega)
  rw [List.append_assoc, List.cons_append, (h f _ (by omega)).2, hreads]
  rfl

end Reads

/-- Every text of the grammar is read as what it stands for. -/
theorem Denotes.reads {p : Part} {cs : List Char} (h : Denotes p cs) : Reads p cs := by
  -- each constructor of the grammar has its lemma, and the fuel of the parts is part of `Reads`
  induction h with
  | null => exact .null
  | true => exact .true
  | false => exact .false
  | number l => exact .number l
  | string gs => exact .string gs
  | emptyArray hw => exact .emptyArray hw
  | array _ ih => exact .array ih
  | emptyObject hw => exact .emptyObject hw
  | object _ ih => exact .object ih
  | element hw hw' _ ih => exact .element hw hw' ih
  | lastItem _ ih => exact .lastItem ih
  | item _ _ ih ihs => exact .item ih ihs
  | member hw hw' _ ih => exact .member hw hw' ih
  | lastMember _ ih => exact .lastMember ih
  | members _ _ ih ihs => exact .members ih ihs

/-- A whole text is read as the value that it stands for. -/
theorem parseChars?_of_denotes {j : Json} (h : Denotes (.element j) cs) :
    parseChars? cs = some j := by
  have hnil : EndsNumber [] := fun c hc => by cases hc
  obtain ⟨tail, hread, htail⟩ := h.reads (2 * cs.length + 2) [] (by omega) hnil
  rw [List.append_nil] at hread
  rw [parseChars?, hread]
  show (if (skipBlank tail).isEmpty then some j else none) = some j
  rw [htail]
  rfl

/-- A value without blanks around it is a whole text. -/
theorem parse?_of_denotes {j : Json} {text : String} (h : Denotes (.value j) text.toList) :
    parse? text = some j :=
  parseChars?_of_denotes h.unpadded

/-! ### What is written -/

/-- What is written for a text is a string of the grammar and stands for this text. -/
theorem denotes_quote (s : String) : Denotes (.value (.string (some s))) (quote s) := by
  obtain ⟨gs, hgs, htext⟩ := exists_glyphs s
  have hquote : quotedGlyphs gs = quote s := by rw [quotedGlyphs, hgs, quote]
  rw [← hquote, ← htext]
  exact .string gs

/-- What is written for an integer is a literal of the grammar and stands for this integer. -/
theorem denotes_toString (i : Int) :
    Denotes (.value (.number (.ofInt i))) (toString i).toList := by
  rw [← Literal.chars_ofInt]
  exact .number (.ofInt i)

/-- A member without blanks. -/
theorem denotes_member {j : Json} (name : String) (h : Denotes (.value j) cs) :
    Denotes (.member (some name, j)) (quote name ++ ':' :: cs) := by
  obtain ⟨gs, hgs, htext⟩ := exists_glyphs name
  have hquote : quotedGlyphs gs = quote name := by rw [quotedGlyphs, hgs, quote]
  rw [← hquote, ← htext]
  exact .member blank_nil blank_nil h.unpadded

/-- What holds of one text, and of a text before a comma and others, holds of several texts with
commas in between. -/
theorem of_intercalate {α : Type} {text : α → List Char} {p : α → Prop}
    {P : List α → List Char → Prop} (last : ∀ x, p x → P [x] (text x))
    (cons : ∀ x xs cs, p x → P xs cs → P (x :: xs) (text x ++ ',' :: cs)) {xs : List α}
    (hne : xs ≠ []) (h : ∀ x ∈ xs, p x) : P xs ([','].intercalate (xs.map text)) := by
  induction xs with
  | nil => exact absurd rfl hne
  | cons x xs ih =>
    obtain ⟨hx, hxs⟩ := List.forall_mem_cons.1 h
    -- the last text has no comma behind it, so a single element is a case of its own
    cases xs with
    | nil =>
      rw [List.map_singleton, List.intercalate_singleton]
      exact last x hx
    | cons y ys =>
      rw [List.map_cons, List.map_cons, List.intercalate_cons_cons, List.append_assoc]
      exact cons x (y :: ys) _ hx (ih (List.cons_ne_nil y ys) hxs)

section

variable {α : Type} {xs : List α} {text : α → List Char}

/-- Texts of values with commas in between are the items of an array. -/
theorem denotes_items {json : α → Json} (hne : xs ≠ [])
    (h : ∀ x ∈ xs, Denotes (.value (json x)) (text x)) :
    Denotes (.items (xs.map json)) ([','].intercalate (xs.map text)) :=
  of_intercalate (P := fun xs cs => Denotes (.items (xs.map json)) cs)
    (fun _ hx => .lastItem hx.unpadded) (fun _ _ _ hx hxs => .item hx.unpadded hxs) hne h

/-- Texts of members with commas in between are the members of an object. -/
theorem denotes_members {member : α → Option String × Json} (hne : xs ≠ [])
    (h : ∀ x ∈ xs, Denotes (.member (member x)) (text x)) :
    Denotes (.members (xs.map member)) ([','].intercalate (xs.map text)) :=
  of_intercalate (P := fun xs cs => Denotes (.members (xs.map member)) cs)
    (fun _ hx => .lastMember hx) (fun _ _ _ hx hxs => .members hx hxs) hne h

end

end Tabula.Json
