/-!
# CSV fields and records

A record is a line of fields with separators between them. A field that begins with a quote may hold
separators and line breaks between quotes; every quote opens or closes.

* `Csv.quoted`, `Csv.unquote?` — the written form of a field with its quotes doubled, and back.
* `Csv.scanField` — the field at the front of a text and how it ends.
* `Csv.scanRecord?`, `Csv.scanRecords?` — records of a known number of fields.
* `Csv.lines`, `Csv.splitLine`, `Csv.completeLines` — the lines of a text, whose breaks are those
  outside of quotes.
-/

namespace Tabula.Csv

/-! ### Quotes -/

/-- The characters with every quote doubled. -/
def doubleQuotes : List Char → List Char
  | [] => []
  | c :: cs => if c = '"' then '"' :: '"' :: doubleQuotes cs else c :: doubleQuotes cs

/-- The characters between quotes, with quotes inside doubled. -/
def quoted (cs : List Char) : List Char := '"' :: (doubleQuotes cs ++ ['"'])

/-- Of two quotes in a row one is kept, a quote that stands alone is dropped. The first argument
says whether a quote that was dropped stands right before. -/
def halveQuotes : Bool → List Char → List Char
  | _, [] => []
  | afterQuote, c :: cs =>
    if c = '"' then
      if afterQuote then '"' :: halveQuotes false cs else halveQuotes true cs
    else c :: halveQuotes false cs

/-- A field without its outer quotes. -/
def inner (cs : List Char) : List Char := (cs.drop 1).dropLast

/-- The characters that a quoted field stands for; it has to end in a quote as well. -/
def unquote? (cs : List Char) : Option (List Char) :=
  if 1 < cs.length ∧ cs.getLast? = some '"' then some (halveQuotes false (inner cs)) else none

/-! ### Fields -/

/-- A field as it stands in the text. -/
structure Field where
  text : List Char
  /-- Whether the field begins with a quote. -/
  isQuoted : Bool
  deriving DecidableEq, Repr

/-- What a field ends at. -/
inductive FieldEnd where
  | separator
  | lineBreak
  | textEnd
  deriving DecidableEq, Repr

/-- The characters up to a separator or a line break, what ends them, and the rest after that. In a
quoted field every quote opens or closes, and nothing ends the field in between. -/
def scanText (isQuoted : Bool) (separator : Char) (inside : Bool) :
    List Char → List Char × FieldEnd × List Char
  | [] => ([], .textEnd, [])
  | c :: cs =>
    let inside := if isQuoted && c == '"' then !inside else inside
    if !inside && c == '\n' then ([], .lineBreak, cs)
    else if !inside && c == separator then ([], .separator, cs)
    else
      let (text, ending, rest) := scanText isQuoted separator inside cs
      (c :: text, ending, rest)

/-- The field at the front of a text, what it ends at, and the rest after that. -/
def scanField (separator : Char) (cs : List Char) : Field × FieldEnd × List Char :=
  let isQuoted := cs.head? == some '"'
  let (text, ending, rest) := scanText isQuoted separator false cs
  (⟨text, isQuoted⟩, ending, rest)

/-- At most `n` fields of the line at the front of a text, what the last of them ends at, and the
rest after that. After a separator there always is another field. -/
def scanFields (separator : Char) : Nat → List Char → List Field × FieldEnd × List Char
  | 0, cs => ([], .separator, cs)
  | n + 1, cs =>
    match scanField separator cs with
    | (field, .separator, rest) =>
      let (fields, ending, rest) := scanFields separator n rest
      (field :: fields, ending, rest)
    | (field, ending, rest) => ([field], ending, rest)

/-! ### Records -/

/-- The record at the front of a text, of at most `n` fields, and the rest. Only a separator at the
very end of the text may follow the last of `n` fields. -/
def scanRecord? (separator : Char) (n : Nat) (cs : List Char) : Option (List Field × List Char) :=
  match scanFields separator n cs with
  | (fields, .separator, []) => some (fields, [])
  | (_, .separator, _ :: _) => none
  | (fields, _, rest) => some (fields, rest)

/-- The records of a text that has to hold exactly the given number of them. -/
def scanRecords? (separator : Char) (n : Nat) : Nat → List Char → Option (List (List Field))
  | 0, [] => some []
  | 0, _ :: _ => none
  | _ + 1, [] => none
  | count + 1, cs =>
    (scanRecord? separator n cs).bind fun (record, rest) =>
      (scanRecords? separator n count rest).map (record :: ·)

/-! ### Lines -/

/-- The first line and the rest after its break. -/
def splitLine : Bool → List Char → List Char × List Char
  | _, [] => ([], [])
  | inside, c :: cs =>
    if c == '\n' && !inside then ([], cs)
    else
      let (line, rest) := splitLine (if c == '"' then !inside else inside) cs
      (c :: line, rest)

/-- All lines; a break at the end of the text does not begin another one. -/
def lines : Bool → List Char → List (List Char)
  | _, [] => []
  | inside, c :: cs =>
    if c == '\n' && !inside then [] :: lines false cs
    else match lines (if c == '"' then !inside else inside) cs with
      | [] => [[c]]
      | line :: rest => (c :: line) :: rest

/-- The number of lines that end in a break, the text of these lines, and the text after them. -/
def completeLines : Bool → List Char → Nat × List Char × List Char
  | _, [] => (0, [], [])
  | inside, c :: cs =>
    let (count, complete, tail) := completeLines (if c == '"' then !inside else inside) cs
    if c == '\n' && !inside then (count + 1, c :: complete, tail)
    else if count = 0 then (0, [], c :: tail)
    else (count, c :: complete, tail)

/-- A line without the carriage return before its break, unless it holds nothing else. -/
def dropReturn (line : List Char) : List Char :=
  if 1 < line.length ∧ line.getLast? = some '\r' then line.dropLast else line

end Tabula.Csv
