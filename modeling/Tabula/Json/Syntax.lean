import Tabula.Json.Number
import Tabula.Json.Text

/-!
# JSON values

* `Json` — a value as it is written: numbers are literals, members keep their order and repetitions,
  and a string that no text corresponds to is kept as such.
* `Json.parse?` — the value that a whole text denotes.
-/

namespace Tabula

/-- A JSON value. -/
inductive Json where
  | null
  | bool (b : Bool)
  | number (n : Json.Number)
  /-- A string; without a text if half of a surrogate pair stands alone in it. -/
  | string (text : Option String)
  | array (items : List Json)
  | object (members : List (Option String × Json))
  deriving Repr, Inhabited

namespace Json

def isBlank (c : Char) : Bool := c = ' ' || c = '\t' || c = '\n' || c = '\r'

def skipBlank (cs : List Char) : List Char := cs.dropWhile isBlank

/-- The string whose opening quote has been read. -/
def readString? (cs : List Char) : Option (Option String × List Char) :=
  (scanString cs).map fun (ps, rest) => ((joinPieces ps).map String.ofList, rest)

mutual

/-- The value at the front of the text, and the rest. The first argument bounds the depth of the
calls; twice the length of the text is always enough. -/
def readValue? : Nat → List Char → Option (Json × List Char)
  | 0, _ => none
  | fuel + 1, cs =>
    match skipBlank cs with
    | 'n' :: 'u' :: 'l' :: 'l' :: rest => some (.null, rest)
    | 't' :: 'r' :: 'u' :: 'e' :: rest => some (.bool true, rest)
    | 'f' :: 'a' :: 'l' :: 's' :: 'e' :: rest => some (.bool false, rest)
    | '"' :: rest => (readString? rest).map fun (s, rest) => (.string s, rest)
    | '[' :: rest =>
      match skipBlank rest with
      | ']' :: rest => some (.array [], rest)
      | rest => (readItems? fuel rest).map fun (items, rest) => (.array items, rest)
    | '{' :: rest =>
      match skipBlank rest with
      | '}' :: rest => some (.object [], rest)
      | rest => (readMembers? fuel rest).map fun (members, rest) => (.object members, rest)
    | rest => (readNumber? rest).map fun (n, rest) => (.number n, rest)

/-- The items of an array up to its closing bracket. -/
def readItems? : Nat → List Char → Option (List Json × List Char)
  | 0, _ => none
  | fuel + 1, cs =>
    (readValue? fuel cs).bind fun (item, rest) =>
      match skipBlank rest with
      | ',' :: rest => (readItems? fuel rest).map fun (items, rest) => (item :: items, rest)
      | ']' :: rest => some ([item], rest)
      | _ => none

/-- The members of an object up to its closing brace. -/
def readMembers? : Nat → List Char → Option (List (Option String × Json) × List Char)
  | 0, _ => none
  | fuel + 1, cs =>
    match skipBlank cs with
    | '"' :: rest =>
      (readString? rest).bind fun (key, rest) =>
        match skipBlank rest with
        | ':' :: rest =>
          (readValue? fuel rest).bind fun (item, rest) =>
            match skipBlank rest with
            | ',' :: rest =>
              (readMembers? fuel rest).map fun (members, rest) => ((key, item) :: members, rest)
            | '}' :: rest => some ([(key, item)], rest)
            | _ => none
        | _ => none
    | _ => none

end

/-- The value that the whole text denotes, blanks around it allowed. -/
def parseChars? (cs : List Char) : Option Json :=
  (readValue? (2 * cs.length + 2) cs).bind fun (v, rest) =>
    if (skipBlank rest).isEmpty then some v else none

/-- The value that the whole text denotes, blanks around it allowed. -/
def parse? (text : String) : Option Json := parseChars? text.toList

end Json

end Tabula
