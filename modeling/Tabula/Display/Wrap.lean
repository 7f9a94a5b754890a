import Tabula.Text.Split
import Tabula.Text.Width

/-!
# Wrapping lines

A line that is too wide for its column is broken between words, and inside a word only if the word
is too wide on its own.

* `Display.splitWord` — as much of a word as fits a width, and the rest.
* `Display.wrap` — the lines that a line is broken into.
-/

namespace Tabula.Display

/-- As many characters of a word as fit the width, and the rest. -/
def splitWord (width : Nat) : List Char → List Char × List Char
  | [] => ([], [])
  | c :: cs =>
    if width < Width.ofChar c then ([], c :: cs)
    else
      let (front, rest) := splitWord (width - Width.ofChar c) cs
      (c :: front, rest)

/-- A line on its own if not more than two columns are left in it, and the line that follows. -/
def closeFull (width : Nat) (line : List Char) : List (List Char) × List Char :=
  if width - 2 < Width.ofChars line then ([line], []) else ([], line)

/-- The lines made of words, the first of which continues the given line. The first argument bounds
the number of steps: every step takes a word, takes a part of one, or begins a line. -/
def wrapWords (width : Nat) : Nat → List Char → List (List Char) → List (List Char)
  | 0, line, _ => [line]
  | _, line, [] => if line.isEmpty then [] else [line]
  | steps + 1, line, word :: words =>
    let used := Width.ofChars line + (if line.isEmpty then 0 else 1)
    let start := if line.isEmpty then [] else line ++ [' ']
    if used + Width.ofChars word ≤ width then
      let (done, next) := closeFull width (start ++ word)
      done ++ wrapWords width steps next words
    else if !line.isEmpty && width - used ≤ 2 then
      line :: wrapWords width steps [] (word :: words)
    else if width < Width.ofChars word then
      let (front, rest) := splitWord (width - used) word
      let (front, rest) :=
        if line.isEmpty && front.isEmpty then (word.take 1, word.drop 1) else (front, rest)
      (start ++ front) :: wrapWords width steps [] (rest :: words)
    else
      let (done, next) := closeFull width word
      line :: (done ++ wrapWords width steps next words)

/-- The lines that a line is broken into, none of them wider than the width if that is possible. -/
def wrap (width : Nat) (line : List Char) : List (List Char) :=
  if Width.ofChars line ≤ width then [line]
  else wrapWords width (4 * line.length + 4) [] (Text.splitOn ' ' line)

end Tabula.Display
