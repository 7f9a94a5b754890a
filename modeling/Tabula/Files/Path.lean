import Tabula.Text.Split

/-!
# Path texts

A path is a text whose names are separated by slashes. Empty names and the name of a single point
add nothing to a path, except for a point at its very start.

* `Path.names` — the names on the way.
* `Path.parent?` — the text of the path without its last name.
* `Path.ancestors` — a path, its parent, the parent of that, and so on.
-/

namespace Tabula.Path

/-- The pieces of a text between slashes, the empty ones included. -/
def pieces (cs : List Char) : List (List Char) := Text.splitOn '/' cs

/-- The pieces with slashes between them. -/
def join (ps : List (List Char)) : List Char := ['/'].intercalate ps

/-- The names on the way that a path describes. -/
def names (path : String) : List String :=
  ((pieces path.toList).filter fun p => !p.isEmpty).map String.ofList

def isAbsolute (path : String) : Bool := path.toList.head? == some '/'

/-- Whether the path asks for a directory by a slash at its end. -/
def asksDirectory (path : String) : Bool := path.toList.getLast? == some '/'

/-- The part of a path that its names are added to, and the rest. -/
def start : List Char → List Char × List Char
  | '/' :: cs => (['/'], cs)
  | '.' :: '/' :: cs => (['.'], '/' :: cs)
  | ['.'] => (['.'], [])
  | cs => ([], cs)

/-- Pieces without those at the end that add nothing. -/
def dropIdle (ps : List (List Char)) : List (List Char) :=
  (ps.reverse.dropWhile fun p => p == [] || p == ['.']).reverse

/-- The text of the path without its last name; the root and the empty path have none. -/
def parent? (path : String) : Option String :=
  let (first, rest) := start path.toList
  match dropIdle (pieces rest) with
  | [] => if first = ['.'] then some "" else none
  | ps => some (String.ofList (first ++ join (dropIdle ps.dropLast)))

/-- The path and its parents, at most `fuel` of them. -/
def ancestorsUpTo : Nat → String → List String
  | 0, _ => []
  | fuel + 1, path =>
    path :: match parent? path with
      | none => []
      | some p => ancestorsUpTo fuel p

/-- The path, its parent, the parent of that, and so on. A parent is shorter than its path. -/
def ancestors (path : String) : List String := ancestorsUpTo (path.length + 1) path

end Tabula.Path
