import Tabula.Display.Wrap

/-!
# Fitting columns into a width

Columns that need no more than an equal share of the width get what they need, which leaves larger
shares for the others. What is still too wide then is wrapped.

* `Display.Demand` — what a column asks for.
* `Display.fit` — the widths of all columns.
-/

namespace Tabula.Display

/-- What a column asks for: its lines, and the limits of its width. Blanks on both sides of the
column are not counted. -/
structure Demand where
  lines : List (List Char)
  /-- Less than this a column gets only if it asks for less. -/
  least : Nat
  /-- More than this a column never gets. -/
  most : Nat

/-- The width of the widest line. -/
def Demand.width (d : Demand) : Nat := (d.lines.map Width.ofChars).foldl max 0

/-- A column with the width that it was given, if it was given one. -/
abbrev Share := Demand × Option Nat

/-- The width and the number of columns that are left to be shared. -/
structure Rest where
  width : Nat
  columns : Nat

/-- An equal share of what is left. -/
def Rest.share (r : Rest) : Nat := r.width / r.columns

/-- What is left after one column got a width. -/
def Rest.take (r : Rest) (width : Nat) : Rest := ⟨r.width - width, r.columns - 1⟩

/-- One pass over the columns: each one that was given nothing yet gets what a rule gives it for the
present share. -/
def pass (rule : Demand → Nat → Option Nat) : Rest → List Share → List Share × Rest
  | rest, [] => ([], rest)
  | rest, (d, some w) :: shares =>
    let (shares, rest) := pass rule rest shares
    ((d, some w) :: shares, rest)
  | rest, (d, none) :: shares =>
    match if rest.columns = 0 then none else rule d rest.share with
    | none =>
      let (shares, rest) := pass rule rest shares
      ((d, none) :: shares, rest)
    | some w =>
      let (shares, rest) := pass rule (rest.take w) shares
      ((d, some w) :: shares, rest)

/-- Passes until one of them gives nothing; each pass before that gives a width to a column. -/
def passes (rule : Demand → Nat → Option Nat) : Nat → Rest → List Share → List Share × Rest
  | 0, rest, shares => (shares, rest)
  | fuel + 1, rest, shares =>
    if rest.columns = 0 || rest.share = 0 then (shares, rest)
    else
      let (next, left) := pass rule rest shares
      if left.columns = rest.columns then (next, left) else passes rule fuel left next

/-- A column that needs no more than its share gets what it needs. -/
def modest (d : Demand) (share : Nat) : Option Nat :=
  if d.most ≤ share ∧ d.most ≤ d.width then some d.most
  else if d.width ≤ share then some d.width
  else none

/-- A column whose share is too small gets the least that it can have. -/
def raised (d : Demand) (share : Nat) : Option Nat :=
  if share < d.least + 2 then some d.least else none

/-- A column whose lines are considerably narrower than its share after wrapping gets that width. -/
def wrapped (d : Demand) (share : Nat) : Option Nat :=
  let widest := ((d.lines.flatMap (wrap share)).map Width.ofChars).foldl max 0
  if 3 ≤ share - widest then some widest else none

/-- Equal widths for the columns without one; the first ones get one more if there is an excess. -/
def distribute (share : Nat) : Nat → List Share → List Nat
  | _, [] => []
  | excess, (_, some w) :: shares => w :: distribute share excess shares
  | excess, (_, none) :: shares =>
    (if excess = 0 then share else share + 1) :: distribute share (excess - 1) shares

/-- The widths of columns that have the given width together. -/
def fit (width : Nat) (demands : List Demand) : List Nat :=
  let n := demands.length
  let shares : List Share := demands.map fun d =>
    (d, if d.width ≤ d.least then some d.least else none)
  let fixed := (shares.filterMap Prod.snd).foldr (· + ·) 0
  let waiting := shares.countP fun s => s.2.isNone
  let (shares, rest) := passes modest n ⟨width - fixed, waiting⟩ shares
  let (shares, rest) := pass raised rest shares
  let (shares, rest) := passes wrapped n rest shares
  distribute rest.share (rest.width - rest.share * rest.columns) shares

end Tabula.Display
