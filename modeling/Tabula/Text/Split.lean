/-!
# Splitting texts

* `Text.splitOn` — the pieces of a text between separators.
* `Text.intercalate_splitOn` — the pieces with separators between them are the text.
-/

namespace Tabula.Text

/-- The pieces of a text between separators, the empty ones included. -/
def splitOn (separator : Char) : List Char → List (List Char)
  | [] => [[]]
  | c :: cs =>
    if c = separator then [] :: splitOn separator cs
    else match splitOn separator cs with
      | [] => [[c]]
      | piece :: rest => (c :: piece) :: rest

theorem splitOn_ne_nil (separator : Char) (cs : List Char) : splitOn separator cs ≠ [] := by
  cases cs with
  | nil => simp [splitOn]
  | cons c cs =>
    rw [splitOn]
    split
    · simp
    · split <;> simp

/-- Nothing but the separators is lost. -/
theorem intercalate_splitOn (separator : Char) (cs : List Char) :
    [separator].intercalate (splitOn separator cs) = cs := by
  induction cs with
  | nil => rfl
  | cons c cs ih =>
    rw [splitOn]
    have hne := splitOn_ne_nil separator cs
    cases hs : splitOn separator cs with
    | nil => exact absurd hs hne
    | cons piece rest =>
      rw [hs] at ih
      by_cases hc : c = separator
      · simp [hc, List.intercalate] at ih ⊢
        exact ih
      · cases rest <;> simp_all [List.intercalate, List.intersperse]

end Tabula.Text
