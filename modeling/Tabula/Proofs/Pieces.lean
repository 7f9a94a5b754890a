import Mathlib
import Tabula.Text.Split

/-!
# Texts between separators

A text is taken apart at a separator and put together with one. As long as no piece holds the
separator these undo each other, whether the separator stands between the pieces or behind each of
them.

* `Text.splitOn_eq` — the splitting of texts is the splitting of lists.
* `Text.splitOn_intercalate`, `Text.splitOn_flatMap` — pieces that were put together come apart.
* `Text.intercalate_cons_cons`, `Text.mem_of_mem_intercalate` — what pieces make with a separator
  between them.
-/

namespace Tabula.Text

variable {c d : Char} {a b l cs : List Char} {ls : List (List Char)}

/-! ### Pieces with separators between them -/

/-- The separator stands behind the first of several pieces. -/
theorem intercalate_cons_cons (c : Char) (a b : List Char) (ls : List (List Char)) :
    [c].intercalate (a :: b :: ls) = a ++ c :: [c].intercalate (b :: ls) := by
  rw [List.intercalate_cons_cons, List.append_assoc]
  rfl

/-- A list of texts with separators begins as the first of them. -/
theorem exists_intercalate_eq_cons (c : Char) {d : Char} {a : List Char} (ls : List (List Char)) :
    ∃ tail, [c].intercalate ((d :: a) :: ls) = d :: tail := by
  cases ls with
  | nil => exact ⟨a, List.intercalate_singleton⟩
  | cons b ls => exact ⟨_, intercalate_cons_cons c _ b ls⟩

/-- The joined text has the first piece in it, and a separator for each of the others. -/
theorem length_add_length_le (c : Char) (a : List Char) (ls : List (List Char)) :
    a.length + ls.length ≤ ([c].intercalate (a :: ls)).length := by
  induction ls generalizing a with
  | nil =>
    rw [List.intercalate_singleton]
    exact Nat.le_refl _
  | cons b ls ih =>
    have hrest := ih b
    rw [intercalate_cons_cons, List.length_append, List.length_cons, List.length_cons]
    omega

/-- Every character of the joined text is the separator or one of a piece. -/
theorem mem_of_mem_intercalate (h : d ∈ [c].intercalate ls) : d = c ∨ ∃ l ∈ ls, d ∈ l := by
  induction ls with
  | nil => exact absurd h List.not_mem_nil
  | cons a ls ih =>
    cases ls with
    | nil =>
      rw [List.intercalate_singleton] at h
      exact .inr ⟨a, List.mem_cons_self, h⟩
    | cons b ls =>
      rw [intercalate_cons_cons, List.mem_append, List.mem_cons] at h
      obtain h | h | h := h
      · exact .inr ⟨a, List.mem_cons_self, h⟩
      · exact .inl h
      · obtain h | ⟨l, hl, h⟩ := ih h
        · exact .inl h
        · exact .inr ⟨l, List.mem_cons_of_mem _ hl, h⟩

/-! ### Splitting -/

/-- Texts are split like lists. -/
theorem splitOn_eq (c : Char) (cs : List Char) : splitOn c cs = cs.splitOn c := by
  induction cs with
  | nil => rfl
  | cons d cs ih =>
    rw [splitOn, ih]
    show _ = List.splitOnP (· == c) (d :: cs)
    rw [List.splitOnP_cons_eq_if_modifyHead]
    -- a separator begins a new piece, and any other character goes to the front of the next one
    by_cases h : d = c
    · rw [if_pos h, if_pos (beq_iff_eq.2 h)]
      rfl
    · rw [if_neg h, if_neg fun hd => h (beq_iff_eq.1 hd)]
      show _ = List.modifyHead (List.cons d) (cs.splitOn c)
      cases hcs : cs.splitOn c with
      | nil => exact absurd (ih.trans hcs) (splitOn_ne_nil c cs)
      | cons l ls => rfl

/-- Pieces without a separator in them are told apart by those between them. -/
theorem splitOn_intercalate (hne : ls ≠ []) (h : ∀ l ∈ ls, c ∉ l) :
    splitOn c ([c].intercalate ls) = ls := by
  rw [splitOn_eq]
  exact List.splitOn_intercalate c h hne

/-- No piece holds the separator. -/
theorem notMem_of_mem_splitOn (h : l ∈ splitOn c cs) : c ∉ l := by
  induction cs generalizing l with
  | nil =>
    obtain rfl := List.mem_singleton.1 h
    exact List.not_mem_nil
  | cons d cs ih =>
    rw [splitOn] at h
    split at h
    · obtain rfl | h := List.mem_cons.1 h
      · exact List.not_mem_nil
      · exact ih h
    · next hd =>
      split at h
      · next hnil => exact absurd hnil (splitOn_ne_nil c cs)
      · next piece rest hcs =>
        rw [hcs] at ih
        -- the piece that begins here, or one of those after it
        obtain rfl | h := List.mem_cons.1 h
        · rw [List.mem_cons, not_or]
          exact ⟨Ne.symm hd, ih List.mem_cons_self⟩
        · exact ih (List.mem_cons_of_mem _ h)

/-- The first piece ends at the first separator. -/
theorem splitOn_append_cons (h : c ∉ l) (rest : List Char) :
    splitOn c (l ++ c :: rest) = l :: splitOn c rest := by
  induction l with
  | nil => rw [List.nil_append, splitOn, if_pos rfl]
  | cons d l ih =>
    obtain ⟨hd, hl⟩ := not_or.1 (List.mem_cons.not.1 h)
    rw [List.cons_append, splitOn, if_neg (Ne.symm hd), ih hl]

/-- Lines without breaks in them are told apart by the breaks after them. -/
theorem splitOn_flatMap (h : ∀ l ∈ ls, c ∉ l) :
    splitOn c (ls.flatMap (· ++ [c])) = ls ++ [[]] := by
  induction ls with
  | nil => rfl
  | cons l ls ih =>
    obtain ⟨hl, hls⟩ := List.forall_mem_cons.1 h
    rw [List.flatMap_cons, List.append_assoc, List.singleton_append, splitOn_append_cons hl, ih hls]
    rfl

end Tabula.Text
