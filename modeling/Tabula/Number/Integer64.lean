/-!
# Integers of 64 bits

Which integers a machine word of 64 bits with a sign stands for.

* `Integer64.ofInt?` — the word that stands for an integer, if one does.
* `Integer64.clamp` — the word nearest to an integer.
-/

namespace Tabula.Integer64

/-- The word that stands for the integer, if one does. -/
def ofInt? (i : Int) : Option Int64 :=
  if Int64.minValue.toInt ≤ i ∧ i ≤ Int64.maxValue.toInt then some (.ofInt i) else none

/-- The word that stands for the integer, or for the end of the range that is nearest to it. -/
def clamp (i : Int) : Int64 := .ofInt (max Int64.minValue.toInt (min i Int64.maxValue.toInt))

/-- Each integer of the range has the one word that stands for it, and no other integer has one. -/
theorem ofInt?_eq_some_iff {i : Int} {n : Int64} : ofInt? i = some n ↔ n.toInt = i := by
  have hmin := Int64.toInt_minValue
  have hmax := Int64.toInt_maxValue
  constructor
  · intro h
    unfold ofInt? at h
    split at h
    · next hi =>
      rw [← Option.some.inj h]
      exact Int64.toInt_ofInt_of_le (by omega) (by omega)
    · simp at h
  · rintro rfl
    have hlow := n.le_toInt
    have hhigh := n.toInt_lt
    rw [ofInt?, if_pos ⟨by omega, by omega⟩, Int64.ofInt_toInt]

end Tabula.Integer64
