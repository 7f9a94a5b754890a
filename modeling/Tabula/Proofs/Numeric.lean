import Mathlib
import Tabula.Proofs.Order

/-!
# The numeric order

The order of floating-point numbers ranks them by sign and number of the magnitude, without looking
at what a magnitude is worth. As the grid rises, this is the order of the numbers that they stand
for.

* `Grid.units_strictMono` — later magnitudes of a grid are greater.
* `Binary64.toEReal` — the real number, or the infinity, that a floating-point number stands for.
* `Binary64.compare_rank` — ranks compare like these, unless something is not a number.
* `Binary64.rank_of_isNaN`, `Binary64.rank_lt_of_isNaN` — all that is not a number has one rank,
  above the infinities.
-/

namespace Tabula

/-! ### Magnitudes -/

namespace Grid

variable {g : Grid} {m n : Nat}

theorem binade_pos (g : Grid) : 0 < g.binade := Nat.pow_pos Nat.two_pos

/-- A magnitude is below twice the first one of its binade, except that the subnormal magnitudes
share the scale of the binade after them. -/
theorem units_lt (g : Grid) (m : Nat) : g.units m < g.binade * 2 ^ (m / g.binade) := by
  have hr : m % g.binade < g.binade := Nat.mod_lt m g.binade_pos
  unfold units
  -- subnormal magnitudes lie below the first binade, the others fill theirs
  cases hq : m / g.binade with
  | zero =>
    have hm : m < g.binade := (Nat.div_eq_zero_iff_lt g.binade_pos).1 hq
    simpa using hm
  | succ e =>
    calc (g.binade + m % g.binade) * Nat.pow 2 e
        < (g.binade + g.binade) * Nat.pow 2 e :=
          Nat.mul_lt_mul_of_pos_right (Nat.add_lt_add_left hr _) (Nat.pow_pos Nat.two_pos)
      _ = g.binade * 2 ^ (e + 1) := by
          rw [← Nat.two_mul, Nat.pow_succ']
          show 2 * g.binade * 2 ^ e = _
          ring

/-- A magnitude that is not subnormal is at least the first one of its binade. -/
theorem le_units (g : Grid) {e : Nat} (h : m / g.binade = e + 1) :
    g.binade * 2 ^ e ≤ g.units m := by
  unfold units
  rw [h]
  exact Nat.mul_le_mul_right _ (Nat.le_add_right _ _)

/-- A later magnitude is worth more. -/
theorem units_strictMono (g : Grid) : StrictMono g.units := by
  intro m n hmn
  have hle : m / g.binade ≤ n / g.binade := Nat.div_le_div_right hmn.le
  obtain hlt | heq := Nat.lt_or_eq_of_le hle
  · -- the binade of the one ends where that of the other begins, or before
    obtain ⟨e, he⟩ : ∃ e, n / g.binade = e + 1 :=
      Nat.exists_eq_add_one.2 (Nat.zero_lt_of_lt hlt)
    calc g.units m < g.binade * 2 ^ (m / g.binade) := g.units_lt m
      _ ≤ g.binade * 2 ^ e :=
          Nat.mul_le_mul_left _ (Nat.pow_le_pow_right Nat.two_pos (by omega))
      _ ≤ g.units n := g.le_units he
  · -- within a binade the significands decide
    have hr : m % g.binade < n % g.binade := by
      have hm := Nat.div_add_mod m g.binade
      have hn := Nat.div_add_mod n g.binade
      rw [heq] at hm
      omega
    unfold units
    rw [heq]
    cases n / g.binade with
    | zero => exact hmn
    | succ e =>
      exact Nat.mul_lt_mul_of_pos_right (Nat.add_lt_add_left hr _) (Nat.pow_pos Nat.two_pos)

theorem units_zero (g : Grid) : g.units 0 = 0 := by
  unfold units
  rw [Nat.zero_div]

theorem unitsPerOne_pos (g : Grid) : 0 < g.unitsPerOne := Nat.pow_pos Nat.two_pos

end Grid

/-! ### Numbers -/

namespace Binary64

variable {x y : Binary64}

/-- The real number or the infinity that the floating-point number stands for. It says nothing about
what is not a number. -/
noncomputable def toEReal (x : Binary64) : EReal :=
  if x.isFinite then ((x.units / Grid.double.unitsPerOne : ℝ) : EReal)
  else if x.isNegative then ⊥ else ⊤

/-- The rank of a number is its magnitude with its sign. Both zeros have the rank zero. -/
theorem rank_of_not_isNaN (h : x.isNaN = false) :
    x.rank = if x.isNegative then -(x.magnitude : Int) else x.magnitude := by
  -- both zeros have the rank zero, as if neither had a sign
  cases hz : x.isZero with
  | true =>
    have hm : x.magnitude = 0 := by simpa [isZero] using hz
    have hr : x.rank = 0 := by
      unfold rank
      rw [canonical, h, hz]
      rfl
    rw [hr, hm]
    split <;> rfl
  | false => exact (rank_of_plain hz h).1

/-- Whatever is not a number has the rank of the one that stands for all of these. -/
theorem rank_of_isNaN (h : x.isNaN = true) : x.rank = nan.magnitude := by
  unfold rank
  rw [canonical, h]
  rfl

/-- What is not a number ranks above the numbers and above the infinities. -/
theorem rank_lt_of_isNaN (hx : x.isNaN = true) (hy : y.isNaN = false) : y.rank < x.rank := by
  have hle : y.magnitude ≤ Grid.double.infinity := by simpa [isNaN] using hy
  have hnan : Grid.double.infinity < nan.magnitude := by decide
  rw [rank_of_isNaN hx, rank_of_not_isNaN hy]
  split <;> omega

/-- What counts like a rising function of the magnitudes, with the sign in front, counts like the
rank. -/
theorem signed_lt_of_rank_lt {f : Nat → Nat} (hf : StrictMono f) (h0 : f 0 = 0)
    (hx : x.isNaN = false) (hy : y.isNaN = false) (h : x.rank < y.rank) :
    (if x.isNegative then -(f x.magnitude : Int) else f x.magnitude) <
      if y.isNegative then -(f y.magnitude : Int) else f y.magnitude := by
  rw [rank_of_not_isNaN hx, rank_of_not_isNaN hy] at h
  -- with one sign the magnitudes decide, where the negative sign turns them round
  cases hxs : x.isNegative with
  | false =>
    cases hys : y.isNegative with
    | false =>
      simp only [hxs, hys, Bool.false_eq_true, if_false, Int.ofNat_lt] at h ⊢
      exact hf h
    | true =>
      simp only [hxs, hys, Bool.false_eq_true, if_false, if_true] at h
      omega
  | true =>
    cases hys : y.isNegative with
    | false =>
      simp only [hxs, hys, Bool.false_eq_true, if_false, if_true] at h ⊢
      -- one of the magnitudes is not zero, and it keeps the two apart
      have hpos : 0 < f x.magnitude ∨ 0 < f y.magnitude := by
        obtain hm | hm : 0 < x.magnitude ∨ 0 < y.magnitude := by omega
        · exact .inl (h0 ▸ hf hm)
        · exact .inr (h0 ▸ hf hm)
      omega
    | true =>
      simp only [hxs, hys, if_true, Int.neg_lt_neg_iff, Int.ofNat_lt] at h ⊢
      exact hf h

theorem toEReal_of_isFinite (h : x.isFinite = true) :
    x.toEReal = ((x.units / Grid.double.unitsPerOne : ℝ) : EReal) := by
  rw [toEReal, if_pos h]

theorem toEReal_of_not_isFinite (h : x.isFinite = false) :
    x.toEReal = if x.isNegative then ⊥ else ⊤ := by
  rw [toEReal, h]
  rfl

/-- The ranks of numbers lie between those of the infinities. -/
theorem rank_bounds (h : x.isNaN = false) :
    -(Grid.double.infinity : Int) ≤ x.rank ∧ x.rank ≤ Grid.double.infinity := by
  have hle : x.magnitude ≤ Grid.double.infinity := by simpa [isNaN] using h
  rw [rank_of_not_isNaN h]
  split <;> omega

/-- A number that is not finite is the one infinity or the other. -/
theorem infinite_cases (hx : x.isNaN = false) (h : x.isFinite = false) :
    x.rank = Grid.double.infinity ∧ x.toEReal = ⊤ ∨
      x.rank = -(Grid.double.infinity : Int) ∧ x.toEReal = ⊥ := by
  have hle : ¬Grid.double.infinity < x.magnitude := by simpa [isNaN] using hx
  have hge : ¬x.magnitude < Grid.double.infinity := by simpa [isFinite] using h
  have hm : x.magnitude = Grid.double.infinity := by omega
  rw [rank_of_not_isNaN hx, toEReal_of_not_isFinite h, hm]
  cases x.isNegative with
  | false => exact .inl ⟨rfl, rfl⟩
  | true => exact .inr ⟨rfl, rfl⟩

/-- A higher rank is a greater number. -/
theorem toEReal_lt_of_rank_lt (hx : x.isNaN = false) (hy : y.isNaN = false) (h : x.rank < y.rank) :
    x.toEReal < y.toEReal := by
  have hxb := rank_bounds hx
  have hyb := rank_bounds hy
  -- finite numbers count their units; the infinities bound the ranks from either side
  cases hxf : x.isFinite with
  | true =>
    rw [toEReal_of_isFinite hxf]
    cases hyf : y.isFinite with
    | true =>
      have hu : x.units < y.units :=
        signed_lt_of_rank_lt Grid.double.units_strictMono Grid.double.units_zero hx hy h
      have hpos : (0 : ℝ) < Grid.double.unitsPerOne := Nat.cast_pos.2 Grid.double.unitsPerOne_pos
      rw [toEReal_of_isFinite hyf, EReal.coe_lt_coe_iff]
      exact div_lt_div_of_pos_right (Int.cast_lt.2 hu) hpos
    | false =>
      obtain ⟨-, hy⟩ | ⟨hy, -⟩ := infinite_cases hy hyf
      · rw [hy]
        exact EReal.coe_lt_top _
      · -- nothing ranks below the negative infinity
        omega
  | false =>
    obtain ⟨hx, -⟩ | ⟨hx, hxe⟩ := infinite_cases hx hxf
    · -- nothing that is a number ranks above the positive infinity
      omega
    · rw [hxe]
      cases hyf : y.isFinite with
      | true =>
        rw [toEReal_of_isFinite hyf]
        exact EReal.bot_lt_coe _
      | false =>
        obtain ⟨-, hy⟩ | ⟨hy, -⟩ := infinite_cases hy hyf
        · rw [hy]
          exact bot_lt_top
        · omega

/-- Numbers of one rank are one number: they are identical, or both are zeros. -/
theorem toEReal_eq_of_rank_eq (hx : x.isNaN = false) (h : x.rank = y.rank)
    (hy : y.isNaN = false) : x.toEReal = y.toEReal := by
  -- only the two zeros share a rank, and both stand for zero
  cases hz : x.isZero with
  | false => rw [eq_of_rank_eq h hz hx]
  | true =>
    have hxm : x.magnitude = 0 := by simpa [isZero] using hz
    have hym : y.magnitude = 0 := by
      rw [rank_of_not_isNaN hx, rank_of_not_isNaN hy, hxm] at h
      split at h <;> split at h <;> omega
    have hzero : ∀ z : Binary64, z.magnitude = 0 → z.toEReal = 0 := by
      intro z hz
      have hf : z.isFinite = true := by
        rw [isFinite, hz]
        rfl
      have hu : z.units = 0 := by
        rw [units, hz, Grid.units_zero]
        split <;> rfl
      rw [toEReal_of_isFinite hf, hu, Int.cast_zero, zero_div, EReal.coe_zero]
    rw [hzero x hxm, hzero y hym]

/-- Numbers rank like the real numbers and infinities that they stand for. -/
theorem compare_rank (hx : x.isNaN = false) (hy : y.isNaN = false) :
    compare x.rank y.rank = compare x.toEReal y.toEReal := by
  obtain h | h | h := lt_trichotomy x.rank y.rank
  · rw [compare_lt_iff_lt.2 h, compare_lt_iff_lt.2 (toEReal_lt_of_rank_lt hx hy h)]
  · rw [compare_eq_iff_eq.2 h, compare_eq_iff_eq.2 (toEReal_eq_of_rank_eq hx h hy)]
  · rw [compare_gt_iff_gt.2 h, compare_gt_iff_gt.2 (toEReal_lt_of_rank_lt hy hx h)]

end Binary64

end Tabula
