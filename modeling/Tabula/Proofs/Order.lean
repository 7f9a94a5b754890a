import Mathlib
import Tabula.Value.Basic

/-!
# The order of values

The order compares types first and then the content of the one type that both values share, which is
a comparison by several keys in turn. From this it inherits its laws, and equality of values with
it.

* `Value.cmp_eq_compareLex` — the keys.
* `Value.eq_of_beq_of_not_folded` — equal values are identical, except for zeros and not-a-numbers.
* `Value.ascends_ascending`, `Value.contains_ascending` — the distinct values of a list are in
  strictly ascending order, and each value of the list is equal to one of them.
-/

namespace Tabula

/-! ### Insertion -/

section

variable {α κ : Type} {cmp : κ → κ → Ordering} {key : α → κ} {a b : α} {bs : List α}

/-- Putting an element in brings in nothing else. -/
theorem mem_of_mem_insertByKey (h : b ∈ insertByKey cmp key a bs) : b = a ∨ b ∈ bs := by
  induction bs with
  | nil => exact .inl (List.mem_singleton.1 h)
  | cons x xs ih =>
    rw [insertByKey] at h
    -- in front of the head, in its place, or further back
    split at h
    · exact List.mem_cons.1 h
    · obtain rfl | h := List.mem_cons.1 h
      · exact .inl rfl
      · exact .inr (List.mem_cons_of_mem _ h)
    · obtain rfl | h := List.mem_cons.1 h
      · exact .inr List.mem_cons_self
      · obtain hb | hb := ih h
        · exact .inl hb
        · exact .inr (List.mem_cons_of_mem _ hb)

/-- Putting an element in at the place of its key keeps the keys ascending. -/
theorem pairwise_insertByKey [Std.TransCmp cmp]
    (h : bs.Pairwise fun x y => cmp (key x) (key y) = .lt) :
    (insertByKey cmp key a bs).Pairwise fun x y => cmp (key x) (key y) = .lt := by
  induction bs with
  | nil => exact List.pairwise_singleton _ _
  | cons x xs ih =>
    obtain ⟨hx, hxs⟩ := List.pairwise_cons.1 h
    rw [insertByKey]
    -- the element goes in before the head, in the place of the head, or behind it
    split
    · next hc =>
      refine List.pairwise_cons.2 ⟨?_, h⟩
      intro y hy
      obtain rfl | hy := List.mem_cons.1 hy
      · exact hc
      · exact Std.TransCmp.lt_trans hc (hx y hy)
    · next hc =>
      refine List.pairwise_cons.2 ⟨?_, hxs⟩
      intro y hy
      exact Std.TransCmp.lt_of_eq_of_lt hc (hx y hy)
    · next hc =>
      refine List.pairwise_cons.2 ⟨?_, ih hxs⟩
      -- what is behind the head now is the new element or was behind it before
      intro y hy
      obtain rfl | hy := mem_of_mem_insertByKey hy
      · exact Std.OrientedCmp.lt_of_gt hc
      · exact hx y hy

end

/-! ### Equal ranks of floating-point numbers -/

namespace Binary64

/-- A number is its sign and its magnitude. -/
theorem toNat_bits (x : Binary64) :
    x.bits.toNat = (if x.isNegative then signBit else 0) + x.magnitude := by
  -- the sign is the highest of the 64 bits, and the magnitude is what the others say
  have hlt : x.bits.toNat < 2 * signBit := x.bits.toNat_lt
  unfold isNegative magnitude
  by_cases hn : signBit ≤ x.bits.toNat
  · rw [if_pos (decide_eq_true hn), Nat.mod_eq_sub_mod hn, Nat.mod_eq_of_lt (by omega)]
    omega
  · rw [if_neg (by simpa using hn), Nat.mod_eq_of_lt (by omega), Nat.zero_add]

/-- A number is its sign and its magnitude. -/
theorem ext_parts {x y : Binary64} (hn : x.isNegative = y.isNegative)
    (hm : x.magnitude = y.magnitude) : x = y := by
  have hb : x.bits.toNat = y.bits.toNat := by rw [toNat_bits, toNat_bits, hn, hm]
  cases x
  cases y
  exact congrArg Binary64.mk (UInt64.toNat_inj.1 hb)

/-- A number that is neither a zero nor a not-a-number stands for itself, at its magnitude above or
below the zeros. -/
theorem rank_of_plain {x : Binary64} (hz : x.isZero = false) (hn : x.isNaN = false) :
    x.rank = (if x.isNegative then -(x.magnitude : Int) else x.magnitude) ∧ 0 < x.magnitude ∧
      x.magnitude ≤ Grid.double.infinity := by
  -- the canonical form of such a number is the number
  have hc : x.canonical = x := by
    rw [canonical, hn, hz]
    rfl
  have hpos : x.magnitude ≠ 0 := by simpa [isZero] using hz
  have hle : ¬Grid.double.infinity < x.magnitude := by simpa [isNaN] using hn
  refine ⟨?_, by omega, by omega⟩
  unfold rank
  rw [hc]

/-- No other number has the rank of one that is neither a zero nor a not-a-number. -/
theorem eq_of_rank_eq {x y : Binary64} (h : x.rank = y.rank) (hz : x.isZero = false)
    (hn : x.isNaN = false) : x = y := by
  obtain ⟨hx, hpos, hle⟩ := rank_of_plain hz hn
  cases hyn : y.isNaN with
  | true =>
    -- every not-a-number ranks above infinity
    have hy : y.rank = 0x7ff8000000000000 := by
      unfold rank
      rw [canonical, hyn]
      rfl
    have hinf : Grid.double.infinity = 0x7ff0000000000000 := rfl
    split at hx <;> omega
  | false =>
    cases hyz : y.isZero with
    | true =>
      have hy : y.rank = 0 := by
        unfold rank
        rw [canonical, hyn, hyz]
        rfl
      split at hx <;> omega
    | false =>
      obtain ⟨hy, hpos', -⟩ := rank_of_plain hyz hyn
      rw [hx, hy] at h
      -- neither magnitude is zero, so the signs can be told from the ranks, and then the magnitudes
      have hsign : x.isNegative = y.isNegative := by
        cases hxs : x.isNegative <;> cases hys : y.isNegative <;> simp [hxs, hys] at h ⊢ <;> omega
      rw [hsign] at h
      refine ext_parts hsign ?_
      split at h <;> omega

end Binary64

namespace Value

variable {u v w : Value} {vs ws : List Value}

/-! ### The laws of the order -/

/-- The rank of a floating-point value. -/
def rank? : Value → Option Int
  | .float x => some x.rank
  | _ => none

/-- Values are compared by their types, and then by what they hold; of the contents, all but the one
of the common type are absent. -/
theorem cmp_eq_compareLex :
    cmp = compareLex (compareOn typeRank) (compareLex (compareOn bool?)
      (compareLex (compareOn int64?) (compareLex (compareOn rank?) (compareOn string?)))) := by
  funext a b
  cases a <;> cases b
  -- between values of one type only the key of that type can decide; otherwise the types do
  case boolean.boolean a b => exact Ordering.then_eq.symm
  case integer.integer i j => exact Ordering.then_eq.symm
  case float.float x y => exact Ordering.then_eq.symm
  all_goals rfl

instance : Std.TransCmp cmp := by
  rw [cmp_eq_compareLex]
  infer_instance

instance : Std.LawfulBEqCmp cmp where
  compare_eq_iff_beq := by
    intro a b
    exact beq_iff_eq.symm

-- equality inherits reflexivity, symmetry and transitivity from the order
instance : EquivBEq Value := @Std.LawfulBEqCmp.equivBEq Value _ cmp _ _

theorem beq_iff_cmp : (v == w) = true ↔ v.cmp w = .eq :=
  Std.LawfulBEqCmp.compare_eq_iff_beq.symm

/-! ### Equal values -/

/-- Equal values have one type. -/
theorem columnType?_eq_of_beq (h : (v == w) = true) : v.columnType? = w.columnType? := by
  have hc := beq_iff_cmp.1 h
  -- values of different types are apart already by their types
  cases v <;> cases w <;> first | rfl | cases hc

/-- A floating-point zero or not-a-number: a value that is equal to others. -/
def isFolded : Value → Bool
  | .float x => x.isZero || x.isNaN
  | _ => false

/-- Equal values are identical, except for zeros and not-a-numbers. -/
theorem eq_of_beq_of_not_folded (h : (v == w) = true) (hv : v.isFolded = false) : v = w := by
  have hc := beq_iff_cmp.1 h
  cases v with
  | null => cases w <;> first | rfl | cases hc
  | boolean b =>
    cases w with
    | boolean c => exact congrArg Value.boolean (Std.LawfulEqOrd.eq_of_compare hc)
    | _ => cases hc
  | integer i =>
    cases w with
    | integer j => exact congrArg Value.integer (Std.LawfulEqOrd.eq_of_compare hc)
    | _ => cases hc
  | float x =>
    cases w with
    | float y =>
      obtain ⟨hz, hn⟩ := Bool.or_eq_false_iff.1 hv
      have hr : x.rank = y.rank := Std.LawfulEqOrd.eq_of_compare hc
      exact congrArg Value.float (Binary64.eq_of_rank_eq hr hz hn)
    | _ => cases hc
  | string s =>
    cases w with
    | string t => exact congrArg Value.string (Std.LawfulEqOrd.eq_of_compare hc)
    | _ => cases hc

/-- Lists of values are equal if their values are, one by one. -/
theorem list_beq_iff_forall₂ :
    (vs == ws) = true ↔ List.Forall₂ (fun v w => (v == w) = true) vs ws := by
  -- place by place, and lists of different lengths are not equal
  induction vs generalizing ws with
  | nil =>
    cases ws with
    | nil => simp
    | cons w ws => simp
  | cons v vs ih =>
    cases ws with
    | nil => simp
    | cons w ws => rw [List.cons_beq_cons, Bool.and_eq_true, ih, List.forall₂_cons]

/-! ### Ascending lists -/

/-- Each value of the list is before all that follow it. -/
def Ascends (vs : List Value) : Prop := vs.Pairwise fun v w => v.cmp w = .lt

/-- An ascending list stays one when a value is inserted. -/
theorem Ascends.insertDistinct (h : Ascends vs) : Ascends (insertDistinct v vs) :=
  pairwise_insertByKey h

/-- The list afterwards contains the value, and whatever it contained before. -/
theorem contains_insertDistinct :
    (insertDistinct v vs).contains w = (w == v || vs.contains w) := by
  unfold Value.insertDistinct
  induction vs with
  | nil => rw [insertByKey, List.contains_cons]
  | cons x xs ih =>
    rw [insertByKey]
    split
    · rw [List.contains_cons]
    · next hc =>
      -- the value that gives way is equal to the one put in
      have hwx : (w == v) = (w == x) := BEq.congr_right (beq_iff_cmp.2 hc)
      rw [List.contains_cons, List.contains_cons, hwx, ← Bool.or_assoc, Bool.or_self]
    · rw [List.contains_cons, List.contains_cons, ih, Bool.or_left_comm]

/-- A value behind a list is put in last. -/
theorem ascending_concat : ascending (vs ++ [v]) = insertDistinct v (ascending vs) := by
  rw [ascending, List.foldl_append]
  rfl

/-- The distinct values of a list are in strictly ascending order. -/
theorem ascends_ascending (vs : List Value) : Ascends (ascending vs) := by
  -- values are put in from the left, so the induction takes them from the right
  induction vs using List.reverseRecOn with
  | nil => exact List.Pairwise.nil
  | append_singleton vs v ih =>
    rw [ascending_concat]
    exact ih.insertDistinct

/-- What is in the ascending list was in the list. -/
theorem mem_of_mem_ascending (h : w ∈ ascending vs) : w ∈ vs := by
  induction vs using List.reverseRecOn with
  | nil => exact h
  | append_singleton vs v ih =>
    rw [ascending_concat] at h
    obtain rfl | h := mem_of_mem_insertByKey h
    · exact List.mem_append_right vs List.mem_cons_self
    · exact List.mem_append_left _ (ih h)

/-- Each value of a list is equal to one of its distinct values, and they are equal to no others. -/
theorem contains_ascending : (ascending vs).contains w = vs.contains w := by
  induction vs using List.reverseRecOn with
  | nil => rfl
  | append_singleton vs v ih =>
    rw [ascending_concat, contains_insertDistinct, ih, List.contains_append, List.contains_cons,
      List.contains_nil, Bool.or_false, Bool.or_comm]

/-- No value of an ascending list is equal to another. -/
theorem Ascends.pairwise_ne (h : Ascends vs) : vs.Pairwise fun v w => (v == w) = false := by
  refine h.imp fun {v w} hlt => ?_
  rw [← Bool.not_eq_true, beq_iff_cmp, hlt]
  exact Ordering.noConfusion

end Value

end Tabula
