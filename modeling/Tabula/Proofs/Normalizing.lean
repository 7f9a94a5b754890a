import Tabula.Proofs.Reachable

/-!
# Integers in canonical storage

Integers come in eight widths and are stored in one. They get there in two ways that are written
apart from each other: all cells of a series at once, when it is normalized, or one cell at a time,
when the value of an element is read. The first way refuses what 64 bits with a sign cannot hold;
the second way makes a floating-point number of it. Below that limit they do the same, which is
nothing: no integer changes. Only words of 64 bits without a sign reach beyond it.

* `IntWidth.toInt64?_eq_some_iff` — the word of 64 bits for an integer stands for the integer.
* `Series.normalize_ints_eq_ok_iff` — a series of integers is normalized to the same integers.
* `Series.SameIntegers` — what does not change.
* `Series.normalize_keeps_integers` — when integers are accepted, and that they stay what they are;
  and that what is accepted is accepted again as it is, be it a series or the series of a column.
-/

namespace Tabula

/-! ### Integers of any width -/

namespace IntWidth

variable {w : IntWidth} {n : w.Word}

theorem toInt64?_eq_some_iff {m : Int64} : w.toInt64? n = some m ↔ m.toInt = w.toInt n :=
  Integer64.ofInt?_eq_some_iff

/-- There is one if the integer is in its range. -/
theorem exists_toInt64?_iff :
    (∃ m, w.toInt64? n = some m) ↔ -2 ^ 63 ≤ w.toInt n ∧ w.toInt n < 2 ^ 63 := by
  simp only [toInt64?_eq_some_iff]
  constructor
  · rintro ⟨m, hm⟩
    rw [← hm]
    exact ⟨m.le_toInt, m.toInt_lt⟩
  · rintro ⟨hlow, hhigh⟩
    exact ⟨.ofInt (w.toInt n), Int64.toInt_ofInt_of_le hlow hhigh⟩

/-- The least integer of the width. -/
def least : IntWidth → Int
  | i8 => -2 ^ 7
  | i16 => -2 ^ 15
  | i32 => -2 ^ 31
  | i64 => -2 ^ 63
  | u8 | u16 | u32 | u64 => 0

/-- The first integer above those of the width. -/
def limit : IntWidth → Int
  | i8 => 2 ^ 7
  | i16 => 2 ^ 15
  | i32 => 2 ^ 31
  | i64 => 2 ^ 63
  | u8 => 2 ^ 8
  | u16 => 2 ^ 16
  | u32 => 2 ^ 32
  | u64 => 2 ^ 64

/-- No word stands for less than the least integer of its width. -/
theorem least_le_toInt (w : IntWidth) (n : w.Word) : w.least ≤ w.toInt n := by
  cases w with
  | i8 => exact Int8.le_toInt n
  | i16 => exact Int16.le_toInt n
  | i32 => exact Int32.le_toInt n
  | i64 => exact Int64.le_toInt n
  | _ => exact Int.natCast_nonneg _

/-- No word reaches the limit of its width. -/
theorem toInt_lt_limit (w : IntWidth) (n : w.Word) : w.toInt n < w.limit := by
  cases w with
  | i8 => exact Int8.toInt_lt n
  | i16 => exact Int16.toInt_lt n
  | i32 => exact Int32.toInt_lt n
  | i64 => exact Int64.toInt_lt n
  | u8 => exact Int.ofNat_lt.2 (UInt8.toNat_lt n)
  | u16 => exact Int.ofNat_lt.2 (UInt16.toNat_lt n)
  | u32 => exact Int.ofNat_lt.2 (UInt32.toNat_lt n)
  | u64 => exact Int.ofNat_lt.2 (UInt64.toNat_lt n)

/-- No width reaches below 64 bits with a sign. -/
theorem neg_two_pow_le_toInt (w : IntWidth) (n : w.Word) : -2 ^ 63 ≤ w.toInt n :=
  calc -2 ^ 63 ≤ w.least := by cases w <;> decide
    _ ≤ w.toInt n := w.least_le_toInt n

/-- Only one width reaches above 64 bits with a sign. -/
theorem toInt_lt_two_pow (h : w ≠ .u64) (n : w.Word) : w.toInt n < 2 ^ 63 :=
  calc w.toInt n < w.limit := w.toInt_lt_limit n
    _ ≤ 2 ^ 63 := by
      revert h
      cases w <;> decide

end IntWidth

namespace Series

variable {name : String} {w : IntWidth} {cs : List (Option w.Word)} {u : Series} {t : ColumnType}
  {e : Error}

/-! ### Series of integers -/

/-- The cells are the same integers, in the same places, as words of 64 bits with a sign. -/
def Widened {w : IntWidth} (cs : List (Option w.Word)) (ds : List (Option Int64)) : Prop :=
  List.Forall₂ (fun c d => d.map Int64.toInt = c.map w.toInt) cs ds

/-- A cell of 64 bits can be had for a cell exactly if it stands for the same integer. -/
theorem cast_eq_some_iff {c : Option w.Word} {d : Option Int64} :
    (match c with
      | none => some none
      | some n => (w.toInt64? n).map some) = some d ↔ d.map Int64.toInt = c.map w.toInt := by
  -- a null stays one, and an integer needs a word of its own
  cases c with
  | none =>
    rw [Option.some.injEq, Option.map_none, Option.map_eq_none_iff]
    exact eq_comm
  | some n =>
    rw [Option.map_eq_some_iff, Option.map_some, Option.map_eq_some_iff]
    simp only [IntWidth.toInt64?_eq_some_iff]
    exact ⟨fun ⟨m, hm, hd⟩ => ⟨m, hd.symm, hm⟩, fun ⟨m, hd, hm⟩ => ⟨m, hm, hd.symm⟩⟩

/-- Cells of integers are normalized to wide ones that stand for the same. -/
theorem normalize?_ints_eq_some_iff {normal : Cells} :
    (Cells.ints w cs).normalize? = some normal ↔ ∃ ds, normal = .ints .i64 ds ∧ Widened cs ds := by
  rw [Cells.normalize?, Option.map_eq_some_iff]
  constructor
  · rintro ⟨ds, hds, rfl⟩
    exact ⟨ds, rfl, (mapM_eq_some_iff.1 hds).imp fun c d hcd => cast_eq_some_iff.1 hcd⟩
  · rintro ⟨ds, rfl, hds⟩
    exact ⟨ds, mapM_eq_some_iff.2 (hds.imp fun c d hcd => cast_eq_some_iff.2 hcd), rfl⟩

/-- A series of integers is normalized exactly to the same integers under the same name. -/
theorem normalize_ints_eq_ok_iff : normalize ⟨name, .ints w cs⟩ = .ok (u, t) ↔
    t = .integer ∧ ∃ ds, u = ⟨name, .ints .i64 ds⟩ ∧ Widened cs ds := by
  rw [normalize_eq_ok_iff]
  simp only [normalize?_ints_eq_some_iff]
  constructor
  · rintro ⟨ht, _, ⟨ds, rfl, hds⟩, hu⟩
    exact ⟨(Option.some.inj ht).symm, ds, hu, hds⟩
  · rintro ⟨rfl, ds, hu, hds⟩
    exact ⟨rfl, _, ⟨ds, rfl, hds⟩, hu⟩

/-- Integers can be widened if each of them is in the range of 64 bits. -/
theorem exists_widened_iff : (∃ ds, Widened cs ds) ↔
    ∀ n, some n ∈ cs → -2 ^ 63 ≤ w.toInt n ∧ w.toInt n < 2 ^ 63 := by
  simp only [← IntWidth.exists_toInt64?_iff, IntWidth.toInt64?_eq_some_iff]
  constructor
  · rintro ⟨ds, hds⟩ n hn
    obtain ⟨d, -, hd⟩ := forall₂_exists_right hds hn
    obtain ⟨m, rfl, hm⟩ := Option.map_eq_some_iff.1 hd
    exact ⟨m, hm⟩
  · intro h
    -- each cell can be widened by itself
    refine exists_forall₂ fun c hc => ?_
    cases c with
    | none => exact ⟨none, rfl⟩
    | some n =>
      obtain ⟨m, hm⟩ := h n hc
      exact ⟨some m, congrArg some hm⟩

/-- An integer is read as the same value from a series of any width and from the normalized one. -/
theorem value_eq_of_widened {ds : List (Option Int64)} (h : Widened cs ds) (name : String)
    (i : Nat) : value ⟨name, .ints .i64 ds⟩ i = value ⟨name, .ints w cs⟩ i := by
  rw [value, value, Cells.scalar?, Cells.scalar?]
  -- both series end at the same place, and before it both have a cell
  cases hc : cs[i]? with
  | none =>
    have hd : ds[i]? = none := by
      rw [List.getElem?_eq_none_iff, ← h.length_eq]
      exact List.getElem?_eq_none_iff.1 hc
    rw [hd]
    rfl
  | some c =>
    obtain ⟨d, hd, hcd⟩ := exists_getElem?_of_forall₂ h.flip hc
    rw [hd]
    cases c with
    | none =>
      obtain rfl := Option.map_eq_none_iff.1 hcd
      rfl
    | some n =>
      -- both words have the same word of 64 bits, so neither becomes a floating-point number
      obtain ⟨m, rfl, hm⟩ := Option.map_eq_some_iff.1 hcd
      have hw : w.toInt64? n = some m := IntWidth.toInt64?_eq_some_iff.2 hm
      simp only [Option.map_some, Cells.scalarOf, Scalar.toValue, hw, IntWidth.toInt64?_i64]

/-- The series `u` is the series of integers in canonical storage: it has the same name and the same
integers in the same places, and whichever way they are read, they are read as the values that the
elements of the first series are read as. -/
structure SameIntegers (name : String) {w : IntWidth} (cs : List (Option w.Word)) (u : Series) :
    Prop where
  name_eq : u.name = name
  length_eq : u.length = cs.length
  cells_eq : ∃ ds, u.cells = .ints .i64 ds ∧ Widened cs ds
  value_eq : ∀ i, u.value i = value ⟨name, .ints w cs⟩ i
  values_eq : ∃ vs, u.values .integer = .ok vs ∧ vs.length = cs.length ∧
    ∀ (i : Nat) v, vs[i]? = some v → value ⟨name, .ints w cs⟩ i = .ok v

/-- Wider words change nothing that can be read from the series. -/
theorem sameIntegers_of_widened {ds : List (Option Int64)} (h : Widened cs ds) :
    SameIntegers name cs ⟨name, .ints .i64 ds⟩ := by
  have hvalues : values ⟨name, .ints .i64 ds⟩ .integer = .ok (ds.map (Value.ofOption .integer)) :=
    rfl
  refine ⟨rfl, h.length_eq.symm, ⟨ds, rfl, h⟩, value_eq_of_widened h name, ⟨_, hvalues, ?_, ?_⟩⟩
  · rw [List.length_map, h.length_eq]
  · intro i v hv
    rw [← value_eq_of_widened h name i]
    exact value_eq_ok hvalues hv

/-- What is refused of a series of integers is a cell, and by the storage. -/
theorem code_of_normalize_ints (h : normalize ⟨name, .ints w cs⟩ = .error e) :
    e.code = "POLARS_ERROR" := by
  obtain ⟨htype, -⟩ | ⟨text, inner, rfl⟩ := normalize_error_cases h
  · cases htype
  · rfl

end Series

/-- The series of a column makes the column again, under any name. -/
theorem Column.Canonical.ofSeries_series {c : Column} (h : c.Canonical) (name : String) :
    Column.ofSeries name c.series = .ok ⟨name, c.type, c.series.rename name⟩ := by
  rw [Column.ofSeries, Series.normalize_of_dtype_eq (s := c.series.rename name) h.dtype_eq]
  rfl

/-- A series of integers can be normalized exactly if 64 bits with a sign can hold them, and they
stay the integers that they are. It is refused for an integer without a sign that is too large, and
for nothing else. Whatever series could be normalized is not changed by normalizing it again, nor is
the series of a column by making a column of it. -/
theorem Series.normalize_keeps_integers (name : String) (w : IntWidth) (cs : List (Option w.Word)) :
    ((∃ p, normalize ⟨name, .ints w cs⟩ = .ok p) ↔
      ∀ n, some n ∈ cs → -2 ^ 63 ≤ w.toInt n ∧ w.toInt n < 2 ^ 63) ∧
    (∀ e, normalize ⟨name, .ints w cs⟩ = .error e →
      e.code = "POLARS_ERROR" ∧ w = .u64 ∧ ∃ n, some n ∈ cs ∧ 2 ^ 63 ≤ w.toInt n) ∧
    (∀ u t, normalize ⟨name, .ints w cs⟩ = .ok (u, t) → t = .integer ∧ SameIntegers name cs u) ∧
    (∀ s u t, normalize s = .ok (u, t) → normalize u = .ok (u, t)) ∧
    ∀ c, Reachable (.column c) → Column.ofSeries c.name c.series = .ok c ∧
      ∀ name, Column.ofSeries name c.series = .ok ⟨name, c.type, c.series.rename name⟩ := by
  have hiff : (∃ p, normalize ⟨name, .ints w cs⟩ = .ok p) ↔
      ∀ n, some n ∈ cs → -2 ^ 63 ≤ w.toInt n ∧ w.toInt n < 2 ^ 63 := by
    rw [← exists_widened_iff]
    constructor
    · rintro ⟨⟨u, t⟩, h⟩
      obtain ⟨-, ds, -, hds⟩ := normalize_ints_eq_ok_iff.1 h
      exact ⟨ds, hds⟩
    · rintro ⟨ds, hds⟩
      exact ⟨_, normalize_ints_eq_ok_iff.2 ⟨rfl, ds, rfl, hds⟩⟩
  refine ⟨hiff, fun e he => ⟨code_of_normalize_ints he, ?_⟩, fun u t hu => ?_, fun s u t hs => ?_,
    fun c hc => ⟨?_, hc.sound.ofSeries_series⟩⟩
  · -- some integer is out of the range, so the width has to reach beyond it, at the upper end
    have hnot : ¬∀ n, some n ∈ cs → -2 ^ 63 ≤ w.toInt n ∧ w.toInt n < 2 ^ 63 := by
      rw [← hiff]
      rintro ⟨p, hp⟩
      cases he.symm.trans hp
    simp only [not_forall, not_and, not_lt] at hnot
    obtain ⟨n, hn, hbeyond⟩ := hnot
    have hlimit := hbeyond (w.neg_two_pow_le_toInt n)
    refine ⟨?_, n, hn, hlimit⟩
    by_contra hw
    exact absurd (IntWidth.toInt_lt_two_pow hw n) (not_lt.2 hlimit)
  · obtain ⟨rfl, ds, rfl, hds⟩ := normalize_ints_eq_ok_iff.1 hu
    exact ⟨rfl, sameIntegers_of_widened hds⟩
  · -- what was normalized is in canonical storage, which is accepted as it is
    exact normalize_of_dtype_eq (normalize_spec hs).2.1
  · have hcan : c.Canonical := hc.sound
    -- the name of its series is the name of the column
    calc Column.ofSeries c.name c.series = .ok ⟨c.name, c.type, c.series.rename c.name⟩ :=
          hcan.ofSeries_series c.name
      _ = .ok ⟨c.name, c.type, c.series.rename c.series.name⟩ := by rw [hcan.name_eq]
      _ = .ok c := rfl

/-- The largest integer that is accepted, and the next one, which is refused. -/
theorem Series.normalize_keeps_integers_limit : ∃ u e,
    normalize ⟨"n", .ints .u64 [some 9223372036854775807, none]⟩ = .ok (u, .integer) ∧
    SameIntegers "n" (w := .u64) [some 9223372036854775807, none] u ∧
    normalize u = .ok (u, .integer) ∧
    normalize ⟨"n", .ints .u64 [none, some 9223372036854775808]⟩ = .error e ∧
    e.code = "POLARS_ERROR" := by
  obtain ⟨hlargest, -, hsame, hagain, -⟩ :=
    normalize_keeps_integers "n" .u64 [some 9223372036854775807, none]
  obtain ⟨hnext, hrefused, -⟩ :=
    normalize_keeps_integers "n" .u64 [none, some 9223372036854775808]
  obtain ⟨⟨u, t⟩, hu⟩ := hlargest.2 fun n hn => by
    obtain rfl : n = 9223372036854775807 := by simpa using hn
    decide
  obtain ⟨rfl, hsame⟩ := hsame u t hu
  cases he : normalize ⟨"n", .ints .u64 [none, some 9223372036854775808]⟩ with
  | ok p =>
    have hfits := hnext.1 ⟨p, he⟩ _ (List.mem_cons_of_mem _ List.mem_cons_self)
    exact absurd hfits (by decide)
  | error e => exact ⟨u, e, hu, hsame, hagain _ _ _ hu, rfl, (hrefused e he).1⟩

end Tabula
