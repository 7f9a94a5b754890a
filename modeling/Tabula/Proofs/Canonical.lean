import Tabula.Column
import Tabula.Proofs.Outcome

/-!
# Canonical storage

The values of a column type have one storage type, and a series in it is nothing but the list of its
values.

* `Series.normalize_eq_ok_iff`, `Series.normalize_spec` — a series is brought into canonical storage
  under its name and with its length; `Series.normalize_error_cases` — or it is refused.
* `Series.exists_values_iff` — a series can be read at a type exactly if it is stored canonically.
* `Series.ofValues_eq_ok_iff` — a series is built exactly from values that the type accepts, and
  gives them back as they are.
* `Series.value_eq_ok` — a single cell reads like the list of all of them.
* `Column.Canonical` — a column whose series has its name and is stored as its type asks for.
-/

namespace Tabula

/-! ### Cells and values -/

/-- The values of cells determine the cells, if what they hold can be told apart. -/
theorem map_ofOption_injective {α : Type} {f : α → Value} (hf : Function.Injective f)
    (hn : ∀ a, f a ≠ .null) : Function.Injective (List.map (Value.ofOption f)) := by
  refine List.map_injective_iff.2 ?_
  -- a missing value is told from the others, and these from each other
  intro o p h
  cases o with
  | none =>
    cases p with
    | none => rfl
    | some b => exact absurd h.symm (hn b)
  | some a =>
    cases p with
    | none => exact absurd h (hn a)
    | some b => exact congrArg some (hf h)

/-- A type accepts its own values and the null that stands for a missing one. -/
theorem accepts_ofOption {α : Type} {f : α → Value} {t : ColumnType}
    (hf : ∀ a, (f a).columnType? = some t) (o : Option α) :
    t.accepts (Value.ofOption f o) = true := by
  cases o with
  | none => rfl
  | some a => simp [Value.ofOption, ColumnType.accepts, hf a]

/-- A type accepts null and its own values, and nothing else. -/
theorem accepts_iff {t : ColumnType} {v : Value} :
    t.accepts v = true ↔ v.isNull = true ∨ v.columnType? = some t := by
  cases v <;> simp [ColumnType.accepts, Value.columnType?, Value.isNull, eq_comm]

/-- A word of 64 bits with a sign stays the integer that it is. -/
theorem IntWidth.toInt64?_i64 (n : Int64) : IntWidth.i64.toInt64? n = some n :=
  Integer64.ofInt?_eq_some_iff.2 rfl

namespace Series

variable {s u : Series} {t : ColumnType} {vs : List Value} {name : String}

/-! ### Normalization -/

/-- Cells keep their number in canonical storage, and get the storage type of the column type that
they are accepted as. -/
theorem normalize?_spec {cells normal : Cells} (h : cells.normalize? = some normal)
    (ht : cells.dtype.columnType? = some t) :
    normal.dtype = t.dtype ∧ normal.length = cells.length := by
  cases cells with
  | ints w cs =>
    obtain ⟨ds, hd, rfl⟩ := Option.map_eq_some_iff.1 h
    cases ht
    exact ⟨rfl, (mapM_eq_some_iff.1 hd).length_eq.symm⟩
  | nulls n =>
    -- what has no type of its own is stored as texts
    cases h
    cases ht
    exact ⟨rfl, List.length_replicate⟩
  | foreign n k => cases h
  | _ =>
    cases h
    cases ht
    exact ⟨rfl, by simp [Cells.length]⟩

/-- Cells in canonical storage are left as they are. -/
theorem normalize?_of_dtype_eq {cells : Cells} (h : cells.dtype = t.dtype) :
    cells.normalize? = some cells := by
  -- the storage of a type is one of four, and the widest for integers
  cases cells with
  | ints w cs =>
    obtain rfl : w = .i64 := by
      cases t <;> cases h
      rfl
    refine Option.map_eq_some_iff.2
      ⟨cs, mapM_eq_some_iff.2 (List.forall₂_same.2 fun c _ => ?_), rfl⟩
    cases c with
    | none => rfl
    | some n => exact congrArg (Option.map some) (IntWidth.toInt64?_i64 n)
  | floats64 cs => rfl
  | booleans cs => rfl
  | strings cs => rfl
  | _ => cases t <;> cases h

/-- A series whose type is accepted is normalized exactly if its cells are. It makes no difference
that a series in canonical storage is not looked at. -/
theorem normalize_eq_ok_iff : s.normalize = .ok (u, t) ↔
    s.dtype.columnType? = some t ∧
      ∃ cells, s.cells.normalize? = some cells ∧ u = ⟨s.name, cells⟩ := by
  rw [normalize]
  cases s.dtype.columnType? with
  | none => simp
  | some t' =>
    dsimp only
    -- in canonical storage the series is returned, otherwise its cells are converted
    split
    · next hd =>
      rw [normalize?_of_dtype_eq hd]
      constructor
      · intro h
        obtain ⟨rfl, rfl⟩ := Prod.mk.inj (Except.ok.inj h)
        exact ⟨rfl, _, rfl, rfl⟩
      · rintro ⟨ht, _, hc, rfl⟩
        cases ht
        cases hc
        rfl
    · cases s.cells.normalize? with
      | none => simp [Error.within, Except.mapError]
      | some cells => simp [eq_comm, and_comm]

/-- A series is normalized under its name and with its length, to the canonical storage of the type
that it is accepted as. -/
theorem normalize_spec (h : s.normalize = .ok (u, t)) :
    u.name = s.name ∧ u.dtype = t.dtype ∧ u.length = s.length := by
  obtain ⟨ht, cells, hc, rfl⟩ := normalize_eq_ok_iff.1 h
  exact ⟨rfl, normalize?_spec hc ht⟩

/-- A series is refused for its storage type, or for a cell that does not fit. -/
theorem normalize_error_cases {cause : Error} (h : s.normalize = .error cause) :
    s.dtype.columnType? = none ∧ cause = .unsupportedType s.name s.dtype.label ∨
      ∃ text inner, cause = .context text (.engine inner) := by
  rw [normalize] at h
  split at h
  · next ht => exact .inl ⟨ht, (Except.error.inj h).symm⟩
  · split at h
    · cases h
    · split at h
      · cases h
      · exact .inr ⟨_, _, (Except.error.inj h).symm⟩

/-- A series in canonical storage is left as it is. -/
theorem normalize_of_dtype_eq (h : s.dtype = t.dtype) : s.normalize = .ok (s, t) := by
  have ht : s.dtype.columnType? = some t := by
    rw [h]
    cases t <;> rfl
  exact normalize_eq_ok_iff.2 ⟨ht, s.cells, normalize?_of_dtype_eq h, rfl⟩

/-! ### Reading values -/

/-- A series in canonical storage holds cells of one kind of content, and its values are those. -/
theorem values_eq_ok_iff : s.values t = .ok vs ↔
    match t with
    | .integer => ∃ cs, s.cells = .ints .i64 cs ∧ cs.map (Value.ofOption .integer) = vs
    | .float => ∃ cs, s.cells = .floats64 cs ∧ cs.map (Value.ofOption .float) = vs
    | .string => ∃ cs, s.cells = .strings cs ∧ cs.map (Value.ofOption .string) = vs
    | .boolean => ∃ cs, s.cells = .booleans cs ∧ cs.map (Value.ofOption .boolean) = vs := by
  obtain ⟨n, cells⟩ := s
  cases t
  case integer =>
    -- of the eight widths of integers only one is canonical
    cases cells with
    | ints w cs => cases w <;> simp [values]
    | _ => simp [values]
  all_goals cases cells <;> simp [values]

/-- A series can be read at a type exactly if it is in the canonical storage of the type. -/
theorem exists_values_iff : (∃ vs, s.values t = .ok vs) ↔ s.dtype = t.dtype := by
  obtain ⟨n, cells⟩ := s
  cases t
  case integer =>
    cases cells with
    | ints w cs => cases w <;> simp [values, dtype, Cells.dtype, ColumnType.dtype]
    | _ => simp [values, dtype, Cells.dtype, ColumnType.dtype]
  all_goals cases cells <;> simp [values, dtype, Cells.dtype, ColumnType.dtype]

/-- A series that can be read at a type is in its storage, has a value for each cell, and all of
them are accepted by the type. -/
theorem values_spec (h : s.values t = .ok vs) :
    s.dtype = t.dtype ∧ vs.length = s.length ∧ ∀ v ∈ vs, t.accepts v = true := by
  refine ⟨exists_values_iff.1 ⟨vs, h⟩, ?_⟩
  -- at whatever type, the values are made of the cells one by one
  rw [values_eq_ok_iff] at h
  cases t <;> obtain ⟨cs, hc, rfl⟩ := h
  all_goals
    refine ⟨by rw [List.length_map, length, hc]; rfl, ?_⟩
    intro v hv
    obtain ⟨o, -, rfl⟩ := List.mem_map.1 hv
    exact accepts_ofOption (fun _ => rfl) o

/-- A series is its name and its values. -/
theorem ext_values (hn : s.name = u.name) (hs : s.values t = .ok vs) (hu : u.values t = .ok vs) :
    s = u := by
  obtain ⟨n, cells⟩ := s
  obtain ⟨m, cells'⟩ := u
  obtain rfl : n = m := hn
  rw [values_eq_ok_iff] at hs hu
  cases t <;> obtain ⟨cs, rfl, hs⟩ := hs <;> obtain ⟨ds, rfl, hu⟩ := hu
  all_goals
    -- different cells would have different values
    have hcd : cs = ds :=
      map_ofOption_injective (fun a b e => by cases e; rfl) (by simp) (hs.trans hu.symm)
    rw [hcd]

/-- A single cell reads like the list of all of them. -/
theorem value_eq_ok (h : s.values t = .ok vs) {i : Nat} {v : Value} (hv : vs[i]? = some v) :
    s.value i = .ok v := by
  obtain ⟨n, cells⟩ := s
  rw [values_eq_ok_iff] at h
  cases t <;> obtain ⟨cs, rfl, rfl⟩ := h
  all_goals
    rw [List.getElem?_map, Option.map_eq_some_iff] at hv
    obtain ⟨o, ho, rfl⟩ := hv
    rw [value, Cells.scalar?, ho, Option.map_some]
  case integer =>
    cases o with
    | none => rfl
    | some k =>
      simp [Cells.scalarOf, Scalar.toValue, Value.ofOption, IntWidth.toInt64?_i64]
  all_goals cases o <;> rfl

/-! ### Building from values -/

/-- The view of a type keeps the content of what the type accepts: nothing is converted or lost. -/
theorem map_ofOption_view {α : Type} {f : α → Value} {view : Value → Option α}
    (hview : ∀ v, t.accepts v = true → Value.ofOption f (view v) = v)
    (h : ∀ v ∈ vs, t.accepts v = true) : (vs.map view).map (Value.ofOption f) = vs := by
  rw [List.map_map]
  exact (List.map_congr_left fun v hv => hview v (h v hv)).trans (List.map_id vs)

/-- A series can be built from values that the type accepts, and gives them back as they are. -/
theorem exists_ofValues (name : String) (h : ∀ v ∈ vs, t.accepts v = true) :
    ∃ s, ofValues name t vs = .ok s ∧ s.name = name ∧ s.values t = .ok vs := by
  have hf : vs.find? (fun v => !t.accepts v) = none := by simpa using h
  unfold ofValues
  rw [hf]
  refine ⟨_, rfl, rfl, values_eq_ok_iff.2 ?_⟩
  cases t
  -- a value that the type accepts is empty or has the content that the view takes out of it
  all_goals
    refine ⟨_, rfl, map_ofOption_view (fun v hv => ?_) h⟩
    cases v <;> first | rfl | cases hv

/-- A series is built exactly from values that the type accepts, and is the one with the name and
these values. -/
theorem ofValues_eq_ok_iff : ofValues name t vs = .ok s ↔
    (∀ v ∈ vs, t.accepts v = true) ∧ s.name = name ∧ s.values t = .ok vs := by
  refine ⟨?_, ?_⟩
  · intro h
    -- building only goes on if no value was found that the type refuses
    have ha : ∀ v ∈ vs, t.accepts v = true := by
      unfold ofValues at h
      split at h
      · cases h
      · next hf => simpa using hf
    obtain ⟨u, hu, hn, hv⟩ := exists_ofValues name ha
    obtain rfl : u = s := Except.ok.inj (hu.symm.trans h)
    exact ⟨ha, hn, hv⟩
  · rintro ⟨ha, rfl, hs⟩
    obtain ⟨u, hu, hn, hv⟩ := exists_ofValues s.name ha
    rwa [ext_values hn hv hs] at hu

end Series

/-! ### Columns -/

/-- The series of a column has its name and is stored as its type asks for. -/
structure Column.Canonical (c : Column) : Prop where
  name_eq : c.series.name = c.name
  dtype_eq : c.series.dtype = c.type.dtype

namespace Column

variable {c d : Column} {name : String} {type : ColumnType} {vs : List Value}

/-- A column is made of a series in canonical storage under its name. -/
theorem canonical_of_ofSeries {s : Series} (h : ofSeries name s = .ok c) : c.Canonical := by
  obtain ⟨⟨u, t⟩, hu, hc⟩ := bind_eq_ok_iff.1 h
  obtain rfl : (⟨name, t, u⟩ : Column) = c := Except.ok.inj hc
  have hs := Series.normalize_spec hu
  exact ⟨hs.1, hs.2.1⟩

/-- A cell of a column reads like the list of all its values. -/
theorem value_eq_ok_iff (h : c.values = .ok vs) {k : Nat} {v : Value} :
    c.value k = .ok v ↔ vs[k]? = some v := by
  have hlen : vs.length = c.length := (Series.values_spec h).2.1
  rw [value, checkedIndex]
  -- the index is in range exactly if there is a value
  by_cases hk : k < vs.length
  · have hb : 0 ≤ (k : Int) ∧ (k : Int) < c.length := by omega
    have hget : vs[k]? = some vs[k] := List.getElem?_eq_getElem hk
    rw [if_pos hb, ok_bind, Int.toNat_natCast, Series.value_eq_ok h hget, hget, Except.ok.injEq,
      Option.some.injEq]
  · have hb : ¬(0 ≤ (k : Int) ∧ (k : Int) < c.length) := by omega
    rw [if_neg hb, error_bind, List.getElem?_eq_none (by omega)]
    simp

namespace Canonical

/-- A column in canonical storage can be read. -/
theorem exists_values (h : c.Canonical) :
    ∃ vs, c.values = .ok vs ∧ vs.length = c.length ∧ ∀ v ∈ vs, c.type.accepts v = true := by
  obtain ⟨vs, hvs⟩ := Series.exists_values_iff.2 h.dtype_eq
  exact ⟨vs, hvs, (Series.values_spec hvs).2⟩

/-- Canonical columns are their name, type and values. -/
theorem ext_values (hc : c.Canonical) (hd : d.Canonical) (hn : c.name = d.name)
    (ht : c.type = d.type) (hvs : c.values = .ok vs) (hws : d.values = .ok vs) : c = d := by
  have hs : c.series = d.series :=
    Series.ext_values (hc.name_eq.trans (hn.trans hd.name_eq.symm)) hvs (ht ▸ hws)
  obtain ⟨n, t, s⟩ := c
  cases hn
  cases ht
  cases hs
  rfl

end Canonical

/-- A column is built exactly from values that its type accepts, and is the canonical one with the
name, the type and these values. -/
theorem ofValues_eq_ok_iff : ofValues name type vs = .ok c ↔
    (∀ v ∈ vs, type.accepts v = true) ∧
      c.Canonical ∧ c.name = name ∧ c.type = type ∧ c.values = .ok vs := by
  refine ⟨?_, ?_⟩
  · intro h
    obtain ⟨s, hs, hc⟩ := bind_eq_ok_iff.1 h
    obtain rfl : (⟨name, type, s⟩ : Column) = c := Except.ok.inj hc
    obtain ⟨ha, hn, hvs⟩ := Series.ofValues_eq_ok_iff.1 hs
    exact ⟨ha, ⟨hn, (Series.values_spec hvs).1⟩, rfl, rfl, hvs⟩
  · rintro ⟨ha, hc, rfl, rfl, hvs⟩
    exact bind_eq_ok_iff.2 ⟨_, Series.ofValues_eq_ok_iff.2 ⟨ha, hc.name_eq, hvs⟩, rfl⟩

/-- A column of mapped values is canonical, and has one value for each that was mapped. -/
theorem ofValues_mapM_eq_ok_iff {f : Value → Except Error Value} :
    (vs.mapM f >>= fun ws => ofValues name type ws) = .ok c ↔
      c.Canonical ∧ c.name = name ∧ c.type = type ∧
        ∃ ws, c.values = .ok ws ∧ List.Forall₂ (fun v w => f v = .ok w) vs ws := by
  rw [bind_eq_ok_iff]
  constructor
  · rintro ⟨ws, hws, h⟩
    obtain ⟨-, hc, hn, ht, hcv⟩ := ofValues_eq_ok_iff.1 h
    exact ⟨hc, hn, ht, ws, hcv, mapM_eq_ok_iff.1 hws⟩
  · rintro ⟨hc, hn, rfl, ws, hcv, hws⟩
    have haccepts := (Series.values_spec hcv).2.2
    exact ⟨ws, mapM_eq_ok_iff.2 hws, ofValues_eq_ok_iff.2 ⟨haccepts, hc, hn, rfl, hcv⟩⟩

/-- Values can be mapped to a column if each of them can, to a value that the type accepts. -/
theorem exists_ofValues_mapM {f : Value → Except Error Value}
    (h : ∀ v ∈ vs, ∃ w, f v = .ok w ∧ type.accepts w = true) :
    ∃ c, (vs.mapM f >>= fun ws => ofValues name type ws) = .ok c := by
  have hf : ∀ v ∈ vs, ∃ w, f v = .ok w := fun v hv => (h v hv).imp fun w hw => hw.1
  obtain ⟨ws, hws⟩ := exists_mapM_eq_ok hf
  -- every result is one the type accepts, so the column can be built
  have hacc : ∀ w ∈ ws, type.accepts w = true := by
    intro w hw
    obtain ⟨v, hv, hvw⟩ := forall₂_exists_left (mapM_eq_ok_iff.1 hws) hw
    obtain ⟨w', hw', ha⟩ := h v hv
    obtain rfl : w' = w := Except.ok.inj (hw'.symm.trans hvw)
    exact ha
  obtain ⟨s, hs, -⟩ := Series.exists_ofValues name hacc
  refine ⟨⟨name, type, s⟩, ?_⟩
  rw [hws, ok_bind, ofValues, hs]
  rfl

end Column

end Tabula
