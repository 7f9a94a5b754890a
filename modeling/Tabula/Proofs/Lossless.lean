import Tabula.Proofs.Equality
import Tabula.Proofs.Reachable

/-!
# Values in series

A series is built through views of its values, and a view makes nothing of a value of another type,
or something else: that of a floating-point number also takes integers. Values are therefore looked
at first, and what passes is kept as it is. So a series is as good as the list of its values, and a
column can be built again from what is read out of it.

* `Value.OtherType` — what a series of a type refuses.
* `Series.ofValues_eq_error_iff` — the first such value is reported.
* `Series.Stores`, `Series.ofValues_eq_ok_iff_stores` — what a series that was built holds.
* `Column.built_and_rebuilt` — both, for series and columns, and the columns that are built again.
-/

namespace Tabula

variable {t : ColumnType} {v : Value} {vs : List Value} {name : String}

/-- The value is there, and is of another type. -/
def Value.OtherType (t : ColumnType) (v : Value) : Prop :=
  ∃ u, v.columnType? = some u ∧ u ≠ t

theorem Value.otherType_iff : v.OtherType t ↔ (!t.accepts v) = true := by
  rw [Bool.not_eq_true', ← Bool.not_eq_true, accepts_iff]
  cases v <;> simp [OtherType, Value.isNull, Value.columnType?]

theorem Value.isNull_ofOption {α : Type} {f : α → Value} (hf : ∀ a, (f a).isNull = false)
    (o : Option α) : (Value.ofOption f o).isNull = o.isNone := by
  cases o with
  | none => rfl
  | some a => exact hf a

namespace Series

variable {s : Series} {e : Error}

/-- A series has an empty cell for every value that is nothing. -/
theorem nullCount_eq_countP (h : s.values t = .ok vs) : s.nullCount = vs.countP Value.isNull := by
  rw [values_eq_ok_iff] at h
  rw [nullCount]
  -- cells of each type are empty where their values are nothing
  cases t <;> obtain ⟨cs, hc, rfl⟩ := h
  all_goals
    rw [hc, Cells.nullCount, List.countP_map]
    exact List.countP_congr fun o _ => by
      rw [Function.comp_apply, Value.isNull_ofOption fun a => rfl]

/-- Values are refused for the first of them that is of another type. -/
theorem ofValues_eq_error_iff : ofValues name t vs = .error e ↔
    ∃ v u, FirstWith (Value.OtherType t) vs v ∧ v.columnType? = some u ∧
      e = .typeMismatch name t u.label := by
  have hfind : ∀ v, vs.find? (fun v => !t.accepts v) = some v ↔
      FirstWith (Value.OtherType t) vs v := by
    intro v
    rw [find?_eq_some_iff_firstWith]
    simp only [← Value.otherType_iff]
  simp only [← hfind]
  unfold ofValues
  cases hbad : vs.find? fun v => !t.accepts v with
  | none => simp
  | some v =>
    obtain ⟨u, hu, -⟩ := ((hfind v).1 hbad).holds
    simp [Value.typeName, hu, eq_comm]

/-- The series is stored as the type asks for, has the name, and holds the values. -/
structure Stores (s : Series) (name : String) (t : ColumnType) (vs : List Value) : Prop where
  name_eq : s.name = name
  dtype_eq : s.dtype = t.dtype
  length_eq : s.length = vs.length
  nullCount_eq : s.nullCount = vs.countP Value.isNull
  values_eq : s.values t = .ok vs

theorem ofValues_eq_ok_iff_stores : ofValues name t vs = .ok s ↔ s.Stores name t vs := by
  rw [ofValues_eq_ok_iff]
  constructor
  · rintro ⟨-, hname, hvalues⟩
    obtain ⟨hdtype, hlength, -⟩ := values_spec hvalues
    exact ⟨hname, hdtype, hlength.symm, nullCount_eq_countP hvalues, hvalues⟩
  · intro h
    exact ⟨(values_spec h.values_eq).2.2, h.name_eq, h.values_eq⟩

end Series

namespace Column

variable {c : Column}

/-- A canonical column is built again from its values. -/
theorem Canonical.ofValues_values (h : c.Canonical) (hvs : c.values = .ok vs) :
    ofValues c.name c.type vs = .ok c :=
  ofValues_eq_ok_iff.2 ⟨(Series.values_spec hvs).2.2, h, rfl, rfl, hvs⟩

/-- A series, and with it a column, is built from every list of values but those with a value of
another type, of which the first is reported. It has the name, the canonical storage type, and as
many cells and empty cells as the list has values and nothings, and gives back exactly the list.
Every column that comes about is built again, identical and equal to it, from its values. -/
theorem built_and_rebuilt :
    (∀ (name : String) (t : ColumnType) (vs : List Value),
      ((∃ e, Series.ofValues name t vs = .error e) ↔ ∃ v ∈ vs, v.OtherType t) ∧
      (∀ e, Series.ofValues name t vs = .error e ↔
        ∃ v u, FirstWith (Value.OtherType t) vs v ∧ v.columnType? = some u ∧
          e = .typeMismatch name t u.label) ∧
      (∀ s, Series.ofValues name t vs = .ok s → s.Stores name t vs) ∧
      Column.ofValues name t vs = (Series.ofValues name t vs).map fun s => ⟨name, t, s⟩) ∧
    ∀ c : Column, Reachable (.column c) → ∃ vs, c.values = .ok vs ∧
      ∃ d, Column.ofValues c.name c.type vs = .ok d ∧ d = c ∧ (d == c) = true := by
  constructor
  · intro name t vs
    refine ⟨⟨?_, ?_⟩, fun e => Series.ofValues_eq_error_iff,
      fun s => Series.ofValues_eq_ok_iff_stores.1, ?_⟩
    · rintro ⟨e, he⟩
      obtain ⟨v, -, hv, -⟩ := Series.ofValues_eq_error_iff.1 he
      exact exists_firstWith_iff.1 ⟨v, hv⟩
    · intro h
      obtain ⟨v, hv⟩ := exists_firstWith_iff.2 h
      obtain ⟨u, hu, -⟩ := hv.holds
      exact ⟨_, Series.ofValues_eq_error_iff.2 ⟨v, u, hv, hu, rfl⟩⟩
    · rw [ofValues]
      cases Series.ofValues name t vs with
      | error e => rfl
      | ok s => rfl
  · intro c hc
    have hcanonical : c.Canonical := hc.sound
    obtain ⟨vs, hvs, -⟩ := hcanonical.exists_values
    exact ⟨vs, hvs, c, hcanonical.ofValues_values hvs, rfl, hcanonical.beq_self⟩

/-- The negative zero, nothing and a not-a-number are kept, and an integer among floating-point
numbers is reported although their view takes it. -/
theorem built_and_rebuilt_zeros :
    (∃ s, Series.ofValues "x" .float [.float (.ofParts true 0), .null, .float .nan] = .ok s ∧
      s.Stores "x" .float [.float (.ofParts true 0), .null, .float .nan]) ∧
    Series.ofValues "x" .float [.null, .integer 1, .string "a"] =
      .error (.typeMismatch "x" .float "integer") ∧
    ∃ c, Reachable (.column c) ∧ c.values = .ok [.float (.ofParts true 0), .null, .float .nan] ∧
      Column.ofValues c.name c.type [.float (.ofParts true 0), .null, .float .nan] = .ok c := by
  obtain ⟨hbuilt, hrebuilt⟩ := built_and_rebuilt
  obtain ⟨-, -, hstores, hcolumn⟩ :=
    hbuilt "x" .float [.float (.ofParts true 0), .null, .float .nan]
  obtain ⟨s, hs⟩ : ∃ s, Series.ofValues "x" .float
      [.float (.ofParts true 0), .null, .float .nan] = .ok s := ⟨_, rfl⟩
  have hreachable : Reachable (.column ⟨"x", .float, s⟩) :=
    .ofValues (hcolumn.trans (by rw [hs]; rfl))
  have hvalues := (hstores s hs).values_eq
  obtain ⟨vs, hvs, d, hd, rfl, -⟩ := hrebuilt _ hreachable
  refine ⟨⟨s, hs, hstores s hs⟩, ?_, ⟨"x", .float, s⟩, hreachable, hvalues, ?_⟩
  · refine ((hbuilt _ _ _).2.1 _).2 ⟨.integer 1, .integer, ⟨⟨_, rfl, by decide⟩, ?_⟩, rfl, rfl⟩
    exact ⟨[.null], [.string "a"], rfl, by simp [Value.OtherType, Value.columnType?]⟩
  · obtain rfl : vs = _ := Except.ok.inj (hvs.symm.trans hvalues)
    exact hd

end Column

end Tabula
