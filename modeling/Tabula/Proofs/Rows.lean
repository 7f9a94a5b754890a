import Tabula.Options
import Tabula.Proofs.Rebuilding
import Tabula.Text.Utf8

/-!
# Rows that are written

A file is written row by row and read column by column. Whatever its format is, what is written are
the rows of a table, which have one value of each column, and what is read begins with as many of
them as the options say.

* `Table.Holds.conforms`, `Table.Holds.forall₂_getElem?` — what the rows of a table hold.
* `exists_scanned_cons` — the first row is scanned whatever the options are.
* `Utf8.strict?_toUTF8` — the characters of a text are read from its bytes.
-/

namespace Tabula

/-! ### What is read of texts -/

/-- The characters of a text are read from its bytes. -/
theorem Utf8.strict?_toUTF8 (cs : List Char) :
    Utf8.strict? (String.ofList cs).toUTF8 = some cs := by
  have hvalid : (String.ofList cs).toUTF8.IsValidUTF8 := (String.ofList cs).isValidUTF8
  rw [Utf8.strict?, String.fromUTF8?, dif_pos hvalid]
  exact congrArg some String.toList_ofList

/-- The first items of a list, as many as are scanned. -/
def scanned {α : Type} (o : Options) (as : List α) : List α :=
  match o.scanLength with
  | some k => as.take k.toNat
  | none => as

/-- Valid options have at least one item scanned. -/
theorem exists_scanned_cons {α : Type} (ho : o.check = .ok ()) (a : α) (as : List α) :
    ∃ bs, scanned o (a :: as) = a :: bs ∧ bs ⊆ as := by
  rw [scanned]
  cases hscan : o.scanLength with
  | none => exact ⟨as, rfl, List.Subset.refl as⟩
  | some k =>
    have hk : k ≠ 0 := by
      rintro rfl
      rw [Options.check, hscan] at ho
      split at ho
      · cases ho
      · cases ho
    obtain ⟨n, hn⟩ : ∃ n, k.toNat = n + 1 :=
      Nat.exists_eq_succ_of_ne_zero fun hzero => hk (UInt64.toNat_inj.1 hzero)
    refine ⟨as.take n, ?_, List.take_subset n as⟩
    show (a :: as).take k.toNat = _
    rw [hn, List.take_succ_cons]

/-! ### What is written -/

/-- One value for each column, of its type. -/
abbrev Conforms (columns : List (String × ColumnType)) (vs : List Value) : Prop :=
  List.Forall₂ (fun c v => c.2.accepts v = true) columns vs

namespace Table.Holds

variable {t : Table} {n i : Nat} {cs : List Column} {c : Column} {vs : List Value} {rs : List Row}
  {r : Row}

/-- All rows together are those that are read by their indices. -/
theorem exists_row_of_mem (h : t.Holds n cs) (hrs : t.toRows = .ok rs) (hr : r ∈ rs) :
    ∃ k : Nat, t.row k = .ok r := by
  obtain ⟨k, hk⟩ := List.mem_iff_getElem?.1 hr
  exact ⟨k, ((h.getElem?_toRows hrs).1 hk).2⟩

theorem lt_of_row (h : t.Holds n cs) {k : Nat} (hrow : t.row k = .ok r) : k < n := by
  obtain ⟨i, hi, -⟩ := bind_eq_ok_iff.1 hrow
  obtain ⟨hki, hlt⟩ := checkedIndex_eq_ok_iff.1 hi
  rw [Int.natCast_inj.1 hki, ← h.rowCount_eq]
  exact hlt

/-- Every row of a table has one value for each column, of its type. -/
theorem conforms_of_row (h : t.Holds n cs) {k : Nat} (hrow : t.row k = .ok r) :
    Conforms t.schema.columns r.values := by
  have hk := h.lt_of_row hrow
  obtain ⟨vs, hvs, hcells⟩ := h.exists_row hk
  obtain rfl : (⟨t.schema, vs⟩ : Row) = r := Except.ok.inj (hvs.symm.trans hrow)
  rw [h.columns_eq, Conforms, List.forall₂_map_left_iff]
  refine forall₂_imp_of_mem hcells fun c hc v hv => ?_
  -- the cell is one of the values of its column, all of which its type accepts
  obtain ⟨ws, hws, -, haccepts⟩ := (h.canonical c hc).exists_values
  obtain ⟨w, hw, hget⟩ := h.exists_cell hc hk
  obtain rfl := Except.ok.inj (hw.symm.trans hv)
  exact haccepts w (List.mem_of_getElem? (hget ws hws))

theorem conforms (h : t.Holds n cs) (hrs : t.toRows = .ok rs) (hr : r ∈ rs) :
    Conforms t.schema.columns r.values := by
  obtain ⟨k, hrow⟩ := h.exists_row_of_mem hrs hr
  exact h.conforms_of_row hrow

/-- At the position of a column the rows have its values. -/
theorem forall₂_getElem? (h : t.Holds n cs) (hrs : t.toRows = .ok rs) (hc : cs[i]? = some c)
    (hvs : c.values = .ok vs) : List.Forall₂ (fun r v => r.values[i]? = some v) rs vs :=
  (mapM_eq_ok_iff.1 (h.valuesAt_toRows hrs hc hvs)).imp fun _ _ hv => elementAt_eq_ok_iff.1 hv

/-- The first of the rows is the one with the index zero. -/
theorem exists_toRows_cons (h : t.Holds n cs) (hn : 0 < n) :
    ∃ r rs, t.toRows = .ok (r :: rs) ∧ t.row 0 = .ok r := by
  obtain ⟨rs, hrs⟩ := h.exists_toRows
  have hlength := h.length_toRows hrs
  cases rs with
  | nil => exact absurd hlength hn.ne
  | cons r rs => exact ⟨r, rs, hrs, ((h.getElem?_toRows hrs).1 List.getElem?_cons_zero).2⟩

end Table.Holds

end Tabula
