import Tabula.Proofs.Reading

/-!
# Choosing columns

Columns are kept or dropped by their names. All of the names are asked for first; then the table is
gone through in its own order, so that neither the order of the names nor their repetition matters,
and what is kept and what is dropped by the same names are complements. The schema and the frame are
chosen from by separate ways, and a choice of no column by a third; what comes out is always a part
of the columns over the same rows.

* `Row.ChosenFrom`, `Table.ChosenFrom` — a part of the columns, as rows and as a table.
* `Holds.chosenFrom` — what keeping and dropping leave is such a part.
* `Table.ChoosesByName` — the laws of keeping and dropping.
* `Table.keep_drop_complementary` — they hold for every table.
-/

namespace Tabula

variable {t u w : Table} {n : Nat} {cs : List Column} {names : List String}

/-- The row has the cells of another one in the columns whose names pass the test, in their
order. -/
structure Row.ChosenFrom (p : String → Bool) (r q : Row) : Prop where
  pairs_eq : q.pairs = r.pairs.filter fun e => p e.1
  values_eq : q.values = q.pairs.map Prod.snd

namespace Table

/-- The table `u` consists of those columns of `t` whose names pass the test, in their order and
over as many rows, also if no column is left. -/
structure ChosenFrom (p : String → Bool) (t u : Table) : Prop where
  columnNames_eq : u.columnNames = t.columnNames.filter p
  /-- The columns are those of `t`, with their types and cells. -/
  columns : ∃ cs, t.columns = .ok cs ∧ u.columns = .ok (cs.filter fun c => p c.name)
  rowCount_eq : u.rowCount = t.rowCount
  row : ∀ i : Int, 0 ≤ i → i < t.rowCount →
    ∃ r q, t.row i = .ok r ∧ u.row i = .ok q ∧ q.schema = u.schema ∧ r.ChosenFrom p q

namespace Holds

theorem chosenFrom (h : t.Holds n cs) (p : String → Bool)
    (hu : u.Holds n (cs.filter fun c => p c.name)) : t.ChosenFrom p u := by
  refine ⟨?_, ⟨cs, h.columns_eq_ok, hu.columns_eq_ok⟩, ?_, fun i hi hlt => ?_⟩
  · rw [hu.columnNames_eq, h.columnNames_eq, List.filter_map]
    rfl
  · rw [hu.rowCount_eq, h.rowCount_eq]
  · obtain ⟨k, rfl⟩ := Int.eq_ofNat_of_zero_le hi
    have hk : k < n := by
      rw [h.rowCount_eq] at hlt
      omega
    -- the same values fill the rows of both tables
    obtain ⟨cell, hcell⟩ := h.exists_cells hk
    have hcell' : ∀ c ∈ cs.filter (fun c => p c.name), c.value k = .ok (cell c) :=
      fun c hc => hcell c (List.mem_filter.1 hc).1
    refine ⟨_, _, h.row_eq_ok hk hcell, hu.row_eq_ok hk hcell', rfl, ?_, ?_⟩
    · rw [h.pairs_eq, hu.pairs_eq, List.filter_map]
      rfl
    · rw [hu.pairs_eq, List.map_map]
      rfl

/-- Two parts of a table that are chosen by tests with the same outcomes are the same. -/
theorem eq_of_chosen {p q : Column → Bool} (hu : u.Holds n (cs.filter p))
    (hw : w.Holds n (cs.filter q)) (h : ∀ c ∈ cs, p c = q c) : u = w := by
  rw [List.filter_congr h] at hu
  exact hu.unique hw

end Holds

/-! ### The laws -/

/-- Keeping and dropping are projections that complement each other. -/
structure ChoosesByName (t : Table) : Prop where
  /-- Names that no column has are reported, each once and in the order of the first request. -/
  absent : ∀ names, (∃ m ∈ names, m ∉ t.columnNames) →
    ∃ missing, OnceInOrder (fun m => m ∉ t.columnNames) names missing ∧
      t.keep names = .error (.missingColumns missing) ∧
      t.drop names = .error (.missingColumns missing)
  /-- Existing names choose the columns that have them, or the others. -/
  chosen : ∀ names, (∀ m ∈ names, m ∈ t.columnNames) →
    ∃ k d, t.keep names = .ok k ∧ t.drop names = .ok d ∧
      t.ChosenFrom (fun m => m ∈ names) k ∧ t.ChosenFrom (fun m => m ∉ names) d ∧
      t.keep (t.columnNames.filter fun m => m ∉ names) = .ok d
  /-- Of two choices, one within the other, only the narrower one counts. -/
  keep_keep : ∀ names names', (∀ m ∈ names, m ∈ t.columnNames) → (∀ m ∈ names', m ∈ names) →
    ∃ u v, t.keep names = .ok u ∧ u.keep names' = .ok v ∧ t.keep names' = .ok v
  /-- Columns may be dropped in two steps. -/
  drop_drop : ∀ names names', (∀ m ∈ names, m ∈ t.columnNames) →
    (∀ m ∈ names', m ∈ t.columnNames) → names.Disjoint names' →
    ∃ u v, t.drop names = .ok u ∧ u.drop names' = .ok v ∧ t.drop (names ++ names') = .ok v

namespace Holds

theorem keep_rest (h : t.Holds n cs) (hd : u.Holds n (cs.filter fun c => c.name ∉ names)) :
    t.keep (t.columnNames.filter fun m => m ∉ names) = .ok u := by
  have hin : ∀ m ∈ t.columnNames.filter (fun m => m ∉ names), m ∈ t.columnNames :=
    fun m hm => (List.mem_filter.1 hm).1
  obtain ⟨w, hw, hwh⟩ := h.exists_keep hin
  rw [hw, hwh.eq_of_chosen hd]
  intro c hc
  -- all columns are among those of the table, so only the second condition counts
  have hmem : c.name ∈ t.columnNames := h.mem_columnNames_iff.2 ⟨c, hc, rfl⟩
  simp [hmem]

theorem choosesByName (h : t.Holds n cs) : t.ChoosesByName := by
  refine ⟨fun names habsent => ?_, fun names hn => ?_, fun names names' hn hsub => ?_,
    fun names names' hn hn' hdisjoint => ?_⟩
  · have hrequire := Schema.require_of_absent habsent
    exact ⟨_, Schema.onceInOrder_missing, by rw [keep, hrequire, error_bind],
      by rw [drop, hrequire, error_bind]⟩
  · obtain ⟨k, hk, hkh⟩ := h.exists_keep hn
    obtain ⟨d, hd, hdh⟩ := h.exists_drop hn
    exact ⟨k, d, hk, hd, h.chosenFrom _ hkh, h.chosenFrom _ hdh, h.keep_rest hdh⟩
  · obtain ⟨u, hu, huh⟩ := h.exists_keep hn
    have hin : ∀ m ∈ names', m ∈ u.columnNames := by
      intro m hm
      rw [(h.chosenFrom (fun m => m ∈ names) huh).columnNames_eq, List.mem_filter]
      exact ⟨hn m (hsub m hm), decide_eq_true (hsub m hm)⟩
    obtain ⟨v, hv, hvh⟩ := huh.exists_keep hin
    obtain ⟨w, hw, hwh⟩ := h.exists_keep fun m hm => hn m (hsub m hm)
    rw [List.filter_filter] at hvh
    refine ⟨u, v, hu, hv, ?_⟩
    rw [hw, hwh.eq_of_chosen hvh]
    intro c _
    by_cases hc : c.name ∈ names'
    · simp [hc, hsub c.name hc]
    · simp [hc]
  · obtain ⟨u, hu, huh⟩ := h.exists_drop hn
    have hin : ∀ m ∈ names', m ∈ u.columnNames := by
      intro m hm
      rw [(h.chosenFrom (fun m => m ∉ names) huh).columnNames_eq, List.mem_filter]
      exact ⟨hn' m hm, decide_eq_true fun hm' => hdisjoint hm' hm⟩
    obtain ⟨v, hv, hvh⟩ := huh.exists_drop hin
    obtain ⟨w, hw, hwh⟩ := h.exists_drop (List.forall_mem_append.2 ⟨hn, hn'⟩)
    rw [List.filter_filter] at hvh
    refine ⟨u, v, hu, hv, ?_⟩
    rw [hw, hwh.eq_of_chosen hvh]
    intro c _
    by_cases hc : c.name ∈ names
    · simp [hc]
    · simp [hc]

end Holds

/-- On every table that can be reached, and for every list of names, keeping and dropping columns
fail together and otherwise divide the columns between them. -/
theorem keep_drop_complementary (ht : Reachable (.table t)) : t.ChoosesByName := by
  obtain ⟨n, cs, h⟩ := ht.sound
  exact h.choosesByName

/-- Dropping both columns, one of them named twice, leaves what keeping none does: three rows. -/
theorem keep_drop_complementary_scores : ∃ t d, ofFrame .scores = .ok t ∧
    t.drop ["score", "name", "score"] = .ok d ∧ d.columnNames = [] ∧ d.rowCount = 3 ∧
    t.keep [] = .ok d ∧
    OnceInOrder (fun m => m ∉ t.columnNames) ["x", "name", "y", "x"] ["x", "y"] ∧
    t.drop ["x", "name", "y", "x"] = .error (.missingColumns ["x", "y"]) := by
  obtain ⟨t, ht, hnames, hcount, herror⟩ : ∃ t, ofFrame .scores = .ok t ∧
      t.columnNames = ["name", "score"] ∧ t.rowCount = 3 ∧
      t.drop ["x", "name", "y", "x"] = .error (.missingColumns ["x", "y"]) :=
    ⟨_, rfl, rfl, rfl, rfl⟩
  obtain ⟨habsent, hchosen, -, -⟩ := keep_drop_complementary (.ofFrame ht)
  rw [hnames] at habsent hchosen
  obtain ⟨k, d, -, hd, -, hdropped, hrest⟩ := hchosen ["score", "name", "score"] (by decide)
  obtain ⟨missing, honce, -, hmissing⟩ := habsent ["x", "name", "y", "x"] ⟨"x", by decide⟩
  obtain rfl : ["x", "y"] = missing :=
    Error.missingColumns.inj (Except.error.inj (herror.symm.trans hmissing))
  refine ⟨t, d, ht, hd, ?_, hdropped.rowCount_eq.trans hcount, hrest, hnames ▸ honce, herror⟩
  rw [hdropped.columnNames_eq, hnames]
  decide

end Table

end Tabula
