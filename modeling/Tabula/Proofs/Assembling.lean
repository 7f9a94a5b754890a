import Tabula.Proofs.Rebuilding

/-!
# Tables assembled from columns

A list of columns can be wrong in two ways, and in both at once: the lengths differ, or a name comes
twice. The lengths are looked at first, all of them, and only then the names; so the earliest column
of another length is reported even if a name was repeated long before it. A list that is wrong in
neither way is accepted. What the frame checks once more, it finds in order.

* `Table.ofColumns_of_firstWith`, `Table.ofColumns_of_firstRepeated`,
  `Table.exists_holds_of_nodup` — the three things that can happen to a list.
* `Table.ofColumns_trichotomy` — one of them does.
* `Table.ofColumns_accepts_exactly` — the lists that are accepted, what the others are refused for,
  and which table it is.
-/

namespace Tabula.Table

variable {cs : List Column} {c : Column} {name : String}

theorem ofColumns_of_firstWith (h : FirstWith (fun c => c.length ≠ lengthOfFirst cs) cs c) :
    ofColumns cs = .error (.lengthMismatch c.name (lengthOfFirst cs) c.length) := by
  have hfind : cs.find? (fun c => c.length ≠ lengthOfFirst cs) = some c :=
    find?_eq_some_iff_firstWith.2 (by simpa only [decide_eq_true_eq] using h)
  rw [ofColumns_eq, hfind]

section

variable (hlength : ∀ c ∈ cs, c.length = lengthOfFirst cs)
include hlength

theorem ofColumns_of_firstRepeated (h : FirstRepeated (cs.map Column.name) name) :
    ofColumns cs = .error (.duplicateColumn name) := by
  have hnames : (cs.map Column.entry).map Prod.fst = cs.map Column.name := List.map_map ..
  have hschema : Schema.ofColumns (cs.map Column.entry) = .error (.duplicateColumn name) :=
    Schema.ofColumns_eq_error_iff.2 ⟨name, hnames ▸ h, rfl⟩
  rw [ofColumns_of_forall_length hlength, hschema]
  rfl

/-- Columns of one length and with distinct names make the table that consists of them. -/
theorem exists_holds_of_nodup (hcan : ∀ c ∈ cs, c.Canonical)
    (hnodup : (cs.map Column.name).Nodup) :
    ∃ t, ofColumns cs = .ok t ∧ t.Holds (lengthOfFirst cs) cs := by
  by_cases hne : cs = []
  · subst hne
    exact ⟨.empty, rfl, holds_empty⟩
  · have hnames : (cs.map Column.entry).map Prod.fst = cs.map Column.name := List.map_map ..
    obtain ⟨schema, -, hcolumns⟩ := Schema.exists_ofColumns (hnames ▸ hnodup)
    have hholds : Holds ⟨schema, ⟨lengthOfFirst cs, cs.map Column.series⟩⟩ (lengthOfFirst cs) cs :=
      ⟨hcolumns, rfl, rfl, hcan, hlength⟩
    -- a table of columns is what its columns make
    exact ⟨_, hholds.ofColumns_columns hne, hholds⟩

end

/-- A list of columns is refused for a length, refused for a name, or accepted. -/
theorem ofColumns_trichotomy (hcan : ∀ c ∈ cs, c.Canonical) :
    (∃ c, FirstWith (fun c => c.length ≠ lengthOfFirst cs) cs c ∧
      ofColumns cs = .error (.lengthMismatch c.name (lengthOfFirst cs) c.length)) ∨
    (∀ c ∈ cs, c.length = lengthOfFirst cs) ∧
      ((∃ name, FirstRepeated (cs.map Column.name) name ∧
          ofColumns cs = .error (.duplicateColumn name)) ∨
        (cs.map Column.name).Nodup ∧
          ∃ t, ofColumns cs = .ok t ∧ t.Holds (lengthOfFirst cs) cs) := by
  by_cases hlength : ∀ c ∈ cs, c.length = lengthOfFirst cs
  · refine .inr ⟨hlength, ?_⟩
    by_cases hnodup : (cs.map Column.name).Nodup
    · exact .inr ⟨hnodup, exists_holds_of_nodup hlength hcan hnodup⟩
    · obtain ⟨name, hname⟩ := exists_firstRepeated_iff.2 hnodup
      exact .inl ⟨name, hname, ofColumns_of_firstRepeated hlength hname⟩
  · obtain ⟨c, hc⟩ := exists_firstWith_iff.2 (by simpa only [not_forall, exists_prop] using hlength)
    exact .inl ⟨c, hc, ofColumns_of_firstWith hc⟩

/-- Columns make a table exactly if they agree in length and differ in name. If one is of another
length than the first, the first such one is refused, whatever the names are; otherwise the earliest
name that occurred before is. The table has the columns as they are, and as many rows as these are
long. -/
theorem ofColumns_accepts_exactly (h : ∀ c ∈ cs, Reachable (.column c)) :
    (∀ e, ofColumns cs = .error e ↔
      (∃ c, FirstWith (fun c => c.length ≠ lengthOfFirst cs) cs c ∧
        e = .lengthMismatch c.name (lengthOfFirst cs) c.length) ∨
      (∀ c ∈ cs, c.length = lengthOfFirst cs) ∧
        ∃ name, FirstRepeated (cs.map Column.name) name ∧ e = .duplicateColumn name) ∧
    ((∃ t, ofColumns cs = .ok t) ↔
      (∀ c ∈ cs, c.length = lengthOfFirst cs) ∧ (cs.map Column.name).Nodup) ∧
    ∀ t, ofColumns cs = .ok t → t.columns = .ok cs ∧ t.rowCount = lengthOfFirst cs := by
  have hcan : ∀ c ∈ cs, c.Canonical := fun c hc => (h c hc).sound
  refine ⟨fun e => ⟨fun he => ?_, ?_⟩, ⟨fun ⟨t, ht⟩ => ?_, fun ⟨hlength, hnodup⟩ => ?_⟩,
    fun t ht => ?_⟩
  · -- what the list is refused for is one of the two, and no other error comes in between
    obtain ⟨c, hc, hcs⟩ | ⟨hlength, ⟨name, hname, hcs⟩ | ⟨-, t, hcs, -⟩⟩ :=
      ofColumns_trichotomy hcan
    · exact .inl ⟨c, hc, Except.error.inj (he.symm.trans hcs)⟩
    · exact .inr ⟨hlength, name, hname, Except.error.inj (he.symm.trans hcs)⟩
    · cases he.symm.trans hcs
  · rintro (⟨c, hc, rfl⟩ | ⟨hlength, name, hname, rfl⟩)
    · exact ofColumns_of_firstWith hc
    · exact ofColumns_of_firstRepeated hlength hname
  · obtain ⟨c, -, hcs⟩ | ⟨hlength, ⟨name, -, hcs⟩ | ⟨hnodup, -⟩⟩ := ofColumns_trichotomy hcan
    · cases ht.symm.trans hcs
    · cases ht.symm.trans hcs
    · exact ⟨hlength, hnodup⟩
  · obtain ⟨t, ht, -⟩ := exists_holds_of_nodup hlength hcan hnodup
    exact ⟨t, ht⟩
  · obtain ⟨c, -, hcs⟩ | ⟨-, ⟨name, -, hcs⟩ | ⟨-, u, hcs, hholds⟩⟩ := ofColumns_trichotomy hcan
    · cases ht.symm.trans hcs
    · cases ht.symm.trans hcs
    · obtain rfl := Except.ok.inj (ht.symm.trans hcs)
      exact ⟨hholds.columns_eq_ok, hholds.rowCount_eq⟩

/-- Of a name that is repeated by a column of another length, the length is reported; of two names
that are repeated, the one that is repeated first. -/
theorem ofColumns_accepts_exactly_scores : ∃ names scores short : Column,
    (∀ c ∈ [names, scores, short], Reachable (.column c)) ∧ short.name = names.name ∧
    ofColumns [names, scores, short] = .error (.lengthMismatch "name" 2 1) ∧
    ofColumns [names, scores, scores, names] = .error (.duplicateColumn "score") ∧
    ∃ t, ofColumns [names, scores] = .ok t ∧ t.columns = .ok [names, scores] ∧ t.rowCount = 2 := by
  obtain ⟨names, hnames, hname, hlength⟩ : ∃ c, Column.ofValues "name" .string
      [.string "ann", .null] = .ok c ∧ c.name = "name" ∧ c.length = 2 := ⟨_, rfl, rfl, rfl⟩
  obtain ⟨scores, hscores, hscore, hlength'⟩ : ∃ c, Column.ofValues "score" .integer
      [.integer 7, .integer 9] = .ok c ∧ c.name = "score" ∧ c.length = 2 := ⟨_, rfl, rfl, rfl⟩
  obtain ⟨short, hshort, hrepeated, hother⟩ : ∃ c, Column.ofValues "name" .boolean
      [.boolean true] = .ok c ∧ c.name = "name" ∧ c.length = 1 := ⟨_, rfl, rfl, rfl⟩
  have hall : ∀ c ∈ [names, scores, short], Reachable (.column c) := by
    simp only [List.forall_mem_cons, List.not_mem_nil, false_imp_iff, implies_true, and_true]
    exact ⟨.ofValues hnames, .ofValues hscores, .ofValues hshort⟩
  have hpair : ∀ cs ⊆ [names, scores, short], ∀ c ∈ cs, Reachable (.column c) :=
    fun cs hcs c hc => hall c (hcs hc)
  have hfirst : ∀ cs, lengthOfFirst (names :: cs) = 2 := fun cs => hlength
  refine ⟨names, scores, short, hall, hrepeated.trans hname.symm, ?_, ?_, ?_⟩
  · refine ((ofColumns_accepts_exactly hall).1 _).2 (.inl ⟨short, ⟨?_, ?_⟩, ?_⟩)
    · rw [hfirst, hother]
      decide
    · refine ⟨[names, scores], [], rfl, ?_⟩
      simp [hfirst, hlength, hlength']
    · rw [hfirst, hrepeated, hother]
  · refine ((ofColumns_accepts_exactly (hpair _ (by simp))).1 _).2 (.inr ⟨?_, "score", ?_, rfl⟩)
    · simp [hfirst, hlength, hlength']
    · exact ⟨["name", "score"], ["name"], by simp [hname, hscore], by simp, by simp⟩
  · obtain ⟨-, hok, hparts⟩ := ofColumns_accepts_exactly (hpair [names, scores] (by simp))
    obtain ⟨t, ht⟩ := hok.2 ⟨by simp [hfirst, hlength, hlength'], by simp [hname, hscore]⟩
    obtain ⟨hcolumns, hrows⟩ := hparts t ht
    exact ⟨t, ht, hcolumns, hrows.trans (hfirst _)⟩

end Tabula.Table
