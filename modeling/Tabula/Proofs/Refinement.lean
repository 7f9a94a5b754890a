import Tabula.Proofs.Reachable

/-!
# Encoding at once and step by step

Learning and encoding several columns in one call stores the mappings at the end, all or none. Doing
the same column by column stores each mapping as soon as it is learned. Unless the position of a
column among the others decides which order it gets, the two cannot be told apart when they succeed,
and fail for the same column and the same reason.

* `Encoder.stepwise` — the run column by column.
* `Encoder.stepwise_of_encodeColumns` — it succeeds where the run at once does, with the same
  outcome.
* `Encoder.stepwise_of_encodeColumns_error` — and fails where that fails, in learning.
* `Encoder.fitTransform_refines_stepwise` — the two calls compared.
-/

namespace Tabula

namespace Encoder

variable {e e' : Encoder} {t u : Table} {n : Nat} {cs : List Column} {c d : Column} {m : Mapping}
  {name : String} {names : List String} {p : Nat}

/-- Learns each of the columns and encodes it by what was learned, one column after the other. -/
def stepwise : Table → List String → Call Table
  | t, [] => pure t
  | t, name :: names => do
    fit t name
    let u ← Call.ofResult ((← get).transform t name)
    stepwise u names

/-! ### One step -/

/-- A step that succeeds has stored the mapping before the next begins. -/
theorem stepwise_cons_run (hc : t.column name = .ok c) (hm : e.rule.learn c 0 = .ok m)
    (hd : m.encode c = .ok d) (hu : t.replace d = .ok u) :
    (stepwise t (name :: names)).run.run e =
      (stepwise u names).run.run { e with mappings := e.mappings.insert name m } := by
  have hfit : (fit t name).run.run e =
      (.ok (), { e with mappings := e.mappings.insert name m }) := by
    rw [fit_run, hc, ok_bind, hm]
  -- the encoding finds the mapping that was stored a moment ago, and not an earlier one
  have hget : (e.mappings.insert name m).get? name = some m := by
    rw [MappingStore.get?_insert, if_pos rfl]
  have htransform : Encoder.transform ⟨e.rule, e.mappings.insert name m⟩ t name = .ok u :=
    transform_eq_ok_iff.2 ⟨c, m, d, hc, hget, hd, hu⟩
  rw [stepwise, run_bind, hfit]
  show (Call.ofResult (Encoder.transform ⟨e.rule, e.mappings.insert name m⟩ t name) >>=
    fun u => stepwise u names : Call Table).run.run _ = _
  rw [run_bind, run_ofResult, htransform]

/-- A step that cannot learn ends the run and changes nothing. -/
theorem stepwise_cons_run_of_error (names : List String) {err : Error}
    (hc : t.column name = .ok c) (hl : e.rule.learn c 0 = .error err) :
    (fit t name).run.run e = (.error err, e) ∧
      (stepwise t (name :: names)).run.run e = (.error err, e) := by
  have hfit : (fit t name).run.run e = (.error err, e) := by
    rw [fit_run, hc, ok_bind, hl]
  refine ⟨hfit, ?_⟩
  rw [stepwise, run_bind, hfit]

/-! ### Whole runs -/

/-- Where encoding at once succeeds, so does encoding step by step, and it has stored the same
mappings. -/
theorem stepwise_of_encodeColumns (hr : e.rule.Uniform) {learned : List (String × Mapping)}
    (h : e.rule.encodeColumns p t names = .ok (u, learned)) :
    (stepwise t names).run.run e =
      (.ok u, { e with mappings := e.mappings.insertAll learned }) := by
  -- the runs keep their mappings in different places, so the encoder varies with the table
  induction names generalizing p t e learned with
  | nil =>
    obtain ⟨rfl, rfl⟩ := Prod.mk.inj (Except.ok.inj h)
    rfl
  | cons name names ih =>
    obtain ⟨c, m, d, w, rest, hc, hm, hd, hw, hrest, rfl⟩ :=
      Rule.encodeColumns_cons_eq_ok_iff.1 h
    -- a single column is always the first, so its position there must not matter here
    rw [hr.learn_eq] at hm
    rw [stepwise_cons_run hc hm hd hw]
    exact ih (e := { e with mappings := e.mappings.insert name m }) hr hrest

/-- Where encoding at once fails, encoding step by step has got as far as the same column, and fails
in learning it, for the same reason. -/
theorem stepwise_of_encodeColumns_error (hr : e.rule.Uniform) (ht : t.Holds n cs)
    (hn : ∀ k ∈ names, k ∈ t.columnNames) {err : Error}
    (h : e.rule.encodeColumns p t names = .error err) :
    ∃ done name rest u e' fault, names = done ++ name :: rest ∧
      (stepwise t done).run.run e = (.ok u, e') ∧
      (fit u name).run.run e' = (.error (.learning name fault), e') ∧
      (stepwise t names).run.run e = (.error (.learning name fault), e') ∧
      err = .fitFailed name (.learning name fault) := by
  induction names generalizing p t e cs with
  | nil => cases h
  | cons name names ih =>
    -- the names are known in every table on the way, so that no column can be missing
    obtain ⟨hname, hnames⟩ := List.forall_mem_cons.1 hn
    obtain ⟨c, hc, -, ⟨fault, hl⟩ | ⟨m, d, w, hm, hd, hw, hwh⟩⟩ :=
      Rule.learn_or_encode (r := e.rule) (p := p) ht hname
    · rw [Rule.encodeColumns_cons_of_learn_error hc hl] at h
      rw [hr.learn_eq] at hl
      obtain ⟨hfit, hrun⟩ := stepwise_cons_run_of_error names hc hl
      exact ⟨[], name, names, t, e, fault, rfl, rfl, hfit, hrun, (Except.error.inj h).symm⟩
    · -- the column itself succeeds, so the failure is among the rest
      have hrest : e.rule.encodeColumns (p + 1) w names = .error err := by
        rw [Rule.encodeColumns_cons hc hm hd hw] at h
        obtain h | ⟨x, -, h⟩ := bind_eq_error_iff.1 h
        · exact h
        · cases h
      have hwn : ∀ k ∈ names, k ∈ w.columnNames := by
        rw [ht.columnNames_replaced hwh]
        exact hnames
      rw [hr.learn_eq] at hm
      obtain ⟨done, name', rest, u, e', fault, rfl, hdone, hfit, hrun, herr⟩ :=
        ih (e := { e with mappings := e.mappings.insert name m }) hr hwh hwn hrest
      refine ⟨name :: done, name', rest, u, e', fault, rfl, ?_, hfit, ?_, herr⟩
      · rw [stepwise_cons_run hc hm hd hw, hdone]
      · rw [stepwise_cons_run hc hm hd hw, hrun]

/-- Encoding existing columns at once and step by step: they succeed together, with the same table
and the same encoder. When they fail, it is in learning a column that is reached in the same way,
and encoding at once reports that failure under the name of the column and changes nothing. -/
theorem fitTransform_refines_stepwise (hr : e.rule.Uniform) (ht : Reachable (.table t))
    (hn : ∀ k ∈ names, k ∈ t.columnNames) :
    (∀ u e', (fitTransform t names).run.run e = (.ok u, e') ↔
      (stepwise t names).run.run e = (.ok u, e')) ∧
    ∀ err e', (stepwise t names).run.run e = (.error err, e') →
      ∃ done name rest u fault, names = done ++ name :: rest ∧
        (stepwise t done).run.run e = (.ok u, e') ∧
        (fit u name).run.run e' = (.error err, e') ∧ err = .learning name fault ∧
        (fitTransform t names).run.run e = (.error (.fitFailed name err), e) := by
  obtain ⟨k, cs, hh⟩ := ht.sound
  have hreq : t.schema.require names = .ok () := Schema.require_eq_ok_iff.2 hn
  rw [fitTransform_run, hreq, ok_bind]
  cases henc : e.rule.encodeColumns 0 t names with
  | ok x =>
    obtain ⟨v, learned⟩ := x
    -- both runs end in the same table and the same encoder
    rw [stepwise_of_encodeColumns hr henc]
    refine ⟨fun u e' => Iff.rfl, fun err e' h => ?_⟩
    cases h
  | error err =>
    obtain ⟨done, name, rest, u, e₁, fault, hsplit, hdone, hfit, hrun, rfl⟩ :=
      stepwise_of_encodeColumns_error hr hh hn henc
    -- neither run has a result, and the failures are tied to each other by the column
    rw [hrun]
    refine ⟨fun u e' => ⟨fun h => ?_, fun h => ?_⟩, fun err' e' h => ?_⟩
    · cases h
    · cases h
    · obtain ⟨herr, rfl⟩ := Prod.mk.inj h
      obtain rfl := Except.error.inj herr
      exact ⟨done, name, rest, u, fault, hsplit, hdone, hfit, rfl, rfl⟩

/-- A name that is asked for twice is learned a second time from its own codes, in both runs. -/
theorem fitTransform_refines_stepwise_scores : ∃ t u e',
    Table.ofFrame .scores = .ok t ∧
      (fitTransform t ["name", "score", "name"]).run.run (ofRule (.ordinal {})) = (.ok u, e') ∧
        (stepwise t ["name", "score", "name"]).run.run (ofRule (.ordinal {})) = (.ok u, e') := by
  obtain ⟨t, u, e', ht, hnames, hu⟩ : ∃ t u e', Table.ofFrame .scores = .ok t ∧
      t.columnNames = ["name", "score"] ∧
        (fitTransform t ["name", "score", "name"]).run.run (ofRule (.ordinal {})) = (.ok u, e') :=
    ⟨_, _, _, rfl, rfl, rfl⟩
  have hn : ∀ k ∈ ["name", "score", "name"], k ∈ t.columnNames := by
    rw [hnames]
    decide
  have hrun := fitTransform_refines_stepwise (e := ofRule (.ordinal {})) rfl (.ofFrame ht) hn
  exact ⟨t, u, e', ht, hu, (hrun.1 u e').1 hu⟩

end Encoder

end Tabula
