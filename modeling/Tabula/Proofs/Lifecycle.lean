import Tabula.Proofs.Learning

/-!
# The life of an encoder

An encoder starts without mappings, and a run is a list of calls of any kind on any tables. What the
encoder holds after a run is decided by the calls that succeeded: under each name there is the
mapping that the last of them learned for it, and a call that failed has left no trace.

* `Encoder.Operation` — a call; `Operation.run` — what it answers, and the encoder after it.
* `Operation.Learns` — the mapping that a call learns for a column, from the table as far as the
  call has encoded it by then.
* `Operation.get?_run_of_mem`, `Operation.get?_run_of_unlearned` — what one call does to what is
  stored under a name that it learns, and under every other name.
* `Encoder.LearnedLast` — the last call of a run that learned a column.
* `Encoder.lifecycle` — what is stored after every run.
-/

namespace Tabula

namespace Encoder

/-- A call of an encoder on a table. -/
inductive Operation where
  | fit (t : Table) (name : String)
  | fitTransform (t : Table) (names : List String)
  | transform (t : Table) (name : String)
  | inverse (t : Table) (name : String)

namespace Operation

/-- The call, which answers the table that it makes, if it makes one. -/
def perform : Operation → Call (Option Table)
  | fit t name => do
    Encoder.fit t name
    return none
  | fitTransform t names => do return some (← Encoder.fitTransform t names)
  | transform t name => do return some (← Call.ofResult ((← get).transform t name))
  | inverse t name => do return some (← Call.ofResult ((← get).inverse t name))

/-- What the call answers, and the encoder after it. -/
def run (o : Operation) (e : Encoder) : Except Error (Option Table) × Encoder := o.perform.run.run e

/-- The call answers, and does not fail. -/
def Succeeds (o : Operation) (e : Encoder) : Prop := ∃ a, (o.run e).1 = .ok a

/-- The columns that the call learns. -/
def learns : Operation → List String
  | fit _ name => [name]
  | fitTransform _ names => names
  | transform _ _ | inverse _ _ => []

/-- The mapping that the call learns for a column by a rule. Of several columns it is learned where
the name occurs last, from the table in which the columns before are encoded. -/
def Learns (r : Rule) (name : String) (m : Mapping) : Operation → Prop
  | fit t k => k = name ∧ ∃ c, t.column name = .ok c ∧ r.learn c 0 = .ok m
  | fitTransform t names => ∃ done rest u learned c, names = done ++ name :: rest ∧ name ∉ rest ∧
      r.encodeColumns 0 t done = .ok (u, learned) ∧ u.column name = .ok c ∧
        r.learn c done.length = .ok m
  | transform _ _ | inverse _ _ => False

end Operation

/-- The encoder after calls, one after the other. -/
def after (e : Encoder) (ops : List Operation) : Encoder := ops.foldl (fun e o => (o.run e).2) e

variable {r : Rule} {e : Encoder} {t u : Table} {m : Mapping} {name : String} {names : List String}
  {o : Operation} {ops before later : List Operation}

theorem after_append : e.after (ops ++ later) = (e.after ops).after later := List.foldl_append

theorem after_concat : e.after (ops ++ [o]) = (o.run (e.after ops)).2 := by
  rw [after_append]
  rfl

/-! ### One call -/

namespace Operation

/-- What a fit answers, and the encoder after it. -/
theorem run_fit : (fit t name).run e =
    match t.column name >>= fun c => e.rule.learn c 0 with
    | .ok m => (.ok none, { e with mappings := e.mappings.insert name m })
    | .error err => (.error err, e) := by
  rw [run, perform, run_bind, fit_run]
  cases t.column name >>= fun c => e.rule.learn c 0 with
  | error err => rfl
  | ok m => rfl

/-- What a fit and transform answers, and the encoder after it. -/
theorem run_fitTransform : (fitTransform t names).run e =
    match t.schema.require names >>= fun _ => e.rule.encodeColumns 0 t names with
    | .ok (u, learned) => (.ok (some u), { e with mappings := e.mappings.insertAll learned })
    | .error err => (.error err, e) := by
  rw [run, perform, run_bind, fitTransform_run]
  cases t.schema.require names >>= fun _ => e.rule.encodeColumns 0 t names with
  | error err => rfl
  | ok x => rfl

/-- Encoding a column leaves the encoder alone. -/
theorem run_transform : (transform t name).run e = ((e.transform t name).map some, e) := by
  show (Call.ofResult (e.transform t name) >>= fun u => pure (some u) :
    Call (Option Table)).run.run e = _
  rw [run_bind, run_ofResult]
  cases e.transform t name with
  | error err => rfl
  | ok u => rfl

/-- Decoding a column leaves the encoder alone. -/
theorem run_inverse : (inverse t name).run e = ((e.inverse t name).map some, e) := by
  show (Call.ofResult (e.inverse t name) >>= fun u => pure (some u) :
    Call (Option Table)).run.run e = _
  rw [run_bind, run_ofResult]
  cases e.inverse t name with
  | error err => rfl
  | ok u => rfl

/-- Of the mappings that are learned together, the last one for a name is the one that the call
learns for it. -/
theorem lookup_learned {learned : List (String × Mapping)}
    (h : r.encodeColumns 0 t names = .ok (u, learned)) :
    learned.reverse.lookup name = some m ↔ (fitTransform t names).Learns r name m := by
  -- the names of the mappings are those of the call, so a place in one list is a place in the other
  have hnames : learned.map Prod.fst = names := Rule.map_fst_of_encodeColumns h
  rw [lookup_reverse_eq_some_iff]
  refine ⟨?_, ?_⟩
  · rintro ⟨l₁, l₂, rfl, hnotin⟩
    rw [List.map_append, List.map_cons] at hnames
    subst hnames
    obtain ⟨w, first, second, hfirst, hsecond, happ⟩ := Rule.encodeColumns_append_eq_ok_iff.1 h
    obtain ⟨c, k, d, v, last, hc, hk, -, -, -, rfl⟩ := Rule.encodeColumns_cons_eq_ok_iff.1 hsecond
    -- both lists of mappings are split at the same place, as their names are
    have hlen : l₁.length = first.length := by
      have hf := congrArg List.length (Rule.map_fst_of_encodeColumns hfirst)
      rw [List.length_map, List.length_map] at hf
      exact hf.symm
    obtain ⟨-, hcons⟩ := List.append_inj happ hlen
    obtain rfl : m = k := (Prod.mk.inj (List.cons.inj hcons).1).2
    rw [Nat.zero_add] at hk
    exact ⟨_, _, w, first, c, rfl, hnotin, hfirst, hc, hk⟩
  · rintro ⟨done, rest, w, first, c, rfl, hnotin, hfirst, hc, hm⟩
    obtain ⟨w', first', second, hfirst', hsecond, rfl⟩ := Rule.encodeColumns_append_eq_ok_iff.1 h
    obtain ⟨rfl, rfl⟩ := Prod.mk.inj (Except.ok.inj (hfirst.symm.trans hfirst'))
    obtain ⟨c', k, d, v, last, hc', hk, -, -, hlast, rfl⟩ :=
      Rule.encodeColumns_cons_eq_ok_iff.1 hsecond
    obtain rfl : c = c' := Except.ok.inj (hc.symm.trans hc')
    rw [Nat.zero_add] at hk
    obtain rfl : m = k := Except.ok.inj (hm.symm.trans hk)
    exact ⟨first, last, rfl, Rule.map_fst_of_encodeColumns hlast ▸ hnotin⟩

/-- A call leaves the encoder as it is and fails, or it answers and stores what it has learned: one
mapping for each column that it learns, the last one of a name being the one that counts. -/
theorem run_cases (o : Operation) (e : Encoder) : (∃ err, o.run e = (.error err, e)) ∨
    ∃ a learned, o.run e = (.ok a, { e with mappings := e.mappings.insertAll learned }) ∧
      learned.map Prod.fst = o.learns ∧
      ∀ name m, learned.reverse.lookup name = some m ↔ o.Learns e.rule name m := by
  -- one case for each kind of call: the first two learn, the last two only read
  cases o with
  | fit t k =>
    rw [run_fit]
    cases hl : t.column k >>= fun c => e.rule.learn c 0 with
    | error err => exact .inl ⟨err, rfl⟩
    | ok l =>
      refine .inr ⟨none, [(k, l)], rfl, rfl, fun name m => ?_⟩
      -- a single mapping is found under its own name only
      obtain ⟨c, hc, hlc⟩ := bind_eq_ok_iff.1 hl
      have hlookup : [(k, l)].reverse.lookup name = some m ↔ name = k ∧ l = m := by
        by_cases hk : name = k
        · simp [hk]
        · simp [List.lookup, hk, beq_eq_false_iff_ne.2 hk]
      rw [hlookup]
      refine ⟨?_, ?_⟩
      · rintro ⟨rfl, rfl⟩
        exact ⟨rfl, c, hc, hlc⟩
      · rintro ⟨rfl, c', hc', hm⟩
        obtain rfl : c = c' := Except.ok.inj (hc.symm.trans hc')
        exact ⟨rfl, Except.ok.inj (hlc.symm.trans hm)⟩
  | fitTransform t names =>
    rw [run_fitTransform]
    cases hx : t.schema.require names >>= fun _ => e.rule.encodeColumns 0 t names with
    | error err => exact .inl ⟨err, rfl⟩
    | ok x =>
      obtain ⟨u, learned⟩ := x
      obtain ⟨-, -, hu⟩ := bind_eq_ok_iff.1 hx
      exact .inr ⟨some u, learned, rfl, Rule.map_fst_of_encodeColumns hu,
        fun name m => lookup_learned hu⟩
  | transform t k =>
    rw [run_transform]
    cases e.transform t k with
    | error err => exact .inl ⟨err, rfl⟩
    | ok u => exact .inr ⟨some u, [], rfl, rfl, fun name m => by simp [Learns]⟩
  | inverse t k =>
    rw [run_inverse]
    cases e.inverse t k with
    | error err => exact .inl ⟨err, rfl⟩
    | ok u => exact .inr ⟨some u, [], rfl, rfl, fun name m => by simp [Learns]⟩

/-- A call that fails changes nothing. -/
theorem run_of_not_succeeds (h : ¬o.Succeeds e) : (o.run e).2 = e := by
  obtain ⟨err, hrun⟩ | ⟨a, learned, hrun, -⟩ := run_cases o e
  · rw [hrun]
  · exact absurd ⟨a, by rw [hrun]⟩ h

/-- No call changes the rule. -/
theorem rule_run (o : Operation) (e : Encoder) : (o.run e).2.rule = e.rule := by
  obtain ⟨err, hrun⟩ | ⟨a, learned, hrun, -⟩ := run_cases o e
  · rw [hrun]
  · rw [hrun]

/-- A call keeps the mappings in the order of their names. -/
theorem ordered_run (h : e.mappings.Ordered) : (o.run e).2.mappings.Ordered := by
  obtain ⟨err, hrun⟩ | ⟨a, learned, hrun, -⟩ := run_cases o e
  · rw [hrun]
    exact h
  · rw [hrun]
    exact h.insertAll

/-- A call leaves alone what is stored for a column that it does not learn. -/
theorem get?_run_of_notMem (h : name ∉ o.learns) :
    (o.run e).2.mappings.get? name = e.mappings.get? name := by
  obtain ⟨err, hrun⟩ | ⟨a, learned, hrun, hnames, -⟩ := run_cases o e
  · rw [hrun]
  · -- nothing was learned under the name, so the lookup goes on to what was stored before
    have hnone : learned.reverse.lookup name = none := by
      rw [lookup_eq_none_iff_notMem, List.map_reverse, List.mem_reverse, hnames]
      exact h
    rw [hrun]
    show (e.mappings.insertAll learned).get? name = _
    rw [MappingStore.get?_insertAll, hnone, Option.none_or]

/-- A call leaves alone what is stored for a column that it does not succeed in learning. -/
theorem get?_run_of_unlearned (h : name ∈ o.learns → ¬o.Succeeds e) :
    (o.run e).2.mappings.get? name = e.mappings.get? name := by
  by_cases hmem : name ∈ o.learns
  · rw [run_of_not_succeeds (h hmem)]
  · exact get?_run_of_notMem hmem

/-- A call that succeeds has stored, for each column that it learns, the mapping that it learns for
it. -/
theorem get?_run_of_mem (hs : o.Succeeds e) (h : name ∈ o.learns) :
    ∃ m, (o.run e).2.mappings.get? name = some m ∧ ∀ k, o.Learns e.rule name k ↔ k = m := by
  obtain ⟨err, hrun⟩ | ⟨a, learned, hrun, hnames, hlast⟩ := run_cases o e
  · obtain ⟨a, ha⟩ := hs
    rw [hrun] at ha
    cases ha
  · obtain ⟨m, hm⟩ : ∃ m, learned.reverse.lookup name = some m := by
      rw [exists_lookup_eq_some_iff, List.map_reverse, List.mem_reverse, hnames]
      exact h
    -- what was learned in the call is found before anything older
    refine ⟨m, ?_, fun k => ?_⟩
    · rw [hrun]
      show (e.mappings.insertAll learned).get? name = _
      rw [MappingStore.get?_insertAll, hm, Option.some_or]
    · rw [← hlast, hm, Option.some.injEq, eq_comm]

end Operation

/-! ### Runs -/

/-- No run changes the rule. -/
theorem rule_after (e : Encoder) (ops : List Operation) : (e.after ops).rule = e.rule := by
  induction ops generalizing e with
  | nil => rfl
  | cons o ops ih => exact (ih _).trans (o.rule_run e)

/-- A run keeps the mappings in the order of their names. -/
theorem ordered_after (h : e.mappings.Ordered) : (e.after ops).mappings.Ordered := by
  induction ops generalizing e with
  | nil => exact h
  | cons o ops ih => exact ih (Operation.ordered_run h)

/-- What is stored for a column stays stored as long as no call that succeeds learns it. -/
theorem get?_after_of_unlearned
    (h : ∀ mid o rest, ops = mid ++ o :: rest → name ∈ o.learns → ¬o.Succeeds (e.after mid)) :
    (e.after ops).mappings.get? name = e.mappings.get? name := by
  induction ops generalizing e with
  | nil => rfl
  | cons o ops ih =>
    -- a call later in the run is a call of the rest, begun after the first one
    have hrest : ∀ mid o' rest, ops = mid ++ o' :: rest → name ∈ o'.learns →
        ¬o'.Succeeds ((o.run e).2.after mid) := by
      rintro mid o' rest rfl hmem
      exact h (o :: mid) o' rest rfl hmem
    exact (ih hrest).trans (Operation.get?_run_of_unlearned (h [] o ops rfl))

/-- A column stays learned through a call. -/
theorem isFittedFor_run (h : e.isFittedFor name = true) : (o.run e).2.isFittedFor name = true := by
  rw [isFittedFor, MappingStore.contains_eq_true_iff] at h ⊢
  -- a call that learns the column stores a mapping, and any other leaves the one there is
  by_cases hs : o.Succeeds e
  · by_cases hmem : name ∈ o.learns
    · obtain ⟨m, hm, -⟩ := Operation.get?_run_of_mem hs hmem
      exact ⟨m, hm⟩
    · rwa [Operation.get?_run_of_notMem hmem]
  · rwa [Operation.run_of_not_succeeds hs]

/-- A column stays learned through a run. -/
theorem isFittedFor_after (h : e.isFittedFor name = true) :
    (e.after later).isFittedFor name = true := by
  induction later generalizing e with
  | nil => exact h
  | cons o later ih => exact ih (isFittedFor_run h)

/-- In a run that begins with `before`, the call `o` and `later`, the call `o` is the last one that
succeeds in learning the column. -/
structure LearnedLast (e : Encoder) (name : String) (before : List Operation) (o : Operation)
    (later : List Operation) : Prop where
  learns : name ∈ o.learns
  succeeds : o.Succeeds (e.after before)
  final : ∀ mid o' rest, later = mid ++ o' :: rest → name ∈ o'.learns →
    ¬o'.Succeeds (e.after (before ++ o :: mid))

/-- One more call that does not succeed in learning the column leaves the last one the last. -/
theorem LearnedLast.concat {o' : Operation} (h : LearnedLast e name before o later)
    (hn : name ∈ o'.learns → ¬o'.Succeeds (e.after (before ++ o :: later))) :
    LearnedLast e name before o (later ++ [o']) := by
  refine ⟨h.learns, h.succeeds, ?_⟩
  intro mid o'' rest hsplit hmem
  -- a call after the last one is the new one, or one of those that the assumption is about
  obtain rfl | ⟨rest', x, rfl⟩ := List.eq_nil_or_concat rest
  · obtain ⟨rfl, hx⟩ := List.append_inj' hsplit rfl
    obtain rfl := List.head_eq_of_cons_eq hx
    exact hn hmem
  · rw [List.concat_eq_append, ← List.cons_append, ← List.append_assoc] at hsplit
    obtain ⟨hlater, -⟩ := List.append_inj' hsplit rfl
    exact h.final mid o'' rest' hlater hmem

/-- After a run that began without mappings, what is stored for a column is what the last call that
succeeded in learning it has learned. -/
theorem get?_after_eq_some_iff : ((ofRule r).after ops).mappings.get? name = some m ↔
    ∃ before o later, ops = before ++ o :: later ∧ LearnedLast (ofRule r) name before o later ∧
      o.Learns r name m := by
  refine ⟨?_, ?_⟩
  · intro h
    -- what is stored was learned by the last call, or it is older and this call left it alone
    induction ops using List.reverseRecOn with
    | nil => cases h
    | append_singleton ops o ih =>
      rw [after_concat] at h
      by_cases hs : name ∈ o.learns ∧ o.Succeeds ((ofRule r).after ops)
      · obtain ⟨k, hk, hlearns⟩ := Operation.get?_run_of_mem hs.2 hs.1
        rw [rule_after] at hlearns
        obtain rfl : k = m := Option.some.inj (hk.symm.trans h)
        refine ⟨ops, o, [], rfl, ⟨hs.1, hs.2, fun mid o' rest hsplit => ?_⟩, (hlearns k).2 rfl⟩
        exact absurd hsplit (List.append_ne_nil_of_right_ne_nil _ (List.cons_ne_nil _ _)).symm
      · have hn : name ∈ o.learns → ¬o.Succeeds ((ofRule r).after ops) := fun h1 h2 => hs ⟨h1, h2⟩
        rw [Operation.get?_run_of_unlearned hn] at h
        obtain ⟨before, o', later, rfl, hlast, hlearns⟩ := ih h
        refine ⟨before, o', later ++ [o], ?_, hlast.concat hn, hlearns⟩
        rw [List.append_assoc, List.cons_append]
  · rintro ⟨before, o, later, rfl, hlast, hlearns⟩
    obtain ⟨k, hk, hunique⟩ := Operation.get?_run_of_mem hlast.succeeds hlast.learns
    rw [rule_after] at hunique
    obtain rfl : m = k := (hunique m).1 hlearns
    -- after the call that learned the mapping no other call touches it
    have hsplit : (ofRule r).after (before ++ o :: later) =
        (o.run ((ofRule r).after before)).2.after later := after_append
    rw [hsplit, get?_after_of_unlearned, hk]
    intro mid o' rest hmid hmem
    have hfinal := hlast.final mid o' rest hmid hmem
    rwa [after_append] at hfinal

/-- After every run that began without mappings: under each name there is the mapping that the last
call that succeeded in learning it has learned, and one only if there was such a call. A further
call changes nothing if it fails, and leaves alone the columns that it does not learn; columns stay
fitted. The encoder is fitted if some column is, and its names are those of the fitted columns, each
once and in ascending order. -/
theorem lifecycle (r : Rule) (ops : List Operation) :
    (∀ name m, ((ofRule r).after ops).mappings.get? name = some m ↔
      ∃ before o later, ops = before ++ o :: later ∧ LearnedLast (ofRule r) name before o later ∧
        o.Learns r name m) ∧
    (∀ name, ((ofRule r).after ops).isFittedFor name = true ↔
      ∃ before o later, ops = before ++ o :: later ∧ name ∈ o.learns ∧
        o.Succeeds ((ofRule r).after before)) ∧
    (∀ o : Operation, (∀ a, (o.run ((ofRule r).after ops)).1 ≠ .ok a) →
      (ofRule r).after (ops ++ [o]) = (ofRule r).after ops) ∧
    (∀ (o : Operation) name, name ∉ o.learns →
      ((ofRule r).after (ops ++ [o])).mappings.get? name =
        ((ofRule r).after ops).mappings.get? name) ∧
    (∀ name later, ((ofRule r).after ops).isFittedFor name = true →
      ((ofRule r).after (ops ++ later)).isFittedFor name = true) ∧
    (((ofRule r).after ops).isFitted = true ↔
      ∃ name, ((ofRule r).after ops).isFittedFor name = true) ∧
    ((ofRule r).after ops).mappings.names.Pairwise (· < ·) ∧
    ∀ name, name ∈ ((ofRule r).after ops).mappings.names ↔
      ((ofRule r).after ops).isFittedFor name = true := by
  refine ⟨fun name m => get?_after_eq_some_iff, fun name => ⟨fun h => ?_, ?_⟩, fun o h => ?_,
    fun o name h => ?_, fun name later h => ?_, ?_, ?_, fun name => MappingStore.mem_names_iff⟩
  -- a mapping was learned by the last call that did so
  · obtain ⟨m, hm⟩ := MappingStore.contains_eq_true_iff.1 h
    obtain ⟨before, o, later, hops, hlast, -⟩ := get?_after_eq_some_iff.1 hm
    exact ⟨before, o, later, hops, hlast.learns, hlast.succeeds⟩
  · rintro ⟨before, o, later, rfl, hmem, hs⟩
    obtain ⟨m, hm, -⟩ := Operation.get?_run_of_mem hs hmem
    have hfit : (o.run ((ofRule r).after before)).2.isFittedFor name = true :=
      MappingStore.contains_eq_true_iff.2 ⟨m, hm⟩
    rw [after_append]
    show ((o.run ((ofRule r).after before)).2.after later).isFittedFor name = true
    exact isFittedFor_after hfit
  · rw [after_concat]
    exact Operation.run_of_not_succeeds fun ⟨a, ha⟩ => h a ha
  · rw [after_concat]
    exact Operation.get?_run_of_notMem h
  · rw [after_append]
    exact isFittedFor_after h
  · rw [isFitted, Bool.not_eq_true', MappingStore.isEmpty_eq_false_iff]
    rfl
  · -- the store is in order from the start, and every call keeps it so
    have hord : ((ofRule r).after ops).mappings.Ordered :=
      ordered_after MappingStore.ordered_empty
    exact hord.imp fun hlt => compareOfLessAndEq_eq_lt.1 hlt

end Encoder

end Tabula
