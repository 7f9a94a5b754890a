import Tabula.Proofs.Equality
import Tabula.Proofs.Reachable

/-!
# Tables and their numbers

Tables with one number are taken to be equal without a look at their values, and rows with one
number to agree in their schemas. Neither can be seen from two tables alone: it is right because of
what happens in a whole run, where everything that may differ from its source takes a number that
nothing has had before.

* `Command` — an operation on tables and rows; `Command.repeats?` — the table that it answers once
  more, if it makes none.
* `World` — a session with everything that was made in it; `Run` — the worlds that come about.
* `Command.effect` — what one command does to the numbers, and `Run.sound` — what is true after any
  number of commands.
* `Run.number_determines_table` — one number means one table, and what is new has a new number.
-/

namespace Tabula

variable {α : Type} {t : Table} {n : Nat} {cs : List Column}

/-! ### What rows share -/

/-- What the rows of a table share. -/
def Instance.shared (i : Instance) : SharedSchema := ⟨i.serial, i.table.schema⟩

def SharedRow.shared (r : SharedRow) : SharedSchema := ⟨r.serial, r.row.schema⟩

section

variable {i : Instance} {s : SharedSchema} {r : SharedRow} {rs : List SharedRow}

/-- A row of a table has the schema of the table. -/
theorem Table.schema_of_row {index : Int} {r : Row} (h : t.row index = .ok r) :
    r.schema = t.schema := by
  obtain ⟨_, -, h⟩ := bind_eq_ok_iff.1 h
  obtain ⟨_, -, h⟩ := bind_eq_ok_iff.1 h
  rw [← Except.ok.inj h]

/-- A row that is read by its index shares number and schema with its table. -/
theorem Instance.shared_of_row {index : Int} (h : i.row index = .ok r) : r.shared = i.shared := by
  obtain ⟨row, hrow, h⟩ := bind_eq_ok_iff.1 h
  rw [← Except.ok.inj h, SharedRow.shared, Table.schema_of_row hrow]
  rfl

/-- So do the rows that are read all at once. -/
theorem Instance.shared_of_toRows (hh : i.table.Holds n cs) (h : i.toRows = .ok rs) (hr : r ∈ rs) :
    r.shared = i.shared := by
  obtain ⟨rows, hrows, h⟩ := bind_eq_ok_iff.1 h
  rw [← Except.ok.inj h] at hr
  obtain ⟨row, hrow, rfl⟩ := List.mem_map.1 hr
  -- all rows at once are the rows one by one
  rw [hh.toRows_eq, mapM_eq_ok_iff] at hrows
  obtain ⟨index, -, hindex⟩ := forall₂_exists_left hrows hrow
  rw [SharedRow.shared, Table.schema_of_row hindex]
  rfl

/-- A row that is made for a schema shares it. -/
theorem SharedRow.shared_of_ofValues {vs : List Value} (h : ofValues s vs = .ok r) :
    r.shared = s := by
  obtain ⟨row, hrow, h⟩ := bind_eq_ok_iff.1 h
  have hschema : row.schema = s.schema := by
    rw [Row.ofValues] at hrow
    split at hrow
    · cases hrow
    · split at hrow
      · cases hrow
      · rw [← Except.ok.inj hrow]
  rw [← Except.ok.inj h, SharedRow.shared, hschema]

/-- If one number means one schema, comparing the numbers first makes no difference. -/
theorem SharedRow.toTable_eq
    (h : ∀ r ∈ rs, ∀ q ∈ rs, r.serial = q.serial → r.row.schema = q.row.schema) :
    toTable rs = Table.ofRows (rs.map SharedRow.row) := by
  cases rs with
  | nil => rfl
  | cons first rest =>
    -- rows with one number have one schema, so comparing theirs as well changes nothing
    have hany : (rest.any fun r => r.serial ≠ first.serial ∧ r.row.schema ≠ first.row.schema) =
        (rest.map SharedRow.row).any fun r => r.schema ≠ first.row.schema := by
      rw [List.any_map, Bool.eq_iff_iff, List.any_eq_true, List.any_eq_true]
      refine exists_congr fun r => and_congr_right fun hr => ?_
      have hr' : r.serial = first.serial → r.row.schema = first.row.schema :=
        h r (List.mem_cons_of_mem _ hr) first List.mem_cons_self
      rw [Function.comp_apply, decide_eq_true_eq, decide_eq_true_eq]
      exact and_iff_right_of_imp (mt hr')
    rw [toTable, List.map_cons, Table.ofRows, hany]

end

/-! ### Commands -/

/-- What a command answers, as far as it belongs to a table or schema. -/
inductive Answer where
  | nothing
  | schema (s : SharedSchema)
  | table (i : Instance)
  | rows (rs : List SharedRow)

/-- An operation on tables and rows. -/
inductive Command where
  -- schemas and rows
  | share (schema : Schema)
  | newRow (s : SharedSchema) (values : List Value)
  | row (i : Instance) (index : Int)
  | toRows (i : Instance)
  -- tables that are built, and files
  | empty
  | ofFrame (f : Frame)
  | ofColumns (columns : List Column)
  | ofRows (rows : List SharedRow)
  | load (format : FileFormat) (o : Options) (path : String)
  | save (i : Instance) (format : FileFormat) (o : Options) (path : String)
  -- tables that are made from one
  | copy (i : Instance)
  | rename (i : Instance) (old new : String)
  | drop (i : Instance) (names : List String)
  | keep (i : Instance) (names : List String)
  | replace (i : Instance) (c : Column)
  | fit (e : Encoder) (i : Instance) (name : String)
  | transform (e : Encoder) (i : Instance) (name : String)
  | inverse (e : Encoder) (i : Instance) (name : String)
  | fitTransform (e : Encoder) (i : Instance) (names : List String)

namespace Command

/-- What the command does. All but the loading of a file can only fail. -/
def run : Command → Attempt Answer
  | share schema => .schema <$> SharedSchema.issue schema
  | newRow s values => (fun r => .rows [r]) <$> Action.ofResult (SharedRow.ofValues s values)
  | row i index => (fun r => .rows [r]) <$> Action.ofResult (i.row index)
  | toRows i => .rows <$> Action.ofResult i.toRows
  | empty => .table <$> Instance.empty
  | ofFrame f => .table <$> Instance.ofFrame f
  | ofColumns columns => .table <$> Instance.ofColumns columns
  | ofRows rows => .table <$> Instance.ofSharedRows rows
  | load format o path => .table <$> Instance.load format o path
  | save i format o path => (fun _ => .nothing) <$> i.save format o path
  | copy i => .table <$> i.copy
  | rename i old new => .table <$> i.rename old new
  | drop i names => .table <$> i.drop names
  | keep i names => .table <$> i.keep names
  | replace i c => .table <$> i.replace c
  | fit e i name => (fun _ => .nothing) <$> (i.fit name).withEncoder e
  | transform e i name => .table <$> i.transform e name
  | inverse e i name => .table <$> i.inverse e name
  | fitTransform e i names => .table <$> (i.fitTransform names).withEncoder e

/-- The table that the command answers once more: the one that is copied, the one whose column gets
its own name, or the one of which no column is encoded. Every other command that answers a table
makes a new one. -/
def repeats? : Command → Option Instance
  | copy i => some i
  | rename i old new => if old = new ∧ old ∈ i.table.columnNames then some i else none
  | fitTransform _ i [] => some i
  | _ => none

end Command

/-! ### Runs -/

/-- A session with everything that was made in it. -/
structure World where
  session : Session
  schemas : List SharedSchema
  tables : List Instance
  rows : List SharedRow

namespace World

/-- Whatever is answered is kept, and nothing that was made before is lost. -/
def record (w : World) : Except Interruption Answer × Session → World
  | (.ok (.schema x), s) => { w with session := s, schemas := x :: w.schemas }
  | (.ok (.table i), s) => { w with session := s, tables := i :: w.tables }
  | (.ok (.rows rs), s) => { w with session := s, rows := rs ++ w.rows }
  | (_, s) => { w with session := s }

def after (w : World) (c : Command) : World := w.record (c.run.run.run w.session)

/-- The command is about what there is in the world. Columns and encoders may come from anywhere. -/
def Offers (w : World) : Command → Prop
  | .share _ | .empty | .ofFrame _ | .load .. => True
  | .newRow s _ => s ∈ w.schemas
  | .ofColumns columns => ∀ c ∈ columns, Reachable (.column c)
  | .ofRows rows => ∀ r ∈ rows, r ∈ w.rows
  | .replace i c => i ∈ w.tables ∧ Reachable (.column c)
  | .fit e i _ | .transform e i _ | .inverse e i _ | .fitTransform e i _ =>
    i ∈ w.tables ∧ Reachable (.encoder e)
  | .row i _ | .toRows i | .save i .. | .copy i | .rename i .. | .drop i _ | .keep i _ =>
    i ∈ w.tables

end World

/-- The worlds that come about by commands, in any order and of any number, whether they succeed or
fail. Files change and events are taken in between. -/
inductive Run : World → Prop where
  | start (s : Session) : Run ⟨s, [], [], []⟩
  | command {w : World} {c : Command} : Run w → w.Offers c → Run (w.after c)
  | outside {w : World} (files : FileSystem) (events : List Event) : Run w →
      Run { w with session := { w.session with files := files, events := events } }

/-! ### One command -/

namespace World

/-- The schema is one that rows may share: it was made for rows, or a table has it. -/
def Shares (w : World) (x : SharedSchema) : Prop :=
  x ∈ w.schemas ∨ ∃ i ∈ w.tables, i.shared = x

/-- What is true of the numbers in a run. -/
structure Sound (w : World) : Prop where
  lt_issued : ∀ x, w.Shares x → x.serial < w.session.issued
  /-- One number means one schema. -/
  schema_eq : ∀ x y, w.Shares x → w.Shares y → x.serial = y.serial → x = y
  /-- One number means one table. -/
  table_eq : ∀ i ∈ w.tables, ∀ j ∈ w.tables, i.serial = j.serial → i = j
  shares_row : ∀ r ∈ w.rows, w.Shares r.shared
  reachable : ∀ i ∈ w.tables, Reachable (.table i.table)

end World

variable {w : World} {c : Command} {P : Table → Prop}

/-- What a command does to the numbers, by what it answers. -/
inductive Effect (w : World) (c : Command) : Except Interruption Answer × Session → Prop where
  | failed {e : Interruption} {s : Session} : s.issued = w.session.issued → Effect w c (.error e, s)
  | told {s : Session} : s.issued = w.session.issued → Effect w c (.ok .nothing, s)
  | shared {x : SharedSchema} {s : Session} : x.serial = w.session.issued →
      s.issued = w.session.issued + 1 → Effect w c (.ok (.schema x), s)
  | rows {rs : List SharedRow} {s : Session} : (∀ r ∈ rs, w.Shares r.shared) →
      s.issued = w.session.issued → Effect w c (.ok (.rows rs), s)
  | repeated {i : Instance} {s : Session} : c.repeats? = some i → i ∈ w.tables →
      s.issued = w.session.issued → Effect w c (.ok (.table i), s)
  | made {i : Instance} {s : Session} : c.repeats? = none → i.serial = w.session.issued →
      Reachable (.table i.table) → s.issued = w.session.issued + 1 →
      Effect w c (.ok (.table i), s)

namespace Effect

/-- An operation that takes no number and answers nothing has failed or has been told of. -/
theorem of_quiet {a : Action α} (h : a.Quiet) :
    Effect w c (((fun _ => Answer.nothing) <$> (liftM a : Attempt α)).run.run w.session) := by
  rw [run_map, Attempt.run_lift]
  obtain ⟨e, s, hrun, hs⟩ | ⟨x, s, hrun, hs⟩ := h.run_cases w.session
  · rw [hrun]
    exact failed hs
  · rw [hrun]
    exact told hs

/-- An operation that answers rows may do so if these belong to what is there. -/
theorem of_rows {r : Except Error α} {f : α → List SharedRow}
    (h : ∀ x, r = .ok x → ∀ q ∈ f x, w.Shares q.shared) :
    Effect w c (((fun x => Answer.rows (f x)) <$> (liftM (Action.ofResult r) : Attempt α)).run.run
      w.session) := by
  cases r with
  | error e => exact failed rfl
  | ok x => exact rows (h x rfl) rfl

/-- An operation that makes a table has made one that can be reached, or has failed. -/
theorem of_makes {a : Attempt Instance} (hc : c.repeats? = none) (h : a.Makes P)
    (hP : ∀ t, P t → Reachable (.table t)) :
    Effect w c ((Answer.table <$> a).run.run w.session) := by
  have hs := h w.session
  rw [run_map]
  generalize a.run.run w.session = y at hs ⊢
  -- a failure takes no number, and a success takes exactly one
  obtain ⟨e | i, s⟩ := y
  · exact failed hs
  · obtain ⟨hi, hp, hissued⟩ := hs
    exact made hc hi (hP i.table hp) hissued

/-- The same of an operation that can only fail. -/
theorem of_makes_lift {a : Action Instance} (hc : c.repeats? = none) (h : a.Makes P)
    (hP : ∀ t, P t → Reachable (.table t)) :
    Effect w c ((Answer.table <$> (liftM a : Attempt Instance)).run.run w.session) :=
  of_makes hc (Attempt.makes_lift h) hP

/-- A result that is built is a new table. -/
theorem of_build {r : Except Error Table} (hc : c.repeats? = none)
    (h : ∀ t, r = .ok t → Reachable (.table t)) :
    Effect w c ((Answer.table <$> (liftM (Action.build r) : Attempt Instance)).run.run w.session) :=
  of_makes_lift hc (Action.makes_build h) fun _ => id

end Effect

section

variable {i : Instance} {old : String}

/-- Under its own name the table is answered itself, and nothing is issued. -/
theorem Instance.rename_self_run (h : old ∈ i.table.columnNames) (s : Session) :
    (i.rename old old).run.run s = (.ok i, s) := by
  rw [rename_run, Table.rename_self h]
  exact if_pos rfl

/-- Renaming a column that is not there fails, also if it were to keep its name. -/
theorem Instance.rename_run_of_notMem {new : String} (h : old ∉ i.table.columnNames) (s : Session) :
    (i.rename old new).run.run s = (.error (.missingColumns [old]), s) := by
  rw [rename_run, Table.rename_of_notMem h]

/-- A command that repeats a table always succeeds, and answers this table. -/
theorem Command.run_of_repeats (h : c.repeats? = some i) (s : Session) :
    ∃ s', c.run.run.run s = (.ok (.table i), s') := by
  cases c with
  | copy j =>
    obtain rfl := Option.some.inj h
    exact ⟨s, rfl⟩
  | rename j old new =>
    -- only under its own name, and only if there is such a column, the table is repeated
    rw [repeats?] at h
    split at h
    · next hn =>
      obtain rfl := Option.some.inj h
      obtain ⟨rfl, hmem⟩ := hn
      refine ⟨s, ?_⟩
      rw [run, run_map, Attempt.run_lift, Instance.rename_self_run hmem]
      rfl
    · cases h
  | fitTransform e j names =>
    cases names with
    | nil =>
      obtain rfl := Option.some.inj h
      obtain ⟨told, -, hrun⟩ := j.fitTransform_run e [] s
      refine ⟨told, ?_⟩
      -- no name can be missing, and there is nothing to learn
      have hnil : j.table.schema.require [] = .ok () := Schema.require_eq_ok_iff.2 (by simp)
      rw [run, run_map, Attempt.run_lift, hrun, Encoder.fitTransform_run, hnil]
      rfl
    | cons name names => cases h
  | _ => cases h

end

/-- Rows of a run that have one number have one schema, so that it makes no difference whether the
numbers are compared first. -/
theorem World.Sound.toTable_eq (hw : w.Sound) {rows : List SharedRow} (h : ∀ r ∈ rows, r ∈ w.rows) :
    SharedRow.toTable rows = Table.ofRows (rows.map SharedRow.row) := by
  refine SharedRow.toTable_eq fun r hr q hq hs => ?_
  have hrq : r.shared = q.shared :=
    hw.schema_eq _ _ (hw.shares_row r (h r hr)) (hw.shares_row q (h q hq)) hs
  exact congrArg SharedSchema.schema hrq

/-- What one command does to the numbers: it fails or it only tells something, it hands out schemas
or rows that belong to what is there, it repeats a table that is there, or it makes a new one. -/
theorem Command.effect (hw : w.Sound) (hc : w.Offers c) : Effect w c (c.run.run.run w.session) := by
  -- each command is brought to one of the effects by the lemma about its operation
  cases c with
  | share schema => exact .shared rfl rfl
  | newRow s values =>
    refine .of_rows ?_
    intro r hr q hq
    rw [List.mem_singleton.1 hq, SharedRow.shared_of_ofValues hr]
    exact .inl hc
  | row i index =>
    refine .of_rows ?_
    intro r hr q hq
    rw [List.mem_singleton.1 hq, Instance.shared_of_row hr]
    exact .inr ⟨i, hc, rfl⟩
  | toRows i =>
    obtain ⟨n, cs, hh⟩ := (hw.reachable i hc).sound
    refine .of_rows ?_
    intro rs hrs q hq
    rw [Instance.shared_of_toRows hh hrs hq]
    exact .inr ⟨i, hc, rfl⟩
  | empty => exact .of_makes_lift rfl (Action.makes_issue Reachable.empty) fun _ => id
  | ofFrame f => exact .of_makes_lift rfl (Instance.makes_ofFrame f) fun t ht => .ofFrame ht
  | ofColumns columns => exact .of_build rfl fun t ht => .ofColumns hc ht
  | ofRows rows =>
    refine .of_build rfl ?_
    intro t ht
    -- the rows may come from different tables: what has one number has one schema, as `w` is sound
    rw [hw.toTable_eq hc] at ht
    exact .ofRows ht
  | load format o path =>
    refine .of_makes rfl (Instance.makes_load format o path) fun t ht => ?_
    obtain ⟨f, hf⟩ := ht
    exact .ofFrame hf
  | save i format o path => exact .of_quiet (i.quiet_save format o path)
  | copy i => exact .repeated rfl hc rfl
  | rename i old new =>
    -- the one operation that answers the same table or a new one, depending on what it is given
    by_cases hn : old = new
    · subst hn
      by_cases hmem : old ∈ i.table.columnNames
      · rw [run, run_map, Attempt.run_lift, Instance.rename_self_run hmem]
        exact .repeated (if_pos ⟨rfl, hmem⟩) hc rfl
      · rw [run, run_map, Attempt.run_lift, Instance.rename_run_of_notMem hmem]
        exact .failed rfl
    · refine .of_makes_lift (if_neg fun h => hn h.1) (i.makes_rename hn) fun t ht => ?_
      exact .rename (hw.reachable i hc) ht
  | drop i names => exact .of_build rfl fun t ht => .drop (hw.reachable i hc) ht
  | keep i names => exact .of_build rfl fun t ht => .keep (hw.reachable i hc) ht
  | replace i c => exact .of_build rfl fun t ht => .replace (hw.reachable i hc.1) hc.2 ht
  | fit e i name => exact .of_quiet (i.quiet_fit e name)
  | transform e i name =>
    exact .of_build rfl fun t ht => .transform hc.2 (hw.reachable i hc.1) ht
  | inverse e i name => exact .of_build rfl fun t ht => .inverse hc.2 (hw.reachable i hc.1) ht
  | fitTransform e i names =>
    obtain ⟨told, htold, hrun⟩ := i.fitTransform_run e names w.session
    rw [run, run_map, Attempt.run_lift, hrun]
    -- the encoder that is left is none of the objects of the world
    obtain ⟨⟨r, e'⟩, hr⟩ : ∃ y, (Encoder.fitTransform i.table names).run.run e = y := ⟨_, rfl⟩
    rw [hr]
    cases r with
    | error err => exact .failed rfl
    | ok t =>
      -- nothing is encoded without a name, and then no number is taken
      cases names with
      | nil => exact .repeated rfl hc.1 htold
      | cons name names =>
        exact .made rfl rfl (.fitTransform hc.2 (hw.reachable i hc.1) hr) rfl

/-! ### All commands of a run -/

namespace World

/-- Only the next number is looked at, so nothing changes as long as none is taken. -/
theorem Sound.of_session (hw : w.Sound) {s : Session} (hs : s.issued = w.session.issued) :
    Sound { w with session := s } := by
  refine ⟨fun x hx => ?_, hw.schema_eq, hw.table_eq, hw.shares_row, hw.reachable⟩
  have hlt : x.serial < w.session.issued := hw.lt_issued x hx
  exact hs ▸ hlt

/-- A schema with the next number is like none of those before. -/
theorem Sound.schema_eq_of_new (hw : w.Sound) {x y z : SharedSchema}
    (hx : x.serial = w.session.issued) (hy : y = x ∨ w.Shares y) (hz : z = x ∨ w.Shares z)
    (h : y.serial = z.serial) : y = z := by
  -- all old numbers are below the new one
  obtain rfl | hy := hy
  · obtain rfl | hz := hz
    · rfl
    · have hlt := hw.lt_issued z hz
      omega
  · obtain rfl | hz := hz
    · have hlt := hw.lt_issued y hy
      omega
    · exact hw.schema_eq y z hy hz h

end World

/-- A schema that is shared takes the next number, which no other one has. -/
theorem World.Sound.insert_schema (hw : w.Sound) {x : SharedSchema} {s : Session}
    (hx : x.serial = w.session.issued) (hs : s.issued = w.session.issued + 1) :
    Sound { w with session := s, schemas := x :: w.schemas } := by
  have hshares : ∀ y, Shares { w with session := s, schemas := x :: w.schemas } y ↔
      y = x ∨ w.Shares y := by
    intro y
    rw [Shares, Shares, List.mem_cons, or_assoc]
  refine ⟨fun y hy => ?_, fun y z hy hz => ?_, hw.table_eq, fun r hr => ?_, hw.reachable⟩
  · show y.serial < s.issued
    obtain rfl | hy := (hshares y).1 hy
    · omega
    · have hlt := hw.lt_issued y hy
      omega
  · exact hw.schema_eq_of_new hx ((hshares y).1 hy) ((hshares z).1 hz)
  · exact (hshares _).2 (.inr (hw.shares_row r hr))

/-- A table that is new has a number that no other table has. -/
theorem World.Sound.insert_table (hw : w.Sound) {i : Instance} {s : Session}
    (hi : i.serial = w.session.issued) (hreach : Reachable (.table i.table))
    (hs : s.issued = w.session.issued + 1) :
    Sound { w with session := s, tables := i :: w.tables } := by
  -- the schema of the new table is one that rows may share from now on
  have hshares : ∀ y, Shares { w with session := s, tables := i :: w.tables } y ↔
      y = i.shared ∨ w.Shares y := by
    intro y
    simp only [Shares, List.mem_cons, exists_eq_or_imp]
    rw [eq_comm, or_left_comm]
  have hlt : ∀ j ∈ w.tables, j.serial < i.serial := by
    intro j hj
    have hj := hw.lt_issued j.shared (.inr ⟨j, hj, rfl⟩)
    rwa [hi]
  refine ⟨fun y hy => ?_, fun y z hy hz => ?_, fun j hj k hk hjk => ?_, fun r hr => ?_,
    List.forall_mem_cons.2 ⟨hreach, hw.reachable⟩⟩
  · show y.serial < s.issued
    obtain rfl | hy := (hshares y).1 hy
    · show i.serial < s.issued
      omega
    · have hy := hw.lt_issued y hy
      omega
  · exact hw.schema_eq_of_new hi ((hshares y).1 hy) ((hshares z).1 hz)
  · -- the new table is the only one with its number, and the others keep theirs
    obtain hj | hj := List.mem_cons.1 hj
    · obtain hk | hk := List.mem_cons.1 hk
      · exact hj.trans hk.symm
      · exact absurd hjk (hj ▸ (hlt k hk).ne')
    · obtain hk | hk := List.mem_cons.1 hk
      · exact absurd hjk (hk ▸ (hlt j hj).ne)
      · exact hw.table_eq j hj k hk hjk
  · exact (hshares _).2 (.inr (hw.shares_row r hr))

/-- A table that is answered once more is none that was not there before. -/
theorem World.Sound.repeat_table (hw : w.Sound) {i : Instance} {s : Session} (hi : i ∈ w.tables)
    (hs : s.issued = w.session.issued) :
    Sound { w with session := s, tables := i :: w.tables } := by
  -- the list of tables is longer, but no table has been added
  have htables : ∀ j, j ∈ i :: w.tables ↔ j ∈ w.tables := by
    intro j
    rw [List.mem_cons, or_iff_right_iff_imp]
    rintro rfl
    exact hi
  have hshares : ∀ y, Shares { w with session := s, tables := i :: w.tables } y ↔ w.Shares y := by
    intro y
    simp only [Shares, htables]
  refine ⟨fun x hx => ?_, fun x y hx hy => ?_, fun j hj k hk => ?_, fun r hr => ?_, fun j hj => ?_⟩
  · exact hs ▸ hw.lt_issued x ((hshares x).1 hx)
  · exact hw.schema_eq x y ((hshares x).1 hx) ((hshares y).1 hy)
  · exact hw.table_eq j ((htables j).1 hj) k ((htables k).1 hk)
  · exact (hshares _).2 (hw.shares_row r hr)
  · exact hw.reachable j ((htables j).1 hj)

/-- Rows bring no schema of their own. -/
theorem World.Sound.insert_rows (hw : w.Sound) {rs : List SharedRow} {s : Session}
    (hrs : ∀ r ∈ rs, w.Shares r.shared) (hs : s.issued = w.session.issued) :
    Sound { w with session := s, rows := rs ++ w.rows } := by
  refine ⟨fun x hx => ?_, hw.schema_eq, hw.table_eq, fun r hr => ?_, hw.reachable⟩
  · exact hs ▸ hw.lt_issued x hx
  · obtain hr | hr := List.mem_append.1 hr
    · exact hrs r hr
    · exact hw.shares_row r hr

/-- Whatever a command does, what was true of the numbers is still true. -/
theorem Effect.sound {r : Except Interruption Answer × Session} (hw : w.Sound) (h : Effect w c r) :
    (w.record r).Sound := by
  cases h with
  | failed hs => exact hw.of_session hs
  | told hs => exact hw.of_session hs
  | shared hx hs => exact hw.insert_schema hx hs
  | rows hrs hs => exact hw.insert_rows hrs hs
  | repeated _ hi hs => exact hw.repeat_table hi hs
  | made _ hi hreach hs => exact hw.insert_table hi hreach hs

/-- What is true of the numbers is true after every run. -/
theorem Run.sound (h : Run w) : w.Sound := by
  induction h with
  | start s =>
    -- nothing has been made yet, so there is nothing to compare
    exact ⟨by simp [World.Shares], by simp [World.Shares], by simp, by simp, by simp⟩
  | command _ hc ih => exact (Command.effect ih hc).sound ih
  | outside files events _ ih => exact ih.of_session rfl

/-! ### Identity -/

theorem Instance.same_iff {i j : Instance} : i.same j = true ↔ i.serial = j.serial := beq_iff_eq

/-- One table is equal to itself also under two numbers. -/
theorem Instance.beq_of_table_eq {i j : Instance} (h : i.table.Consistent)
    (hij : i.table = j.table) : (i == j) = true := by
  obtain ⟨n, cs, hh⟩ := h
  show (i.same j || i.table == j.table) = true
  rw [← hij, hh.beq_self, Bool.or_true]

namespace Run

variable {i j : Instance}

/-- In a run two tables with one number are one table. -/
theorem table_eq_of_same (h : Run w) (hi : i ∈ w.tables) (hj : j ∈ w.tables)
    (hs : i.same j = true) : i.table = j.table :=
  congrArg Instance.table (h.sound.table_eq i hi j hj (Instance.same_iff.1 hs))

/-- Looking at the numbers first does not change the comparison of tables. -/
theorem beq_iff (h : Run w) (hi : i ∈ w.tables) (hj : j ∈ w.tables) :
    (i == j) = true ↔ (i.table == j.table) = true := by
  obtain ⟨n, cs, hh⟩ := (h.sound.reachable i hi).sound
  show (i.same j || i.table == j.table) = true ↔ _
  rw [Bool.or_eq_true, or_iff_right_iff_imp]
  intro hs
  -- one number, hence one table, which is equal to itself
  rw [← h.table_eq_of_same hi hj hs]
  exact hh.beq_self

/-- Every table of a run has a number that was issued before. -/
theorem serial_lt_issued (h : Run w) (hi : i ∈ w.tables) : i.serial < w.session.issued :=
  h.sound.lt_issued i.shared (.inr ⟨i, hi, rfl⟩)

/-- So the next number is none that a table has. -/
theorem same_eq_false_of_new (h : Run w) (hi : i ∈ w.tables) (hj : j.serial = w.session.issued) :
    i.same j = false := by
  rw [Bool.eq_false_iff, Ne, Instance.same_iff, hj]
  exact (h.serial_lt_issued hi).ne

/-- A table that a command makes has another number than all tables before. -/
theorem same_eq_false (h : Run w) (hc : w.Offers c) (hn : c.repeats? = none) {s : Session}
    (hj : c.run.run.run w.session = (.ok (.table j), s)) (hi : i ∈ w.tables) :
    i.same j = false := by
  have heffect : Effect w c (.ok (.table j), s) := hj ▸ Command.effect h.sound hc
  cases heffect with
  | repeated hrep _ _ =>
    rw [hn] at hrep
    cases hrep
  | made _ hserial _ _ => exact h.same_eq_false_of_new hi hserial

/-- In every run, tables with one number are one table, so that the comparison of tables says
whether their names, types, numbers of rows and cells are the same, even though it looks at the
numbers first. A table that a command makes has a number that no table had before, and a command
that repeats a table succeeds with this very table. -/
theorem number_determines_table (h : Run w) :
    (∀ i ∈ w.tables, ∀ j ∈ w.tables, i.same j = true → i.table = j.table) ∧
    (∀ i ∈ w.tables, ∀ j ∈ w.tables, (i == j) = true ↔ i.table.SameContent j.table) ∧
    (∀ (c : Command) j s, w.Offers c → c.repeats? = none →
      c.run.run.run w.session = (.ok (.table j), s) → ∀ i ∈ w.tables, i.same j = false) ∧
    ∀ (c : Command) (i : Instance), c.repeats? = some i →
      ∃ j s, c.run.run.run w.session = (.ok (.table j), s) ∧ i.same j = true ∧
        j.table = i.table := by
  refine ⟨fun i hi j hj => h.table_eq_of_same hi hj, fun i hi j hj => ?_,
    fun c j s hc hn hj i hi => h.same_eq_false hc hn hj hi, fun c i hc => ?_⟩
  · obtain ⟨n, cs, hhi⟩ := (h.sound.reachable i hi).sound
    obtain ⟨k, ds, hhj⟩ := (h.sound.reachable j hj).sound
    rw [h.beq_iff hi hj]
    exact hhi.equal_iff_sameContent hhj
  · obtain ⟨s, hs⟩ := Command.run_of_repeats hc w.session
    exact ⟨i, s, hs, Instance.same_iff.2 rfl, rfl⟩

/-- The rows of a table make a table with another number and the same content. -/
theorem number_determines_table_scores : ∃ w i j, Run w ∧ i ∈ w.tables ∧ j ∈ w.tables ∧
    i.same j = false ∧ (i == j) = true ∧ i.table.SameContent j.table := by
  obtain ⟨v, i, j, s, hv, hi, hj, hij⟩ : ∃ (v : World) (i j : Instance) (s : Session), Run v ∧
      i ∈ v.tables ∧ (Command.ofRows v.rows).run.run.run v.session = (.ok (.table j), s) ∧
      (i == j) = true :=
    ⟨_, _, _, _, .command (c := .toRows _) (.command (c := .ofFrame .scores) (.start .initial)
      trivial) List.mem_cons_self, List.mem_cons_self, rfl, rfl⟩
  -- the rows are those of the table at hand, so they may be offered
  have hoffers : v.Offers (.ofRows v.rows) := fun r hr => hr
  have hw : Run (v.after (.ofRows v.rows)) := .command hv hoffers
  have htables : (v.after (.ofRows v.rows)).tables = j :: v.tables := by
    rw [World.after, hj]
    rfl
  have hiw : i ∈ (v.after (.ofRows v.rows)).tables := htables ▸ List.mem_cons_of_mem j hi
  have hjw : j ∈ (v.after (.ofRows v.rows)).tables := htables ▸ List.mem_cons_self
  exact ⟨_, i, j, hw, hiw, hjw, (number_determines_table hv).2.2.1 _ j s hoffers rfl hj i hi, hij,
    ((number_determines_table hw).2.1 i hiw j hjw).1 hij⟩

end Run

end Tabula
