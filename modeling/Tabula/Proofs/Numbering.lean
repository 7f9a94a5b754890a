import Tabula.Proofs.Outcome
import Tabula.Storage

/-!
# How operations take numbers

The numbers of tables say which tables are the same, so it matters when one is taken. An operation
either takes none, or it takes the next one for the single table that it answers, and then only if
it succeeds. Each operation is put on one of the two sides here, along its parts.

* `Action.Quiet` — an operation that takes no number.
* `Action.Makes` — an operation that makes a new table, with what is known of the table, and
  `Attempt.Makes` — the same of an operation that may take the program down.
* `EncoderAction.withEncoder` — an operation with an encoder at hand, seen from the session.
-/

namespace Tabula

variable {α β : Type} {P : Table → Prop}

namespace Action

/-! ### Operations that take no number -/

/-- The operation takes no number, whatever it answers. -/
def Quiet (a : Action α) : Prop := ∀ s, (a.run.run s).2.issued = s.issued

theorem quiet_pure (x : α) : Quiet (pure x) := fun _ => rfl

theorem quiet_ofResult (r : Except Error α) : Quiet (ofResult r) := fun _ => rfl

theorem quiet_log (level : Level) (text : String) : Quiet (log level text) := fun _ => rfl

/-- An operation that takes no number fails or answers, and leaves the next number as it was. -/
theorem Quiet.run_cases {a : Action α} (ha : a.Quiet) (s : Session) :
    (∃ e s', a.run.run s = (.error e, s') ∧ s'.issued = s.issued) ∨
      ∃ x s', a.run.run s = (.ok x, s') ∧ s'.issued = s.issued := by
  have hs : (a.run.run s).2.issued = s.issued := ha s
  generalize a.run.run s = y at hs ⊢
  obtain ⟨e | x, s'⟩ := y
  · exact .inl ⟨e, s', rfl, hs⟩
  · exact .inr ⟨x, s', rfl, hs⟩

/-- Two operations in a row take no number if neither of them does. -/
theorem Quiet.bind {a : Action α} {f : α → Action β} (ha : a.Quiet) (hf : ∀ x, (f x).Quiet) :
    (a >>= f).Quiet := by
  intro s
  rw [run_bind]
  -- a first operation that fails is the last one
  obtain ⟨e, s', hrun, hs⟩ | ⟨x, s', hrun, hs⟩ := ha.run_cases s
  · rw [hrun]
    exact hs
  · rw [hrun]
    exact (hf x s').trans hs

/-- Telling events one after the other is telling all of them at once. -/
theorem run_forM_log (events : List Event) (s : Session) :
    (events.forM fun e => log e.level e.text).run.run s =
      (.ok (), { s with events := s.events ++ events }) := by
  induction events generalizing s with
  | nil =>
    rw [List.append_nil]
    rfl
  | cons e events ih =>
    show (log e.level e.text >>= fun _ => events.forM fun e => log e.level e.text).run.run s = _
    rw [run_bind]
    show (events.forM fun e => log e.level e.text).run.run { s with events := s.events ++ [e] } = _
    rw [ih, List.append_assoc, List.singleton_append]

theorem quiet_forM_log (events : List Event) :
    Quiet (events.forM fun e => log e.level e.text) := by
  intro s
  rw [run_forM_log]

/-- An operation that looks at the session first may write back what it has seen. -/
theorem quiet_get_bind {f : Session → Action α} (h : ∀ s, ((f s).run.run s).2.issued = s.issued) :
    (get >>= f : Action α).Quiet := h

/-! ### Operations that make a table -/

/-- The operation answers a table with the next number and the property `P`, and takes that number;
if it fails it takes none. -/
def Makes (P : Table → Prop) (a : Action Instance) : Prop :=
  ∀ s, match a.run.run s with
    | (.ok i, s') => i.serial = s.issued ∧ P i.table ∧ s'.issued = s.issued + 1
    | (.error _, s') => s'.issued = s.issued

/-- An operation that fails takes no number, so nothing is asked of it. -/
theorem makes_throw (e : Error) : Makes P (throw e) := fun _ => rfl

/-- Issuing a table is the one place where a number is taken. -/
theorem makes_issue {t : Table} (h : P t) : (issue t).Makes P := fun _ => ⟨rfl, h, rfl⟩

/-- What goes before a table is made may not take a number, or the table would get the one after. -/
theorem Quiet.makes_bind {a : Action α} {f : α → Action Instance} (ha : a.Quiet)
    (hf : ∀ x, (f x).Makes P) : (a >>= f).Makes P := by
  intro s
  rw [run_bind]
  obtain ⟨e, s', hrun, hs⟩ | ⟨x, s', hrun, hs⟩ := ha.run_cases s
  · rw [hrun]
    exact hs
  · have hx := hf x s'
    rw [hrun]
    rwa [hs] at hx

/-- A result is at hand or not before a table is made of it. -/
theorem makes_ofResult_bind {r : Except Error α} {f : α → Action Instance}
    (h : ∀ x, r = .ok x → (f x).Makes P) : (ofResult r >>= f).Makes P := by
  cases r with
  | error e => exact fun s => rfl
  | ok x => exact h x rfl

/-- A table that there is takes the next number. -/
theorem build_run {r : Except Error Table} {t : Table} (h : r = .ok t) (s : Session) :
    (build r).run.run s = (.ok ⟨s.issued, t⟩, { s with issued := s.issued + 1 }) := by
  rw [h]
  rfl

/-- Building a table makes it, with all that is known of the result. -/
theorem makes_build {r : Except Error Table} (h : ∀ t, r = .ok t → P t) : (build r).Makes P :=
  makes_ofResult_bind fun t ht => makes_issue (h t ht)

/-- What is known of the table may be told in another way. -/
theorem Makes.mono {Q : Table → Prop} {a : Action Instance} (ha : a.Makes P)
    (h : ∀ t, P t → Q t) : a.Makes Q := by
  intro s
  have hs := ha s
  generalize a.run.run s = y at hs ⊢
  obtain ⟨e | i, s'⟩ := y
  · exact hs
  · exact ⟨hs.1, h _ hs.2.1, hs.2.2⟩

/-! ### Files -/

theorem quiet_checkOptions (o : Options) : Quiet (checkOptions o) := quiet_ofResult _

/-- Looking a file up leaves the session as it is, whatever is found. -/
theorem quiet_openFile (format : FileFormat) (path : String) : Quiet (openFile format path) := by
  refine quiet_get_bind fun s => ?_
  split
  · rfl
  · rfl
  · rfl

/-- Directories are made without a number. -/
theorem quiet_ensureParents (format : FileFormat) (path : String) :
    Quiet (ensureParents format path) := by
  unfold ensureParents
  -- only a parent with a name asks for anything, and then just the files change
  split
  · exact quiet_pure _
  · exact quiet_pure _
  · refine quiet_get_bind fun s => ?_
    split
    split
    · rfl
    · rfl

/-- Files are written without a number. -/
theorem quiet_writeFile (format : FileFormat) (path : String) (contents : ByteArray) :
    Quiet (writeFile format path contents) := by
  refine quiet_get_bind fun s => ?_
  split
  · rfl
  · rfl
  · rfl

end Action

/-! ### Operations that may take the program down -/

namespace Attempt

/-- An operation that can only fail is run as it is by itself, and what it fails with is told. -/
theorem run_lift (a : Action α) (s : Session) :
    (liftM a : Attempt α).run.run s = ((a.run.run s).1.mapError .failure, (a.run.run s).2) := rfl

/-- The operation answers a table with the next number and the property `P`, and takes that number;
if it does not answer it takes none. -/
def Makes (P : Table → Prop) (a : Attempt Instance) : Prop :=
  ∀ s, match a.run.run s with
    | (.ok i, s') => i.serial = s.issued ∧ P i.table ∧ s'.issued = s.issued + 1
    | (.error _, s') => s'.issued = s.issued

theorem makes_throw (e : Interruption) : Makes P (throw e) := fun _ => rfl

/-- An operation that makes a table also makes it as part of an attempt. -/
theorem makes_lift {a : Action Instance} (h : a.Makes P) : Makes P (liftM a) := by
  intro s
  have hs := h s
  rw [run_lift]
  generalize a.run.run s = y at hs ⊢
  -- the error is told in another way, and the session is the same
  obtain ⟨e | i, s'⟩ := y
  · exact hs
  · exact hs

/-- What goes before in an attempt may not take a number either. -/
theorem makes_lift_bind {a : Action α} {f : α → Attempt Instance} (ha : a.Quiet)
    (hf : ∀ x, (f x).Makes P) : Makes P (liftM a >>= f) := by
  intro s
  rw [run_bind, run_lift]
  obtain ⟨e, s', hrun, hs⟩ | ⟨x, s', hrun, hs⟩ := ha.run_cases s
  · rw [hrun]
    exact hs
  · have hx := hf x s'
    rw [hrun]
    rwa [hs] at hx

end Attempt

namespace EncoderAction

/-- The operation with the encoder at hand, seen from the session. What becomes of the encoder is
not told. -/
def withEncoder (e : Encoder) (a : EncoderAction α) : Action α :=
  ExceptT.mk (Prod.fst <$> a.run.run e)

/-- A call of the encoder leaves the session as it is. -/
theorem run_ofCall (c : Encoder.Call α) (e : Encoder) (s : Session) :
    ((ofCall c).run.run e).run s = (c.run.run e, s) := rfl

end EncoderAction

namespace Instance

open EncoderAction

variable (i : Instance) (format : FileFormat) (o : Options) (path : String)

/-- Saving a table takes no number. -/
theorem quiet_save : (i.save format o path).Quiet := by
  -- the file is written in the same way whether or not the directories above are made first
  have hwrite : Action.Quiet (do
      Action.createFile format path
      let text ←
        Action.ofResult ((i.table.document format o).mapError (.fileTable .write format path))
      Action.writeFile format path (String.ofList text).toUTF8
      Action.log .info ("Table saved: " ++ path)) :=
    (Action.quiet_writeFile format path _).bind fun _ => (Action.quiet_ofResult _).bind fun _ =>
      (Action.quiet_writeFile format path _).bind fun _ => Action.quiet_log _ _
  refine (Action.quiet_checkOptions o).bind fun _ => ?_
  dsimp only
  split
  · exact (Action.quiet_ensureParents format path).bind fun _ => hwrite
  · exact hwrite

/-- The table of a frame that was read is a new one. -/
theorem makes_ofRead (f : Frame) :
    (ofRead format path f).Makes fun t => Table.ofFrame f = .ok t := by
  refine (Action.quiet_forM_log _).makes_bind fun _ =>
    Action.makes_ofResult_bind fun t ht => (Action.quiet_log _ _).makes_bind fun _ => ?_
  exact Action.makes_issue (mapError_eq_ok_iff.1 ht)

/-- Loading makes a table of some frame, or takes no number at all. -/
theorem makes_load : (load format o path).Makes fun t => ∃ f, Table.ofFrame f = .ok t := by
  -- options, file and contents are looked at first, and none of these takes a number
  refine Attempt.makes_lift_bind (Action.quiet_checkOptions o) fun _ =>
    Attempt.makes_lift_bind (Action.quiet_openFile format path) fun entry => ?_
  split
  · exact Attempt.makes_throw _
  · exact Attempt.makes_throw _
  · next f _ => exact Attempt.makes_lift ((makes_ofRead format path f).mono fun t ht => ⟨f, ht⟩)

/-- Before the table of a frame is made, only what happens to its series is told. -/
theorem ofFrame_run (f : Frame) (s : Session) : (ofFrame f).run.run s =
    (Action.build (Table.ofFrame f)).run.run
      { s with events := s.events ++ normalizationEvents f.series } := by
  rw [ofFrame, run_bind, Action.run_forM_log]

theorem makes_ofFrame (f : Frame) : (ofFrame f).Makes fun t => Table.ofFrame f = .ok t := by
  refine (Action.quiet_forM_log _).makes_bind fun _ => ?_
  exact Action.makes_build fun t ht => ht

/-- Under its own name the table is answered as it is, and otherwise the new one with the next
number. -/
theorem rename_run (old new : String) (s : Session) : (i.rename old new).run.run s =
    match i.table.rename old new with
    | .error e => (.error e, s)
    | .ok t =>
      if old = new then (.ok i, s)
      else (.ok ⟨s.issued, t⟩, { s with issued := s.issued + 1 }) := by
  rw [rename]
  cases i.table.rename old new with
  | error e => rfl
  | ok t =>
    show (if old = new then (return i : Action Instance) else Action.issue t).run.run s = _
    -- under its own name the table is answered without being issued
    split
    · rfl
    · rfl

/-- Under another name the renamed table is a new one. -/
theorem makes_rename {old new : String} (h : old ≠ new) :
    (i.rename old new).Makes fun t => i.table.rename old new = .ok t := by
  refine Action.makes_ofResult_bind fun t ht => ?_
  rw [if_neg h]
  exact Action.makes_issue ht

/-- Fitting an encoder makes no table. -/
theorem quiet_fit (e : Encoder) (name : String) : ((i.fit name).withEncoder e).Quiet := by
  intro s
  show (((i.fit name).run.run e).run s).2.issued = s.issued
  rw [fit, run_run_bind, run_ofCall]
  generalize (Encoder.fit i.table name).run.run e = y
  obtain ⟨x | x, e'⟩ := y
  · rfl
  · rfl

/-- Without a name the table is answered as it is, and otherwise the new one with the next
number. -/
theorem fitTransform_run (e : Encoder) (names : List String) (s : Session) :
    ∃ told : Session, told.issued = s.issued ∧
      ((i.fitTransform names).withEncoder e).run.run s =
        match (Encoder.fitTransform i.table names).run.run e with
        | (.error err, _) => (.error err, s)
        | (.ok t, _) =>
          if names.isEmpty then (.ok i, told)
          else (.ok ⟨s.issued, t⟩, { told with issued := s.issued + 1 }) := by
  -- the encoder that is left is not looked at any more
  have hrun : ((i.fitTransform names).withEncoder e).run.run s =
      ((((i.fitTransform names).run.run e).run s).1.1,
        (((i.fitTransform names).run.run e).run s).2) := rfl
  rw [hrun, fitTransform, run_run_bind, run_ofCall]
  generalize (Encoder.fitTransform i.table names).run.run e = y
  obtain ⟨err | t, e'⟩ := y
  · exact ⟨s, rfl, rfl⟩
  · -- telling of the columns leaves another session, but no other number
    let text := " fit_transform encoded " ++ toString names.length ++ " column(s)"
    refine ⟨(((log .info text).run.run e').run s).2, rfl, ?_⟩
    cases names.isEmpty with
    | true => rfl
    | false => rfl

end Instance

end Tabula
