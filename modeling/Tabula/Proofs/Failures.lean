import Tabula.Proofs.Equality
import Tabula.Proofs.Lifecycle
import Tabula.Proofs.Reachable

/-!
# What the calls of an encoder come to

Of the failures that an encoder can meet, each call reports only a few, and in a fixed order of
precedence: a column that does not exist, then a mapping that is missing, then a value that has no
code; or, where mappings are learned, a column that cannot be learned. No failure of what happens
inside, of building, replacing or reading a column, ever comes out.

* `Error.isForeign` — the errors that a caller of an encoder never gets to see.
* `Mapping.Recodes` — encoding and decoding in one: the first cell that nothing stands for decides.
* `Rule.encodeColumns_cases` — the first column that cannot be learned decides.
* `Encoder.Fits`, `Encoder.Applies`, `Encoder.FitsAll` — the outcomes of the calls, each with the
  condition under which it is the one; `Operation.Outcome` — these together.
* `Encoder.outcome_iff` — what every call on every reachable table comes to.
-/

namespace Tabula

/-- Whether the error, or one that it is put around, is about a type, a length, a repeated name or
the storage. -/
def Error.isForeign : Error → Bool
  | duplicateColumn _ | unsupportedType .. | typeMismatch .. | lengthMismatch .. | engine _ => true
  | fitFailed _ e | fileTable _ _ _ e | context _ e => e.isForeign
  | _ => false

/-! ### Recoding columns -/

/-- The first element on which an operation fails decides, if it succeeds on those before. -/
theorem mapM_eq_error_of_find? {α β : Type} {f : α → Except Error β} {bad : α → Bool} {xs : List α}
    {x : α} {err : Error} (hok : ∀ x, bad x = false → ∃ y, f x = .ok y)
    (h : xs.find? bad = some x) (hx : f x = .error err) : xs.mapM f = .error err := by
  induction xs with
  | nil => cases h
  | cons a xs ih =>
    rw [List.mapM_cons]
    -- the first element is the bad one, or it succeeds and the search goes on
    cases hb : bad a with
    | true =>
      rw [List.find?_cons_of_pos hb] at h
      obtain rfl := Option.some.inj h
      rw [hx, error_bind]
    | false =>
      rw [List.find?_cons_of_neg (Bool.not_eq_true _ ▸ hb)] at h
      obtain ⟨y, hy⟩ := hok a hb
      rw [hy, ok_bind, ih h, error_bind]

namespace Mapping

/-- The first value, from the top, that is there and for which nothing stands. -/
def unknown? (look : Value → Option Value) (vs : List Value) : Option Value :=
  vs.find? fun v => !v.isNull && (look v).isNone

/-- The value that stands for a cell; an empty cell stays empty. -/
def lookCell (look : Value → Option Value) (column : String) (v : Value) : Except Error Value :=
  if v.isNull then .ok .null
  else match look v with
    | some w => .ok w
    | none => .error (.unknownCategory column v.display)

/-- A column, once each of its cells is replaced by what stands for it. -/
structure Recodes (look : Mapping → Value → Option Value)
    (recode : Mapping → Column → Except Error Column) : Prop where
  unknown : ∀ m c vs v, c.values = .ok vs → unknown? (look m) vs = some v →
    recode m c = .error (.unknownCategory c.name v.display)
  known : ∀ m c vs, m.Sound → c.values = .ok vs → unknown? (look m) vs = none →
    ∃ d, recode m c = .ok d ∧ d.Canonical ∧ d.name = c.name ∧ d.length = c.length

/-- A cell that nothing stands for is reported with its value as it is shown. -/
theorem lookCell_of_unknown {look : Value → Option Value} {name : String} {v : Value}
    (h : (!v.isNull && (look v).isNone) = true) :
    lookCell look name v = .error (.unknownCategory name v.display) := by
  rw [Bool.and_eq_true, Bool.not_eq_true', Option.isNone_iff_eq_none] at h
  rw [lookCell, h.1, h.2]
  rfl

/-- A null stays one, and any other cell becomes what stands for it. -/
theorem lookCell_of_known {look : Value → Option Value} {name : String} {v : Value}
    (h : (!v.isNull && (look v).isNone) = false) :
    ∃ w, lookCell look name v = .ok w ∧ (w = .null ∨ look v = some w) := by
  rw [lookCell]
  cases hn : v.isNull with
  | true => exact ⟨.null, rfl, .inl rfl⟩
  | false =>
    cases hl : look v with
    | some w => exact ⟨w, rfl, .inr rfl⟩
    | none =>
      rw [hn, hl] at h
      cases h

/-- What is done to each cell decides on the column. -/
theorem recodes_of_lookCell {look : Mapping → Value → Option Value} (type : Mapping → ColumnType)
    {recode : Mapping → Column → Except Error Column}
    (hrecode : ∀ m c, recode m c = (do
      Column.ofValues c.name (type m) (← (← c.values).mapM (lookCell (look m) c.name))))
    (haccepts : ∀ m v w, m.Sound → look m v = some w → (type m).accepts w = true) :
    Recodes look recode := by
  constructor
  · -- a cell nothing stands for: the first of them is reported
    intro m c vs v hvs hv
    have hcells : vs.mapM (lookCell (look m) c.name) =
        .error (.unknownCategory c.name v.display) := by
      have hfound := List.find?_some hv
      refine mapM_eq_error_of_find? ?_ hv (lookCell_of_unknown hfound)
      intro v hv
      obtain ⟨w, hw, -⟩ := lookCell_of_known hv
      exact ⟨w, hw⟩
    rw [hrecode, hvs, ok_bind, hcells, error_bind]
  · -- no such cell: a column is built, of the same name and length
    intro m c vs hm hvs hv
    rw [unknown?, List.find?_eq_none] at hv
    have hcell : ∀ v ∈ vs, ∃ w, lookCell (look m) c.name v = .ok w ∧
        (type m).accepts w = true := by
      intro v hmem
      obtain ⟨w, hw, rfl | hl⟩ := lookCell_of_known (Bool.eq_false_iff.2 (hv v hmem))
      · exact ⟨.null, hw, rfl⟩
      · exact ⟨w, hw, haccepts m v w hm hl⟩
    obtain ⟨d, hd⟩ := Column.exists_ofValues_mapM hcell
    obtain ⟨hdc, hdn, -, ws, hws, hcells⟩ := Column.ofValues_mapM_eq_ok_iff.1 hd
    refine ⟨d, ?_, hdc, hdn, ?_⟩
    · rw [hrecode, hvs, ok_bind]
      exact hd
    · calc d.length = ws.length := (Series.values_spec hws).2.1.symm
        _ = vs.length := hcells.length_eq.symm
        _ = c.length := (Series.values_spec hvs).2.1

/-- Values with a code can be encoded. -/
theorem recodes_encode : Recodes (fun m v => (m.codeOf v).map .integer) encode := by
  apply recodes_of_lookCell fun _ => .integer
  · intro m c
    have hcell : m.encodeCell c.name = lookCell (fun v => (m.codeOf v).map .integer) c.name := by
      funext v
      rw [encodeCell, lookCell]
      cases m.codeOf v with
      | some code => rfl
      | none => rfl
    rw [encode, hcell]
  · intro m v w _ hw
    obtain ⟨code, -, rfl⟩ := Option.map_eq_some_iff.1 hw
    rfl

/-- Codes with a category can be decoded, and the categories are of the type of the mapping. -/
theorem recodes_decode : Recodes (fun m v => (codeIn v).bind m.categoryOf) decode := by
  apply recodes_of_lookCell Mapping.type
  · intro m c
    rfl
  · intro m v w hm hw
    obtain ⟨code, -, hcat⟩ := Option.bind_eq_some_iff.1 hw
    exact hm.accepts w (mem_categories_of_categoryOf hcat)

end Mapping

/-! ### Encoding several columns -/

namespace Rule

variable {r : Rule} {t u : Table} {n p : Nat} {cs : List Column} {names done rest : List String}

/-- What is learned for a column after the columns `done` are encoded. -/
def LearnsAt (r : Rule) (t : Table) (done : List String) (name : String)
    (x : Except Error Mapping) : Prop :=
  ∃ u learned c, r.encodeColumns 0 t done = .ok (u, learned) ∧ u.column name = .ok c ∧
    r.learn c done.length = x

/-- A column that fails after others were encoded fails for all of them together. -/
theorem encodeColumns_append_of_error {learned : List (String × Mapping)} {err : Error}
    (hdone : r.encodeColumns p t done = .ok (u, learned))
    (hrest : r.encodeColumns (p + done.length) u rest = .error err) :
    r.encodeColumns p t (done ++ rest) = .error err := by
  induction done generalizing p t learned with
  | nil =>
    -- with nothing done before, the failure is that of the call itself
    obtain ⟨rfl, -⟩ := Prod.mk.inj (Except.ok.inj hdone)
    exact hrest
  | cons name done ih =>
    obtain ⟨c, m, d, w, later, hc, hm, hd, hw, hlater, -⟩ :=
      encodeColumns_cons_eq_ok_iff.1 hdone
    have hlen : p + (name :: done).length = p + 1 + done.length := by
      rw [List.length_cons]
      omega
    rw [hlen] at hrest
    rw [List.cons_append, encodeColumns_cons hc hm hd hw, ih hlater hrest, error_bind]

/-- Existing columns are all encoded, or there is a first one that cannot be learned. -/
theorem encodeColumns_cases (h : t.Holds n cs) (hnames : ∀ k ∈ names, k ∈ t.columnNames) :
    (∃ u learned, r.encodeColumns p t names = .ok (u, learned)) ∨
      ∃ done name rest u learned c fault, names = done ++ name :: rest ∧
        r.encodeColumns p t done = .ok (u, learned) ∧ u.column name = .ok c ∧
          r.learn c (p + done.length) = .error (.learning name fault) := by
  induction names generalizing p t cs with
  | nil => exact .inl ⟨t, [], rfl⟩
  | cons name names ih =>
    obtain ⟨hname, hnames⟩ := List.forall_mem_cons.1 hnames
    obtain ⟨c, hc, -, ⟨fault, hl⟩ | ⟨m, d, w, hm, hd, hw, hwh⟩⟩ := r.learn_or_encode h hname
    · exact .inr ⟨[], name, names, t, [], c, fault, rfl, rfl, hc, hl⟩
    · -- the table after the first column has the same names
      have hnames' : ∀ k ∈ names, k ∈ w.columnNames := by
        rwa [h.columnNames_replaced hwh]
      obtain ⟨u, learned, hu⟩ | ⟨done, name', rest, u, learned, b, fault, rfl, hdone, hb, hl⟩ :=
        ih (p := p + 1) hwh hnames'
      · exact .inl ⟨u, _, encodeColumns_cons_eq_ok_iff.2
          ⟨c, m, d, w, learned, hc, hm, hd, hw, hu, rfl⟩⟩
      · refine .inr ⟨name :: done, name', rest, u, (name, m) :: learned, b, fault, rfl, ?_, hb, ?_⟩
        · exact encodeColumns_cons_eq_ok_iff.2
            ⟨c, m, d, w, learned, hc, hm, hd, hw, hdone, rfl⟩
        · rw [List.length_cons, ← Nat.add_assoc, Nat.add_right_comm]
          exact hl

end Rule

namespace Encoder

variable {e : Encoder} {t : Table} {n : Nat} {cs : List Column} {name : String}
  {names : List String} {o : Operation} {x : Except Error Unit}

/-! ### Outcomes -/

/-- What learning a column comes to. -/
inductive Fits (e : Encoder) (t : Table) (name : String) : Except Error Unit → Prop
  | absent : name ∉ t.columnNames → Fits e t name (.error (.missingColumns [name]))
  | unlearnable {c : Column} {fault : LearningFault} : t.column name = .ok c →
      e.rule.learn c 0 = .error (.learning name fault) →
      Fits e t name (.error (.learning name fault))
  | learned {c : Column} {m : Mapping} : t.column name = .ok c → e.rule.learn c 0 = .ok m →
      Fits e t name (.ok ())

/-- What recoding a column by the stored mapping comes to, if it is known what stands for each
value. -/
inductive Applies (look : Mapping → Value → Option Value) (e : Encoder) (t : Table)
    (name : String) : Except Error Unit → Prop
  | absent : name ∉ t.columnNames → Applies look e t name (.error (.missingColumns [name]))
  | unfitted : name ∈ t.columnNames → e.mappings.get? name = none →
      Applies look e t name (.error (.notFitted name))
  | unknown {m : Mapping} {vs : List Value} {v : Value} : e.mappings.get? name = some m →
      t.columnValues name = .ok vs → Mapping.unknown? (look m) vs = some v →
      Applies look e t name (.error (.unknownCategory name v.display))
  | applied {m : Mapping} {vs : List Value} : e.mappings.get? name = some m →
      t.columnValues name = .ok vs → Mapping.unknown? (look m) vs = none →
      Applies look e t name (.ok ())

/-- What learning and encoding several columns comes to. -/
inductive FitsAll (e : Encoder) (t : Table) (names : List String) : Except Error Unit → Prop
  | absent : (∃ k ∈ names, k ∉ t.columnNames) → FitsAll e t names
      (.error (.missingColumns (names.filter fun k => k ∉ t.columnNames).eraseDups))
  | unlearnable {done rest : List String} {name : String} {fault : LearningFault} :
      (∀ k ∈ names, k ∈ t.columnNames) → names = done ++ name :: rest →
      e.rule.LearnsAt t done name (.error (.learning name fault)) →
      FitsAll e t names (.error (.fitFailed name (.learning name fault)))
  | encoded : (∀ k ∈ names, k ∈ t.columnNames) →
      (∀ done name rest, names = done ++ name :: rest →
        ∃ m, e.rule.LearnsAt t done name (.ok m)) →
      FitsAll e t names (.ok ())

namespace Operation

/-- The table that the call is about. -/
def table : Operation → Table
  | fit t _ | fitTransform t _ | transform t _ | inverse t _ => t

/-- What the call comes to, apart from the table that it makes. -/
def Outcome (e : Encoder) : Operation → Except Error Unit → Prop
  | fit t name => Fits e t name
  | fitTransform t names => FitsAll e t names
  | transform t name => Applies (fun m v => (m.codeOf v).map .integer) e t name
  | inverse t name => Applies (fun m v => (Mapping.codeIn v).bind m.categoryOf) e t name

end Operation

/-- A relation that leaves one choice, and this one, is being this one. -/
theorem eq_iff_of_forall {α : Type} {P : α → Prop} {a b : α} (hex : ∃ b, P b)
    (heq : ∀ b, P b → a = b) : a = b ↔ P b := by
  constructor
  · rintro rfl
    obtain ⟨b, hb⟩ := hex
    rwa [heq b hb]
  · exact heq b

/-! ### Learning a column -/

/-- Every call of fit comes to exactly one of its outcomes: the column is absent, cannot be learned,
or is learned. -/
theorem fits_iff (h : t.Holds n cs) : ((fit t name).run.run e).1 = x ↔ Fits e t name x := by
  apply eq_iff_of_forall
  · -- there always is an outcome
    by_cases hname : name ∈ t.columnNames
    · obtain ⟨c, hc, rfl⟩ := h.mem_columnNames_iff.1 hname
      have hcol : t.column c.name = .ok c := h.column_eq_ok_iff.2 ⟨hc, rfl⟩
      cases hl : e.rule.learn c 0 with
      | ok m => exact ⟨_, .learned hcol hl⟩
      | error err =>
        obtain ⟨fault, rfl⟩ := Rule.exists_fault_of_learn (h.canonical c hc) hl
        exact ⟨_, .unlearnable hcol hl⟩
    · exact ⟨_, .absent hname⟩
  · -- and each outcome is what the call answers under its condition
    intro y hy
    rw [fit_run]
    cases hy with
    | absent hname => rw [Table.column_of_notMem hname, error_bind]
    | unlearnable hc hl => rw [hc, ok_bind, hl]
    | learned hc hl => rw [hc, ok_bind, hl]

/-! ### Recoding a column -/

/-- The same of encoding and decoding, in one: the column is absent, has no mapping, holds a cell
that nothing stands for, or is replaced. -/
theorem applies_iff {look : Mapping → Value → Option Value}
    {recode : Mapping → Column → Except Error Column} (hr : Mapping.Recodes look recode)
    (he : e.Sound) (h : t.Holds n cs) :
    (do
      let c ← t.column name
      t.replace (← recode (← e.mappings.get name) c)).map (fun _ => ()) = x ↔
      Applies look e t name x := by
  apply eq_iff_of_forall
  · -- there always is an outcome
    by_cases hname : name ∈ t.columnNames
    · cases hm : e.mappings.get? name with
      | none => exact ⟨_, .unfitted hname hm⟩
      | some m =>
        obtain ⟨vs, hvs⟩ := h.exists_columnValues hname
        cases hv : Mapping.unknown? (look m) vs with
        | some v => exact ⟨_, .unknown hm hvs hv⟩
        | none => exact ⟨_, .applied hm hvs hv⟩
    · exact ⟨_, .absent hname⟩
  · -- and each of them is what the call answers under its condition
    intro y hy
    cases hy with
    | absent hname =>
      rw [Table.column_of_notMem hname]
      rfl
    | unfitted hname hm =>
      obtain ⟨c, hc, rfl⟩ := h.mem_columnNames_iff.1 hname
      rw [h.column_eq_ok_iff.2 ⟨hc, rfl⟩, ok_bind, MappingStore.get, hm]
      rfl
    | unknown hm hvs hv =>
      obtain ⟨c, hc, hcv⟩ := Table.columnValues_eq_ok_iff.1 hvs
      obtain ⟨-, rfl⟩ := h.column_eq_ok_iff.1 hc
      rw [hc, ok_bind, MappingStore.get_eq_ok_iff.2 hm, ok_bind, hr.unknown _ _ _ _ hcv hv]
      rfl
    | applied hm hvs hv =>
      obtain ⟨c, hc, hcv⟩ := Table.columnValues_eq_ok_iff.1 hvs
      obtain ⟨hmem, rfl⟩ := h.column_eq_ok_iff.1 hc
      obtain ⟨d, hd, hdc, hdn, hdl⟩ := hr.known _ _ _ (he _ _ hm) hcv hv
      -- the new column has the name and the length of the old one, so it takes its place
      have hdt : d.name ∈ t.columnNames := h.mem_columnNames_iff.2 ⟨c, hmem, hdn.symm⟩
      obtain ⟨u, hu, -⟩ := h.exists_replace hdc hdt (hdl.trans (h.length_eq c hmem))
      rw [hc, ok_bind, MappingStore.get_eq_ok_iff.2 hm, ok_bind, hd, ok_bind, hu]
      rfl

/-! ### Learning several columns -/

/-- A request for a column that does not exist is refused with all the names that do not. -/
theorem require_of_absent (h : ∃ k ∈ names, k ∉ t.columnNames) : t.schema.require names =
    .error (.missingColumns (names.filter fun k => k ∉ t.columnNames).eraseDups) := by
  rw [Schema.require_of_absent h, Schema.missing_eq]
  rfl

/-- The same of learning and encoding several columns: one of them is absent, the first that cannot
be learned is reported, or all are encoded. -/
theorem fitsAll_iff (h : t.Holds n cs) :
    ((fitTransform t names).run.run e).1.map (fun _ => ()) = x ↔ FitsAll e t names x := by
  apply eq_iff_of_forall
  · -- there always is an outcome
    by_cases habsent : ∃ k ∈ names, k ∉ t.columnNames
    · exact ⟨_, .absent habsent⟩
    · have hnames : ∀ k ∈ names, k ∈ t.columnNames := by
        push Not at habsent
        exact habsent
      obtain ⟨u, learned, hu⟩ | ⟨done, name, rest, u, learned, c, fault, rfl, hdone, hc, hl⟩ :=
        Rule.encodeColumns_cases (r := e.rule) (p := 0) h hnames
      · refine ⟨_, .encoded hnames ?_⟩
        rintro done name rest rfl
        obtain ⟨w, first, second, hfirst, hsecond, -⟩ := Rule.encodeColumns_append_eq_ok_iff.1 hu
        obtain ⟨c, m, d, w', later, hc, hm, -⟩ := Rule.encodeColumns_cons_eq_ok_iff.1 hsecond
        rw [Nat.zero_add] at hm
        exact ⟨m, w, first, c, hfirst, hc, hm⟩
      · rw [Nat.zero_add] at hl
        exact ⟨_, .unlearnable hnames rfl ⟨u, learned, c, hdone, hc, hl⟩⟩
  · -- and each of them is what the call answers under its condition
    intro y hy
    rw [fitTransform_run]
    cases hy with
    | absent habsent =>
      rw [require_of_absent habsent, error_bind]
      rfl
    | unlearnable hnames hsplit hl =>
      obtain ⟨u, learned, c, hdone, hc, hl⟩ := hl
      subst hsplit
      rw [Schema.require_eq_ok_iff.2 hnames, ok_bind, Rule.encodeColumns_append_of_error hdone]
      · rfl
      · rw [Nat.zero_add]
        exact Rule.encodeColumns_cons_of_learn_error hc hl
    | encoded hnames hall =>
      obtain ⟨u, learned, hu⟩ | ⟨done, name, rest, u, learned, c, fault, rfl, hdone, hc, hl⟩ :=
        Rule.encodeColumns_cases (r := e.rule) (p := 0) h hnames
      · rw [Schema.require_eq_ok_iff.2 hnames, ok_bind, hu]
        rfl
      · -- the column that could not be learned was learned
        obtain ⟨m, u', learned', c', hdone', hc', hm⟩ := hall done name rest rfl
        obtain ⟨rfl, -⟩ := Prod.mk.inj (Except.ok.inj (hdone.symm.trans hdone'))
        obtain rfl := Except.ok.inj (hc.symm.trans hc')
        rw [Nat.zero_add, hm] at hl
        cases hl

/-! ### All calls -/

theorem Operation.Outcome.isForeign_eq_false {err : Error} (h : o.Outcome e (.error err)) :
    err.isForeign = false := by
  cases o with
  | fit t name => cases h <;> rfl
  | fitTransform t names => cases h <;> rfl
  | transform t name => cases h <;> rfl
  | inverse t name => cases h <;> rfl

/-- What is answered after a call makes no difference to what it comes to. -/
theorem map_run_bind_pure {α : Type} (x : Call α) (f : α → Option Table) (e : Encoder) :
    ((x >>= fun a => pure (f a)).run.run e).1.map (fun _ => ()) =
      (x.run.run e).1.map fun _ => () := by
  rw [run_bind]
  generalize x.run.run e = y
  obtain ⟨err | a, e'⟩ := y
  · rfl
  · rfl

/-- What a call comes to is decided by the conditions of its outcomes, and no error comes out of it
that is about a type, a length, a repeated name or the storage. -/
theorem outcome_iff (he : Reachable (.encoder e)) (ht : Reachable (.table o.table)) :
    (∀ x, (o.run e).1.map (fun _ => ()) = x ↔ o.Outcome e x) ∧
      ∀ err, (o.run e).1 = .error err → err.isForeign = false := by
  have hiff : ∀ x, (o.run e).1.map (fun _ => ()) = x ↔ o.Outcome e x := by
    intro x
    obtain ⟨n, cs, h⟩ := ht.sound
    cases o with
    | fit t name =>
      have hrun : ((Operation.fit t name).run e).1.map (fun _ => ()) =
          ((Encoder.fit t name).run.run e).1 :=
        (map_run_bind_pure (Encoder.fit t name) (fun _ => none) e).trans
          (congrFun Except.map_id _)
      rw [hrun]
      exact fits_iff h
    | fitTransform t names =>
      have hrun : ((Operation.fitTransform t names).run e).1.map (fun _ => ()) =
          ((Encoder.fitTransform t names).run.run e).1.map fun _ => () :=
        map_run_bind_pure (Encoder.fitTransform t names) some e
      rw [hrun]
      exact fitsAll_iff h
    | transform t name =>
      have hrun : ((Operation.transform t name).run e).1.map (fun _ => ()) =
          (e.transform t name).map fun _ => () :=
        map_run_bind_pure (Call.ofResult (e.transform t name)) some e
      rw [hrun]
      exact applies_iff Mapping.recodes_encode he.sound h
    | inverse t name =>
      have hrun : ((Operation.inverse t name).run e).1.map (fun _ => ()) =
          (e.inverse t name).map fun _ => () :=
        map_run_bind_pure (Call.ofResult (e.inverse t name)) some e
      rw [hrun]
      exact applies_iff Mapping.recodes_decode he.sound h
  refine ⟨hiff, fun err herr => ?_⟩
  have houtcome := (hiff (.error err)).1 (by rw [herr]; rfl)
  exact houtcome.isForeign_eq_false

/-- The order is one of names, which the scores are not. The column before is encoded by then, and
nothing of this stays. -/
theorem outcome_iff_scores : ∃ t, Table.ofFrame .scores = .ok t ∧
    Operation.Outcome (ofRule (.ordinal { shared := some [.string "bob", .string "ann"] }))
      (.fitTransform t ["name", "score", "name"]) (.error (.fitFailed "score"
        (.learning "score" (.wrongType (.string "bob") .integer)))) ∧
    ∀ err, ((Operation.fitTransform t ["name", "score", "name"]).run
      (ofRule (.ordinal { shared := some [.string "bob", .string "ann"] }))).1 = .error err →
        err.isForeign = false := by
  obtain ⟨t, ht, hrun⟩ : ∃ t, Table.ofFrame .scores = .ok t ∧
      ((Operation.fitTransform t ["name", "score", "name"]).run
        (ofRule (.ordinal { shared := some [.string "bob", .string "ann"] }))).1.map
          (fun _ => ()) = .error (.fitFailed "score"
            (.learning "score" (.wrongType (.string "bob") .integer))) := ⟨_, rfl, rfl⟩
  obtain ⟨hiff, hforeign⟩ := outcome_iff (o := .fitTransform t ["name", "score", "name"])
    (.ofRule (.ordinal { shared := some [.string "bob", .string "ann"] })) (.ofFrame ht)
  exact ⟨t, ht, (hiff _).1 hrun, hforeign⟩

end Encoder

end Tabula
