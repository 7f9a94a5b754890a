import Tabula.Encoding.Encoder
import Tabula.Proofs.Bijection
import Tabula.Proofs.Reshaping
import Tabula.Proofs.Store

/-!
# Learning and encoding on tables

What an encoder does to a table is replacing a column by what a mapping makes of it. On a table that
agrees with itself the only thing that can go wrong on the way is learning.

* `Rule.learned_of_learn`, `Rule.exists_fault_of_learn` — what learning from a column gives.
* `Table.Holds.exists_encoded` — a column can be encoded in place by the mapping learned from it.
* `Rule.encodeColumns_append_eq_ok_iff` — several columns are encoded in lots, one after the other.
* `Encoder.fit_run`, `Encoder.fitTransform_run` — what a call answers, and the encoder after it.
-/

namespace Tabula

variable {r : Rule} {c d : Column} {m : Mapping} {t u v : Table} {n : Nat} {cs : List Column}
  {name : String} {names names' : List String} {p q : Nat} {e : Encoder}

/-! ### Learning by a rule -/

namespace Rule

/-- By whatever rule, a mapping is learned from the very column. -/
theorem learned_of_learn (hc : c.Canonical) (h : r.learn c p = .ok m) : m.Learned c := by
  cases r with
  | label => exact Mapping.learned_of_sorted hc h
  | ordinal orders =>
    rw [learn] at h
    split at h
    · exact Mapping.learned_of_ordered hc h
    · exact Mapping.learned_of_sorted hc h

/-- By whatever rule, a failure says that this column cannot be learned. -/
theorem exists_fault_of_learn (hc : c.Canonical) {err : Error} (h : r.learn c p = .error err) :
    ∃ fault, err = .learning c.name fault := by
  cases r with
  | label => exact Mapping.exists_fault_of_sorted hc h
  | ordinal orders =>
    rw [learn] at h
    split at h
    · exact Mapping.exists_fault_of_ordered hc h
    · exact Mapping.exists_fault_of_sorted hc h

/-- The rule learns from a column regardless of its position: there is no order that only the first
of several columns gets. -/
def Uniform : Rule → Prop
  | label => True
  | ordinal orders => orders.policy = .supplied

/-- Under a uniform rule the place of a column in its call makes no difference to what is learned:
label encoding never looks at it, and a table of orders asks for the name only. -/
theorem Uniform.learn_eq (h : r.Uniform) : r.learn c p = r.learn c q := by
  cases r with
  | label => rfl
  | ordinal orders =>
    have hp : orders.order? c.name p = orders.order? c.name q := by
      have hs : orders.policy = .supplied := h
      simp [Orders.order?, hs]
    rw [learn, learn, hp]

end Rule

/-! ### Encoding in place -/

/-- A column of a table can be replaced by the codes of the mapping that was learned from it. -/
theorem Table.Holds.exists_encoded (h : t.Holds n cs) (hc : c ∈ cs) (hm : m.Learned c) :
    ∃ d u, m.encode c = .ok d ∧ d.name = c.name ∧ t.replace d = .ok u ∧
      u.Holds n (cs.map d.replacedBy) := by
  obtain ⟨d, hd⟩ := hm.exists_encode (h.canonical c hc)
  obtain ⟨vs, hvs, hlen, -⟩ := (h.canonical c hc).exists_values
  obtain ⟨hdc, hdn, hdt, ws, hws, hcells⟩ := Mapping.encode_spec hd hvs
  -- there is one code for each value, so the codes fill the rows
  have hdl : d.length = n :=
    calc d.length = ws.length := (Series.values_spec hws).2.1.symm
      _ = vs.length := hcells.length_eq.symm
      _ = c.length := hlen
      _ = n := h.length_eq c hc
  have hmem : d.name ∈ t.columnNames := h.mem_columnNames_iff.2 ⟨c, hc, hdn.symm⟩
  obtain ⟨u, hu, hh⟩ := h.exists_replace hdc hmem hdl
  exact ⟨d, u, hd, hdn, hu, hh⟩

namespace Rule

/-- On a table that agrees, learning and encoding a column fails only in learning, and otherwise
leaves a table that agrees and has the same names. -/
theorem learn_or_encode (h : t.Holds n cs) (hname : name ∈ t.columnNames) :
    ∃ c, t.column name = .ok c ∧ c.name = name ∧
      ((∃ fault, r.learn c p = .error (.learning name fault)) ∨
        ∃ m d u, r.learn c p = .ok m ∧ m.encode c = .ok d ∧ t.replace d = .ok u ∧
          u.Holds n (cs.map d.replacedBy)) := by
  obtain ⟨c, hc, hcn⟩ := h.mem_columnNames_iff.1 hname
  refine ⟨c, h.column_eq_ok_iff.2 ⟨hc, hcn⟩, hcn, ?_⟩
  -- a mapping that was learned from the column encodes it, so only learning itself can fail
  cases hl : r.learn c p with
  | error err =>
    obtain ⟨fault, rfl⟩ := exists_fault_of_learn (h.canonical c hc) hl
    exact .inl ⟨fault, by rw [hcn]⟩
  | ok m =>
    have hm := learned_of_learn (h.canonical c hc) hl
    obtain ⟨d, u, hd, -, hu, hh⟩ := h.exists_encoded hc hm
    exact .inr ⟨m, d, u, rfl, hd, hu, hh⟩

/-! ### Encoding several columns -/

/-- Once the first column is learned, encoded and replaced, the rest go on from there. -/
theorem encodeColumns_cons (hc : t.column name = .ok c) (hm : r.learn c p = .ok m)
    (hd : m.encode c = .ok d) (hu : t.replace d = .ok u) :
    r.encodeColumns p t (name :: names) = do
      let (v, rest) ← r.encodeColumns (p + 1) u names
      return (v, (name, m) :: rest) := by
  -- no failure is left that could be put under the name of the column
  have hmd : r.learnCodes c p = .ok (m, d) := by
    rw [learnCodes, hm, ok_bind, hd]
    rfl
  rw [encodeColumns, hc, ok_bind, mapError_eq_ok_iff.2 hmd, ok_bind]
  show (t.replace d >>= fun u => r.encodeColumns (p + 1) u names >>= _) = _
  rw [hu, ok_bind]

/-- Several columns are encoded exactly if the first is learned, encoded and replaced, and then the
rest are encoded. -/
theorem encodeColumns_cons_eq_ok_iff {learned : List (String × Mapping)} :
    r.encodeColumns p t (name :: names) = .ok (v, learned) ↔
      ∃ c m d u rest, t.column name = .ok c ∧ r.learn c p = .ok m ∧ m.encode c = .ok d ∧
        t.replace d = .ok u ∧ r.encodeColumns (p + 1) u names = .ok (v, rest) ∧
          learned = (name, m) :: rest := by
  refine ⟨?_, ?_⟩
  · intro h
    rw [encodeColumns] at h
    obtain ⟨c, hc, h⟩ := bind_eq_ok_iff.1 h
    obtain ⟨⟨m, d⟩, hmd, h⟩ := bind_eq_ok_iff.1 h
    -- learning and encoding one column are one step, whose errors are wrapped together
    rw [mapError_eq_ok_iff] at hmd
    obtain ⟨m', hm, hmd⟩ := bind_eq_ok_iff.1 hmd
    obtain ⟨d', hd, hmd⟩ := bind_eq_ok_iff.1 hmd
    obtain ⟨rfl, rfl⟩ := Prod.mk.inj (Except.ok.inj hmd)
    obtain ⟨u, hu, h⟩ := bind_eq_ok_iff.1 h
    obtain ⟨⟨w, rest⟩, hrest, h⟩ := bind_eq_ok_iff.1 h
    obtain ⟨rfl, rfl⟩ := Prod.mk.inj (Except.ok.inj h)
    exact ⟨c, _, _, u, rest, hc, hm, hd, hu, hrest, rfl⟩
  · rintro ⟨c, m, d, u, rest, hc, hm, hd, hu, hrest, rfl⟩
    rw [encodeColumns_cons hc hm hd hu, hrest]
    rfl

/-- The first column of which nothing can be learned ends the call, and its error carries the
name. -/
theorem encodeColumns_cons_of_learn_error {err : Error} (hc : t.column name = .ok c)
    (hl : r.learn c p = .error err) :
    r.encodeColumns p t (name :: names) = .error (.fitFailed name err) := by
  rw [encodeColumns, hc, ok_bind, learnCodes, hl]
  rfl

/-- Columns are encoded in two lots exactly if all of them are encoded, the second lot counting its
positions from the first. -/
theorem encodeColumns_append_eq_ok_iff {learned : List (String × Mapping)} :
    r.encodeColumns p t (names ++ names') = .ok (v, learned) ↔
      ∃ u first second, r.encodeColumns p t names = .ok (u, first) ∧
        r.encodeColumns (p + names.length) u names' = .ok (v, second) ∧
          learned = first ++ second := by
  induction names generalizing p t learned with
  | nil =>
    refine ⟨?_, ?_⟩
    · intro h
      exact ⟨t, [], learned, rfl, h, rfl⟩
    · rintro ⟨u, first, second, hfirst, hsecond, rfl⟩
      obtain ⟨rfl, rfl⟩ := Prod.mk.inj (Except.ok.inj hfirst)
      exact hsecond
  | cons name names ih =>
    -- the second lot counts on from where the first one ends, wherever that one has begun
    have hlen : p + (name :: names).length = p + 1 + names.length := by
      rw [List.length_cons]
      omega
    rw [List.cons_append, hlen]
    refine ⟨?_, ?_⟩
    · intro h
      obtain ⟨c, m, d, w, rest, hc, hm, hd, hw, hrest, rfl⟩ := encodeColumns_cons_eq_ok_iff.1 h
      obtain ⟨u, first, second, hfirst, hsecond, rfl⟩ := ih.1 hrest
      refine ⟨u, (name, m) :: first, second, ?_, hsecond, rfl⟩
      exact encodeColumns_cons_eq_ok_iff.2 ⟨c, m, d, w, first, hc, hm, hd, hw, hfirst, rfl⟩
    · rintro ⟨u, first, second, hfirst, hsecond, rfl⟩
      obtain ⟨c, m, d, w, rest, hc, hm, hd, hw, hrest, rfl⟩ := encodeColumns_cons_eq_ok_iff.1 hfirst
      have hall := ih.2 ⟨u, rest, second, hrest, hsecond, rfl⟩
      exact encodeColumns_cons_eq_ok_iff.2 ⟨c, m, d, w, _, hc, hm, hd, hw, hall, rfl⟩

/-- One mapping is learned for each name, in the order the names were given. -/
theorem map_fst_of_encodeColumns {learned : List (String × Mapping)}
    (h : r.encodeColumns p t names = .ok (u, learned)) : learned.map Prod.fst = names := by
  -- by induction on the names: each step adds its own name in front
  induction names generalizing p t learned with
  | nil =>
    obtain ⟨-, rfl⟩ := Prod.mk.inj (Except.ok.inj h)
    rfl
  | cons name names ih =>
    obtain ⟨c, m, d, w, rest, -, -, -, -, hrest, rfl⟩ := encodeColumns_cons_eq_ok_iff.1 h
    rw [List.map_cons, ih hrest]

/-- Encoding columns leaves a table that agrees, with the same names and as many rows, and the
mappings that are learned on the way are sound. -/
theorem encodeColumns_spec {learned : List (String × Mapping)} (h : t.Holds n cs)
    (hr : r.encodeColumns p t names = .ok (u, learned)) :
    (∃ ds, u.Holds n ds) ∧ u.columnNames = t.columnNames ∧ ∀ a ∈ learned, a.2.Sound := by
  induction names generalizing p t cs learned with
  | nil =>
    obtain ⟨rfl, rfl⟩ := Prod.mk.inj (Except.ok.inj hr)
    exact ⟨⟨cs, h⟩, rfl, by simp⟩
  | cons name names ih =>
    obtain ⟨c, m, d, w, rest, hc, hm, hd, hw, hrest, rfl⟩ := encodeColumns_cons_eq_ok_iff.1 hr
    have hcan : c.Canonical := h.canonical_of_column hc
    -- replacing a column by its codes keeps the table in agreement
    obtain ⟨-, -, hwh⟩ := h.of_replace (Mapping.canonical_of_encode hcan hd) hw
    -- the table after the first column agrees as well, so the rest is the same again
    obtain ⟨hds, hnames, hsound⟩ := ih hwh hrest
    refine ⟨hds, hnames.trans (h.columnNames_replaced hwh), ?_⟩
    exact List.forall_mem_cons.2 ⟨(learned_of_learn hcan hm).sound, hsound⟩

end Rule

/-! ### The calls of an encoder -/

namespace Encoder

/-- A column is encoded exactly when it is there, has a mapping that encodes it, and the codes can
take its place. -/
theorem transform_eq_ok_iff : e.transform t name = .ok u ↔
    ∃ c m d, t.column name = .ok c ∧ e.mappings.get? name = some m ∧ m.encode c = .ok d ∧
      t.replace d = .ok u := by
  simp only [transform, bind_eq_ok_iff, MappingStore.get_eq_ok_iff]
  -- the two sides name the same steps in another order
  refine ⟨?_, ?_⟩
  · rintro ⟨c, hc, m, hm, d, hd, hu⟩
    exact ⟨c, m, d, hc, hm, hd, hu⟩
  · rintro ⟨c, m, d, hc, hm, hd, hu⟩
    exact ⟨c, hc, m, hm, d, hd, hu⟩

/-- A column is decoded exactly when it is there, has a mapping that decodes it, and the values can
take its place. -/
theorem inverse_eq_ok_iff : e.inverse t name = .ok u ↔
    ∃ c m d, t.column name = .ok c ∧ e.mappings.get? name = some m ∧ m.decode c = .ok d ∧
      t.replace d = .ok u := by
  simp only [inverse, bind_eq_ok_iff, MappingStore.get_eq_ok_iff]
  refine ⟨?_, ?_⟩
  · rintro ⟨c, hc, m, hm, d, hd, hu⟩
    exact ⟨c, m, d, hc, hm, hd, hu⟩
  · rintro ⟨c, m, d, hc, hm, hd, hu⟩
    exact ⟨c, hc, m, hm, d, hd, hu⟩

/-- With a column and its mapping at hand, encoding is what the mapping does and then the
replacement. -/
theorem transform_of_column (hc : t.column name = .ok c) (hm : e.mappings.get? name = some m) :
    e.transform t name = m.encode c >>= t.replace := by
  rw [transform, hc, ok_bind, MappingStore.get_eq_ok_iff.2 hm, ok_bind]

/-- With a column and its mapping at hand, decoding is what the mapping does and then the
replacement. -/
theorem inverse_of_column (hc : t.column name = .ok c) (hm : e.mappings.get? name = some m) :
    e.inverse t name = m.decode c >>= t.replace := by
  rw [inverse, hc, ok_bind, MappingStore.get_eq_ok_iff.2 hm, ok_bind]

/-! ### Running calls -/

theorem run_ofResult {α : Type} (x : Except Error α) (e : Encoder) :
    (Call.ofResult x).run.run e = (x, e) := rfl

/-- Learning a column answers nothing and stores the mapping, or leaves the encoder as it is. -/
theorem fit_run (t : Table) (name : String) (e : Encoder) : (fit t name).run.run e =
    match t.column name >>= fun c => e.rule.learn c 0 with
    | .ok m => (.ok (), { e with mappings := e.mappings.insert name m })
    | .error err => (.error err, e) := by
  rw [fit, run_bind, run_ofResult]
  cases t.column name with
  | error err => rfl
  | ok c =>
    rw [ok_bind]
    show (Call.ofResult (e.rule.learn c 0) >>= _ : Call Unit).run.run e = _
    rw [run_bind, run_ofResult]
    cases e.rule.learn c 0 with
    | error err => rfl
    | ok m => rfl

/-- A column is learned by storing the mapping that its values give. -/
theorem exists_learn_of_fit {e' : Encoder} (hf : (fit t name).run.run e = (.ok (), e')) :
    ∃ c m, t.column name = .ok c ∧ e.rule.learn c 0 = .ok m ∧
      e' = { e with mappings := e.mappings.insert name m } := by
  rw [fit_run] at hf
  split at hf
  · next m hl =>
    obtain ⟨c, hc, hm⟩ := bind_eq_ok_iff.1 hl
    exact ⟨c, m, hc, hm, (Prod.mk.inj hf).2.symm⟩
  · cases hf

/-- Learning and encoding several columns answers the last table and stores all the mappings, or
leaves the encoder as it is. -/
theorem fitTransform_run (t : Table) (names : List String) (e : Encoder) :
    (fitTransform t names).run.run e =
      match t.schema.require names >>= fun _ => e.rule.encodeColumns 0 t names with
      | .ok (u, learned) => (.ok u, { e with mappings := e.mappings.insertAll learned })
      | .error err => (.error err, e) := by
  rw [fitTransform, run_bind, run_ofResult]
  cases t.schema.require names with
  | error err => rfl
  | ok a =>
    rw [ok_bind]
    show (Call.ofResult (e.rule.encodeColumns 0 t names) >>= _ : Call Table).run.run e = _
    rw [run_bind, run_ofResult]
    cases e.rule.encodeColumns 0 t names with
    | error err => rfl
    | ok w => rfl

/-! ### What calls leave of a table and of an encoder -/

/-- A table that agrees with itself still does after one of its columns was encoded. -/
theorem exists_holds_of_transform (h : t.Holds n cs) (hu : e.transform t name = .ok u) :
    ∃ ds, u.Holds n ds := by
  obtain ⟨c, m, d, hc, -, hd, hu⟩ := transform_eq_ok_iff.1 hu
  have hcan : c.Canonical := h.canonical_of_column hc
  exact ⟨_, (h.of_replace (Mapping.canonical_of_encode hcan hd) hu).2.2⟩

/-- A table that agrees with itself still does after one of its columns was decoded. -/
theorem exists_holds_of_inverse (h : t.Holds n cs) (hu : e.inverse t name = .ok u) :
    ∃ ds, u.Holds n ds := by
  obtain ⟨c, m, d, hc, -, hd, hu⟩ := inverse_eq_ok_iff.1 hu
  have hcan : c.Canonical := h.canonical_of_column hc
  exact ⟨_, (h.of_replace (Mapping.canonical_of_decode hcan hd) hu).2.2⟩

/-- A table that agrees with itself still does after several columns were learned and encoded. -/
theorem exists_holds_of_fitTransform {e' : Encoder} (h : t.Holds n cs)
    (hu : (fitTransform t names).run.run e = (.ok u, e')) : ∃ ds, u.Holds n ds := by
  rw [fitTransform_run] at hu
  split at hu
  · next w learned hw =>
    -- only a call that went through answers a table
    obtain ⟨-, -, hw⟩ := bind_eq_ok_iff.1 hw
    obtain rfl : w = u := Except.ok.inj (Prod.mk.inj hu).1
    exact (Rule.encodeColumns_spec h hw).1
  · cases hu

/-- Every mapping that the encoder has stored is sound. -/
def Sound (e : Encoder) : Prop := ∀ name m, e.mappings.get? name = some m → m.Sound

theorem sound_ofRule (r : Rule) : (ofRule r).Sound := by
  intro name m h
  cases h

/-- Adding one sound mapping keeps an encoder sound, whatever it replaces. -/
theorem Sound.insert (he : e.Sound) (hm : m.Sound) :
    Sound { e with mappings := e.mappings.insert name m } := by
  intro k l hl
  rw [MappingStore.get?_insert] at hl
  -- what is found under a name is the new mapping or one from before
  split at hl
  · obtain rfl := Option.some.inj hl
    exact hm
  · exact he k l hl

/-- Learning a column keeps an encoder sound, also when it fails. -/
theorem Sound.fit (he : e.Sound) (h : t.Holds n cs) : ((fit t name).run.run e).2.Sound := by
  rw [fit_run]
  split
  · next m hm =>
    obtain ⟨c, hc, hm⟩ := bind_eq_ok_iff.1 hm
    have hcan : c.Canonical := h.canonical_of_column hc
    exact he.insert (Rule.learned_of_learn hcan hm).sound
  · exact he

/-- Learning several columns at once keeps an encoder sound, also when it fails on the way. -/
theorem Sound.fitTransform (he : e.Sound) (h : t.Holds n cs) :
    ((fitTransform t names).run.run e).2.Sound := by
  rw [fitTransform_run]
  split
  · next u learned hu =>
    obtain ⟨-, -, hu⟩ := bind_eq_ok_iff.1 hu
    obtain ⟨-, -, hlearned⟩ := Rule.encodeColumns_spec h hu
    intro k l hl
    change (e.mappings.insertAll learned).get? k = some l at hl
    rw [MappingStore.get?_insertAll, Option.or_eq_some_iff] at hl
    -- what is found was learned in this call or was there before it
    obtain hl | ⟨-, hl⟩ := hl
    · obtain ⟨l₁, l₂, hsplit, -⟩ := List.lookup_eq_some_iff.1 hl
      have hmem : (k, l) ∈ learned.reverse := by
        rw [hsplit]
        exact List.mem_append_right l₁ List.mem_cons_self
      exact hlearned _ (List.mem_reverse.1 hmem)
    · exact he k l hl
  · exact he

/-- The mappings stay in the order of their names when a column is learned. -/
theorem ordered_fit (he : e.mappings.Ordered) :
    ((fit t name).run.run e).2.mappings.Ordered := by
  rw [fit_run]
  split
  · exact he.insert
  · exact he

/-- The mappings stay in the order of their names when several columns are learned. -/
theorem ordered_fitTransform (he : e.mappings.Ordered) :
    ((fitTransform t names).run.run e).2.mappings.Ordered := by
  rw [fitTransform_run]
  split
  · exact he.insertAll
  · exact he

end Encoder

end Tabula
