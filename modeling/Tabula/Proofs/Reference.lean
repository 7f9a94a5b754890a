import Tabula.Proofs.RoundTrip

/-!
# Which order a column gets

Encoding several columns at once learns from a table that is being rewritten, by orders that may
depend on the position of a column. For columns with distinct names this comes to the same as
learning each of them from the table that was there at the beginning: what is learned for one column
does not depend on the others, and, unless an order is for the first column only, neither on its
position.

* `Orders.reference` — the mapping that a column should get at a position.
* `Rule.encodeColumns_eq_ok_iff_originals` — one run over the names, by induction: every column is
  still the original one when its turn comes.
* `MappingStore.Ordered.ext` — stores in which the same is found are the same.
* `Encoder.Replaces` — what a call leaves, and `Encoder.fitTransform_reference` — that it does so.
-/

namespace Tabula

variable {r : Rule} {o : Orders} {e e' : Encoder} {t u w : Table} {n p : Nat} {cs ds : List Column}
  {c d : Column} {m : Mapping} {name k : String} {names names' : List String}
  {learned : List (String × Mapping)}

/-! ### The reference -/

/-- The mapping that a column gets at a position: by its own order if it has one, otherwise by the
order for all columns if there is one and it applies at the position, otherwise by ascending
values. -/
def Orders.reference (o : Orders) (c : Column) (i : Nat) : Except Error Mapping :=
  match o.byColumn.lookup c.name, o.shared with
  | some order, _ => Mapping.ordered c order
  | none, some order =>
    if o.policy = .supplied ∨ i = 0 then Mapping.ordered c order else Mapping.sorted c
  | none, none => Mapping.sorted c

theorem Rule.learn_ordinal (o : Orders) : (Rule.ordinal o).learn = o.reference := by
  funext c i
  rw [learn, Orders.order?, Orders.reference]
  cases o.byColumn.lookup c.name with
  | some order => rfl
  | none =>
    cases o.shared with
    | none =>
      dsimp only
      rw [ite_self]
    | some order =>
      -- the order applies at this position, or it does not
      by_cases hi : i = 0
      · simp [hi]
      · have hpos : 0 < i := Nat.pos_of_ne_zero hi
        cases hp : o.policy with
        | supplied => simp
        | firstColumnOnly => simp [hi, hpos]

/-! ### Replacing columns -/

namespace Table.Holds

/-- Replacing several columns leaves each of them in its place, and the others alone. -/
theorem foldlM_replace_spec (h : t.Holds n cs) (hc : ∀ d ∈ ds, d.Canonical)
    (hn : (ds.map Column.name).Nodup) (hu : ds.foldlM replace t = .ok u) :
    (∃ es, u.Holds n es) ∧ u.columnNames = t.columnNames ∧ (∀ d ∈ ds, u.column d.name = .ok d) ∧
      ∀ k ∉ ds.map Column.name, u.column k = t.column k := by
  induction ds generalizing t cs with
  | nil =>
    obtain rfl := Except.ok.inj hu
    exact ⟨⟨cs, h⟩, rfl, by simp, fun k _ => rfl⟩
  | cons d ds ih =>
    rw [List.foldlM_cons] at hu
    obtain ⟨w, hw, hu⟩ := bind_eq_ok_iff.1 hu
    obtain ⟨hd, hds⟩ := List.forall_mem_cons.1 hc
    rw [List.map_cons, List.nodup_cons] at hn
    obtain ⟨hmem, -, hwh⟩ := h.of_replace hd hw
    obtain ⟨hes, hnames, hcols, hothers⟩ := ih hwh hds hn.2 hu
    obtain ⟨c, hc, hcd⟩ := h.mem_columnNames_iff.1 hmem
    refine ⟨hes, hnames.trans (h.columnNames_replaced hwh), ?_, ?_⟩
    · -- the columns after the first have other names, so it stays where it was put
      have hfirst : u.column d.name = .ok d :=
        (hothers d.name hn.1).trans (hwh.column_replaced hc hcd)
      exact List.forall_mem_cons.2 ⟨hfirst, hcols⟩
    · intro k hk
      rw [List.map_cons, List.mem_cons, not_or] at hk
      exact (hothers k hk.2).trans (h.column_of_ne hwh hk.1)

/-- Tables with the same names and the same columns under them are the same. -/
theorem ext_column {ds : List Column} (ht : t.Holds n cs) (hu : u.Holds n ds)
    (hnames : t.columnNames = u.columnNames) (hcols : ∀ k, t.column k = u.column k) : t = u := by
  have hcs : t.columns = u.columns := by
    rw [columns, columns, hnames]
    exact mapM_congr fun k _ => hcols k
  rw [ht.columns_eq_ok, hu.columns_eq_ok, Except.ok.injEq] at hcs
  subst hcs
  exact ht.unique hu

end Table.Holds

/-! ### Learning from the original columns -/

namespace Rule

/-- What the rule learns from the column that a table has under the name, at the position, and the
codes of this column. -/
def Originals (r : Rule) (t : Table) (k : String × Nat) (a : (String × Mapping) × Column) : Prop :=
  ∃ c, t.column k.1 = .ok c ∧ r.learn c k.2 = .ok a.1.2 ∧ a.1.2.encode c = .ok a.2 ∧ a.1.1 = k.1

/-- The codes are a column of the same name. -/
theorem Originals.codes (h : t.Holds n cs) {k : String × Nat} {a : (String × Mapping) × Column}
    (ha : r.Originals t k a) : a.2.Canonical ∧ a.2.name = k.1 := by
  obtain ⟨c, hc, -, hd, -⟩ := ha
  obtain ⟨vs, hvs, -⟩ := (h.canonical_of_column hc).exists_values
  obtain ⟨hdc, hdn, -⟩ := Mapping.encode_spec hd hvs
  exact ⟨hdc, hdn.trans (h.column_eq_ok_iff.1 hc).2⟩

/-- Replacing a column does not touch what is learned for other names. -/
theorem forall₂_originals_replaced (h : t.Holds n cs) (hw : w.Holds n (cs.map d.replacedBy))
    (hn : d.name ∉ names) {as : List ((String × Mapping) × Column)} :
    List.Forall₂ (r.Originals w) (names.zipIdx p) as ↔
      List.Forall₂ (r.Originals t) (names.zipIdx p) as := by
  have hcol : ∀ k ∈ names.zipIdx p, w.column k.1 = t.column k.1 := by
    intro k hk
    have hmem : k.1 ∈ names := List.fst_mem_of_mem_zipIdx hk
    exact h.column_of_ne hw fun he => hn (he ▸ hmem)
  constructor
  · intro hall
    refine forall₂_imp_of_mem hall fun k hk a => ?_
    rintro ⟨c, hc, hca⟩
    exact ⟨c, hcol k hk ▸ hc, hca⟩
  · intro hall
    refine forall₂_imp_of_mem hall fun k hk a => ?_
    rintro ⟨c, hc, hca⟩
    exact ⟨c, (hcol k hk).symm ▸ hc, hca⟩

/-- Columns with distinct names are encoded as if each of them were learned and encoded by itself,
from the table at the beginning, and then all of them were replaced. -/
theorem encodeColumns_eq_ok_iff_originals (h : t.Holds n cs) (hn : names.Nodup) :
    r.encodeColumns p t names = .ok (u, learned) ↔
      ∃ as, List.Forall₂ (r.Originals t) (names.zipIdx p) as ∧
        learned = as.map Prod.fst ∧ (as.map Prod.snd).foldlM Table.replace t = .ok u := by
  -- by induction on the names, the table after the first one being the one of the rest
  induction names generalizing p t cs learned with
  | nil =>
    constructor
    · intro hr
      obtain ⟨rfl, rfl⟩ := Prod.mk.inj (Except.ok.inj hr)
      exact ⟨[], .nil, rfl, rfl⟩
    · rintro ⟨as, hall, rfl, hu⟩
      cases hall
      obtain rfl := Except.ok.inj hu
      rfl
  | cons name names ih =>
    obtain ⟨hname, hnames⟩ := List.nodup_cons.1 hn
    rw [encodeColumns_cons_eq_ok_iff, List.zipIdx_cons]
    constructor
    · rintro ⟨c, m, d, w, rest, hc, hm, hd, hw, hrest, rfl⟩
      have hfirst : r.Originals t (name, p) ((name, m), d) := ⟨c, hc, hm, hd, rfl⟩
      obtain ⟨hdc, hdn⟩ := hfirst.codes h
      obtain ⟨-, -, hwh⟩ := h.of_replace hdc hw
      obtain ⟨as, hall, rfl, hu⟩ := (ih hwh hnames).1 hrest
      rw [forall₂_originals_replaced h hwh (hdn ▸ hname)] at hall
      refine ⟨((name, m), d) :: as, .cons hfirst hall, rfl, ?_⟩
      rw [List.map_cons, List.foldlM_cons, hw, ok_bind, hu]
    · rintro ⟨as, hall, rfl, hu⟩
      cases hall with
      | @cons _ a _ as hfirst hall =>
        obtain ⟨hdc, hdn⟩ := hfirst.codes h
        obtain ⟨⟨k, m⟩, d⟩ := a
        obtain ⟨c, hc, hm, hd, rfl⟩ := hfirst
        rw [List.map_cons, List.foldlM_cons] at hu
        obtain ⟨w, hw, hu⟩ := bind_eq_ok_iff.1 hu
        obtain ⟨-, -, hwh⟩ := h.of_replace hdc hw
        rw [← forall₂_originals_replaced h hwh (hdn ▸ hname)] at hall
        exact ⟨c, m, d, w, _, hc, hm, hd, hw, (ih hwh hnames).2 ⟨as, hall, rfl, hu⟩, rfl⟩

/-- Columns with distinct names are encoded exactly if something is learned for each of them from
the table at the beginning. -/
theorem exists_encodeColumns_iff (h : t.Holds n cs) (hn : names.Nodup) :
    (∃ u learned, r.encodeColumns p t names = .ok (u, learned)) ↔
      ∀ k ∈ names.zipIdx p, ∃ c m, t.column k.1 = .ok c ∧ r.learn c k.2 = .ok m := by
  constructor
  · rintro ⟨u, learned, hr⟩ k hk
    obtain ⟨as, hall, -⟩ := (encodeColumns_eq_ok_iff_originals h hn).1 hr
    obtain ⟨a, -, c, hc, hm, -⟩ := forall₂_exists_right hall hk
    exact ⟨c, a.1.2, hc, hm⟩
  · intro hall
    induction names generalizing p t cs with
    | nil => exact ⟨t, [], rfl⟩
    | cons name names ih =>
      obtain ⟨hname, hnames⟩ := List.nodup_cons.1 hn
      rw [List.zipIdx_cons] at hall
      obtain ⟨⟨c, m, hc, hm⟩, htail⟩ := List.forall_mem_cons.1 hall
      obtain ⟨hmem, rfl⟩ := h.column_eq_ok_iff.1 hc
      have hlearned : m.Learned c := learned_of_learn (h.canonical c hmem) hm
      obtain ⟨d, w, hd, hdn, hw, hwh⟩ := h.exists_encoded hmem hlearned
      -- the rest is learned from the table after the first column as from the one before
      have hrest : ∀ k ∈ names.zipIdx (p + 1),
          ∃ c m, w.column k.1 = .ok c ∧ r.learn c k.2 = .ok m := by
        intro k hk
        have hne : k.1 ≠ d.name := by
          rintro he
          exact hname (hdn ▸ he ▸ List.fst_mem_of_mem_zipIdx hk)
        rw [h.column_of_ne hwh hne]
        exact htail k hk
      obtain ⟨u, learned, hu⟩ := ih hwh hnames hrest
      exact ⟨u, _, encodeColumns_cons_eq_ok_iff.2 ⟨c, m, d, w, learned, hc, hm, hd, hw, hu, rfl⟩⟩

end Rule

/-! ### Stores -/

/-- Stores in which the same is found under each name are the same. -/
theorem MappingStore.Ordered.ext {s s' : MappingStore} (hs : s.Ordered) (hs' : s'.Ordered)
    (h : ∀ k, s.get? k = s'.get? k) : s = s' := by
  have hmem : ∀ a, a ∈ s.entries ↔ a ∈ s'.entries := by
    rintro ⟨k, m⟩
    rw [← hs.get?_eq_some_iff, ← hs'.get?_eq_some_iff, h]
  have hirrefl : Std.Irrefl fun a b : String × Mapping => compare a.1 b.1 = .lt :=
    ⟨fun a => by simp⟩
  have hantisymm : Std.Antisymm fun a b : String × Mapping => compare a.1 b.1 = .lt := by
    constructor
    intro a b hab hba
    rw [Std.OrientedOrd.eq_swap, hba] at hab
    cases hab
  -- lists with the same elements that ascend are one list
  have hentries : s.entries = s'.entries :=
    (List.pairwise_map.1 hs).eq_of_mem_iff (List.pairwise_map.1 hs') hmem
  obtain ⟨es⟩ := s
  obtain ⟨es'⟩ := s'
  exact congrArg MappingStore.mk hentries

namespace Encoder

/-- What a call that encodes several columns leaves, if it is known what is learned at each
position: for each name the mapping and the codes of the column that was there at the beginning, and
everything else as it was. -/
structure Replaces (learn : Column → Nat → Except Error Mapping) (e e' : Encoder) (t u : Table)
    (names : List String) : Prop where
  rule_eq : e'.rule = e.rule
  columnNames_eq : u.columnNames = t.columnNames
  rowCount_eq : u.rowCount = t.rowCount
  /-- The table is made by replacing the columns with their codes. -/
  replaced : ∃ codes, List.Forall₂ (fun k d => ∃ c m, t.column k.1 = .ok c ∧ learn c k.2 = .ok m ∧
    m.encode c = .ok d) names.zipIdx codes ∧ codes.foldlM Table.replace t = .ok u
  named : ∀ i name, names[i]? = some name → ∃ c m d, t.column name = .ok c ∧ learn c i = .ok m ∧
    m.encode c = .ok d ∧ u.column name = .ok d ∧ e'.mappings.get? name = some m
  others : ∀ name, name ∉ names → u.column name = t.column name ∧
    e'.mappings.get? name = e.mappings.get? name

theorem replaces_of_fitTransform (h : t.Holds n cs) (hn : names.Nodup)
    (hr : (fitTransform t names).run.run e = (.ok u, e')) :
    Replaces e.rule.learn e e' t u names := by
  rw [fitTransform_run] at hr
  split at hr
  · next w learned hw =>
    obtain ⟨hu, rfl⟩ := Prod.mk.inj hr
    obtain rfl : u = w := (Except.ok.inj hu).symm
    obtain ⟨-, -, hw⟩ := bind_eq_ok_iff.1 hw
    have hlearned : learned.map Prod.fst = names := Rule.map_fst_of_encodeColumns hw
    obtain ⟨as, hall, rfl, hfold⟩ := (Rule.encodeColumns_eq_ok_iff_originals h hn).1 hw
    have hcodes : ∀ a ∈ as, a.2.Canonical ∧ a.2.name = a.1.1 := by
      intro a ha
      obtain ⟨k, -, hka⟩ := forall₂_exists_left hall ha
      obtain ⟨hc, hname⟩ := hka.codes h
      obtain ⟨-, -, -, -, hk⟩ := hka
      exact ⟨hc, hname.trans hk.symm⟩
    have hcan : ∀ d ∈ as.map Prod.snd, d.Canonical := by
      intro d hd
      obtain ⟨a, ha, rfl⟩ := List.mem_map.1 hd
      exact (hcodes a ha).1
    have hdn : (as.map Prod.snd).map Column.name = names := by
      rw [← hlearned, List.map_map, List.map_map]
      exact List.map_congr_left fun a ha => (hcodes a ha).2
    obtain ⟨⟨es, hes⟩, hnames, hcols, hothers⟩ := h.foldlM_replace_spec hcan (hdn ▸ hn) hfold
    -- no name is learned twice, so what is found under it is what was learned
    have hnodup : ((as.map Prod.fst).reverse.map Prod.fst).Nodup := by
      rw [List.map_reverse, List.nodup_reverse, hlearned]
      exact hn
    have hget : ∀ k, (e.mappings.insertAll (as.map Prod.fst)).get? k =
        ((as.map Prod.fst).reverse.lookup k).or (e.mappings.get? k) :=
      fun k => MappingStore.get?_insertAll
    refine ⟨rfl, hnames, hes.rowCount_eq.trans h.rowCount_eq.symm, ⟨_, ?_, hfold⟩, ?_, ?_⟩
    · rw [List.forall₂_map_right_iff]
      refine hall.imp ?_
      rintro k a ⟨c, hc, hm, hd, -⟩
      exact ⟨c, a.1.2, hc, hm, hd⟩
    · intro i name hi
      obtain ⟨a, ha, c, hc, hm, hd, rfl⟩ :=
        forall₂_exists_right hall (List.mk_mem_zipIdx_iff_getElem?.2 hi)
      have hcol : u.column a.2.name = .ok a.2 := hcols a.2 (List.mem_map_of_mem ha)
      have hfound : (as.map Prod.fst).reverse.lookup a.1.1 = some a.1.2 := by
        rw [lookup_eq_some_iff_mem hnodup, List.mem_reverse]
        exact List.mem_map_of_mem ha
      refine ⟨c, a.1.2, a.2, hc, hm, hd, (hcodes a ha).2 ▸ hcol, ?_⟩
      rw [hget, hfound, Option.some_or]
    · intro k hk
      have hnone : (as.map Prod.fst).reverse.lookup k = none := by
        rw [lookup_eq_none_iff_notMem, List.map_reverse, List.mem_reverse, hlearned]
        exact hk
      refine ⟨hothers k (hdn ▸ hk), ?_⟩
      rw [hget, hnone, Option.none_or]
  · cases hr

/-- A call succeeds exactly if something is learned for each name at its position. -/
theorem fitTransform_succeeds_iff (h : t.Holds n cs) (hn : names.Nodup)
    (hmem : ∀ k ∈ names, k ∈ t.columnNames) :
    (∃ u e', (fitTransform t names).run.run e = (.ok u, e')) ↔ ∀ i name, names[i]? = some name →
      ∃ c m, t.column name = .ok c ∧ e.rule.learn c i = .ok m := by
  have hrun : (∃ u e', (fitTransform t names).run.run e = (.ok u, e')) ↔
      ∃ u learned, e.rule.encodeColumns 0 t names = .ok (u, learned) := by
    rw [fitTransform_run, Schema.require_eq_ok_iff.2 hmem, ok_bind]
    cases e.rule.encodeColumns 0 t names with
    | error err =>
      constructor
      · rintro ⟨u, e', hu⟩
        cases hu
      · rintro ⟨u, learned, hu⟩
        cases hu
    | ok a => exact ⟨fun _ => ⟨_, _, rfl⟩, fun _ => ⟨_, _, rfl⟩⟩
  rw [hrun, Rule.exists_encodeColumns_iff h hn]
  constructor
  · intro hall i name hi
    exact hall (name, i) (List.mk_mem_zipIdx_iff_getElem?.2 hi)
  · rintro hall ⟨name, i⟩ hk
    exact hall i name (List.mk_mem_zipIdx_iff_getElem?.1 hk)

/-! ### The order of the names -/

/-- If the position of a column does not matter, neither does the order of the names. -/
theorem fitTransform_of_perm (h : t.Holds n cs) (he : e.mappings.Ordered) (hr : e.rule.Uniform)
    (hn : names.Nodup) (hmem : ∀ k ∈ names, k ∈ t.columnNames) (hp : names.Perm names')
    (hu : (fitTransform t names).run.run e = (.ok u, e')) :
    (fitTransform t names').run.run e = (.ok u, e') := by
  have hn' : names'.Nodup := hp.nodup_iff.1 hn
  have hmem' : ∀ k ∈ names', k ∈ t.columnNames := fun k hk => hmem k (hp.mem_iff.2 hk)
  have hreplaces := replaces_of_fitTransform h hn hu
  -- what was learned at one position is learned at the other
  obtain ⟨w, e'', hw⟩ : ∃ w e'', (fitTransform t names').run.run e = (.ok w, e'') := by
    rw [fitTransform_succeeds_iff h hn' hmem']
    intro i name hi
    obtain ⟨j, hj⟩ := List.mem_iff_getElem?.1 (hp.mem_iff.2 (List.mem_of_getElem? hi))
    obtain ⟨c, m, -, hc, hm, -⟩ := hreplaces.named j name hj
    exact ⟨c, m, hc, hr.learn_eq ▸ hm⟩
  have hreplaces' := replaces_of_fitTransform h hn' hw
  have hsame : ∀ k, u.column k = w.column k ∧ e'.mappings.get? k = e''.mappings.get? k := by
    intro k
    by_cases hk : k ∈ names
    · obtain ⟨i, hi⟩ := List.mem_iff_getElem?.1 hk
      obtain ⟨j, hj⟩ := List.mem_iff_getElem?.1 (hp.mem_iff.1 hk)
      obtain ⟨c, m, d, hc, hm, hd, hcol, hget⟩ := hreplaces.named i k hi
      obtain ⟨c', m', d', hc', hm', hd', hcol', hget'⟩ := hreplaces'.named j k hj
      obtain rfl := Except.ok.inj (hc.symm.trans hc')
      rw [hr.learn_eq (q := i), hm, Except.ok.injEq] at hm'
      subst hm'
      obtain rfl := Except.ok.inj (hd.symm.trans hd')
      exact ⟨hcol.trans hcol'.symm, hget.trans hget'.symm⟩
    · obtain ⟨hcol, hget⟩ := hreplaces.others k hk
      obtain ⟨hcol', hget'⟩ := hreplaces'.others k fun hk' => hk (hp.mem_iff.2 hk')
      exact ⟨hcol.trans hcol'.symm, hget.trans hget'.symm⟩
  -- the same columns make the same table, and the same mappings the same encoder
  have htable : u = w := by
    obtain ⟨ds, hds⟩ := exists_holds_of_fitTransform h hu
    obtain ⟨ds', hds'⟩ := exists_holds_of_fitTransform h hw
    exact hds.ext_column hds' (hreplaces.columnNames_eq.trans hreplaces'.columnNames_eq.symm)
      fun k => (hsame k).1
  have hmappings : e'.mappings = e''.mappings := by
    have hord : ((fitTransform t names).run.run e).2.mappings.Ordered := ordered_fitTransform he
    have hord' : ((fitTransform t names').run.run e).2.mappings.Ordered := ordered_fitTransform he
    rw [hu] at hord
    rw [hw] at hord'
    exact hord.ext hord' fun k => (hsame k).2
  obtain rfl : e' = e'' := by
    obtain ⟨r', s'⟩ := e'
    obtain ⟨r'', s''⟩ := e''
    obtain rfl : r' = r'' := hreplaces.rule_eq.trans hreplaces'.rule_eq.symm
    obtain rfl : s' = s'' := hmappings
    rfl
  rw [hw, htable]

/-- A call that fails leaves the encoder as it is. -/
theorem eq_of_error {err : Error} (h : (fitTransform t names).run.run e = (.error err, e')) :
    e' = e := by
  rw [fitTransform_run] at h
  split at h
  · cases h
  · exact (Prod.mk.inj h).2.symm

/-- By orders, several columns with distinct names get what each of them should get by itself: the
call succeeds exactly if all of this can be learned, and then replaces the columns and stores the
mappings. Unless an order is for the first column only, the order of the names does not matter. -/
theorem fitTransform_reference (ht : Reachable (.table t)) (he : Reachable (.encoder e))
    (hn : names.Nodup) (hmem : ∀ k ∈ names, k ∈ t.columnNames) :
    (∀ o, e.rule = .ordinal o →
      ((∃ u e', (fitTransform t names).run.run e = (.ok u, e')) ↔
        ∀ i name, names[i]? = some name →
          ∃ c m, t.column name = .ok c ∧ o.reference c i = .ok m) ∧
      ∀ u e', (fitTransform t names).run.run e = (.ok u, e') →
        Replaces o.reference e e' t u names) ∧
    (e.rule.Uniform → ∀ names', names.Perm names' →
      (∀ u e', (fitTransform t names).run.run e = (.ok u, e') ↔
        (fitTransform t names').run.run e = (.ok u, e')) ∧
      ((fitTransform t names).run.run e).2 = ((fitTransform t names').run.run e).2) := by
  obtain ⟨n, cs, h⟩ := ht.sound
  constructor
  · intro o ho
    rw [← Rule.learn_ordinal, ← ho]
    exact ⟨fitTransform_succeeds_iff h hn hmem, fun u e' hu => replaces_of_fitTransform h hn hu⟩
  · intro hr names' hp
    have hn' : names'.Nodup := hp.nodup_iff.1 hn
    have hmem' : ∀ k ∈ names', k ∈ t.columnNames := fun k hk => hmem k (hp.mem_iff.2 hk)
    have hiff : ∀ u e', (fitTransform t names).run.run e = (.ok u, e') ↔
        (fitTransform t names').run.run e = (.ok u, e') := by
      intro u e'
      constructor
      · exact fitTransform_of_perm h he.ordered_mappings hr hn hmem hp
      · exact fitTransform_of_perm h he.ordered_mappings hr hn' hmem' hp.symm
    refine ⟨hiff, ?_⟩
    cases hrun : (fitTransform t names).run.run e with
    | mk x e' =>
      cases hrun' : (fitTransform t names').run.run e with
      | mk x' e'' =>
        cases x with
        | ok u => exact (Prod.mk.inj (((hiff u e').1 hrun).symm.trans hrun')).2
        | error err =>
          cases x' with
          | ok u => exact absurd ((hiff u e'').2 hrun') (by rw [hrun]; rintro ⟨⟩)
          | error err' => exact (eq_of_error hrun).trans (eq_of_error hrun').symm

/-- The order is for the first column only, which is the one of the scores, and not for the names,
which are learned by ascending values. -/
theorem fitTransform_reference_scores : ∃ t u e', Table.ofFrame .scores = .ok t ∧
    (fitTransform t ["score", "name"]).run.run (ofRule (.ordinal
      { shared := some [.integer 9, .integer 7], policy := .firstColumnOnly })) = (.ok u, e') ∧
    Replaces (Orders.reference
        { shared := some [.integer 9, .integer 7], policy := .firstColumnOnly })
      (ofRule (.ordinal
        { shared := some [.integer 9, .integer 7], policy := .firstColumnOnly }))
      e' t u ["score", "name"] := by
  obtain ⟨t, u, e', ht, hnames, hu⟩ : ∃ t u e', Table.ofFrame .scores = .ok t ∧
      t.columnNames = ["name", "score"] ∧
      (fitTransform t ["score", "name"]).run.run (ofRule (.ordinal
        { shared := some [.integer 9, .integer 7], policy := .firstColumnOnly })) =
          (.ok u, e') := ⟨_, _, _, rfl, rfl, rfl⟩
  have hmem : ∀ k ∈ ["score", "name"], k ∈ t.columnNames := by
    rw [hnames]
    decide
  obtain ⟨hordinal, -⟩ := fitTransform_reference (.ofFrame ht) (.ofRule (.ordinal
    { shared := some [.integer 9, .integer 7], policy := .firstColumnOnly })) (by decide) hmem
  exact ⟨t, u, e', ht, hu, (hordinal _ rfl).2 u e' hu⟩

end Encoder

end Tabula
