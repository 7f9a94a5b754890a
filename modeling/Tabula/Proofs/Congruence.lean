import Tabula.Proofs.Alike
import Tabula.Proofs.Reachable

/-!
# Table equality is a congruence

Nothing that is done with tables tells equal tables apart. Two runs of a call, on equal tables and
with encoders that have equal mappings and learn by equal orders, both give results, which are equal
again, or both fail, with one code and one list of missing names.

* `Rule.Agree` — rules that learn in the same way.
* `Table.Like` — two tables that agree with themselves and whose columns are equal one by one. This
  is what a step keeps; `like_of_equal` and `Like.equal` connect it to the comparison of tables.
* `Rule.Agree.alike_encodeColumns` — two runs over several columns, by induction on their names.
* `Encoder.Congruent`, `Encoder.congruent_of_equal` — all calls, on reachable tables and encoders.
-/

namespace Tabula

variable {r r' : Rule} {o o' : Orders} {c d : Column} {t u : Table} {name : String}
  {names : List String} {p : Nat}

/-- An error that is put inside another one cannot be seen in code and missing names, so it does not
matter which one it is. -/
theorem Alike.fitFailed {α β : Type} {R : α → β → Prop} {x : Except Error α} {y : Except Error β}
    (h : Alike R x y) :
    Alike R (x.mapError (.fitFailed name)) (y.mapError (.fitFailed name)) := by
  cases x with
  | error e =>
    cases y with
    | error e' => exact ⟨rfl, rfl⟩
    | ok b => cases h
  | ok a =>
    cases y with
    | error e' => cases h
    | ok b => exact h

/-! ### Rules -/

/-- The orders are equal value by value and apply to the same columns. -/
structure Orders.Agree (o o' : Orders) : Prop where
  shared : Option.Rel (List.Forall₂ (· == ·)) o.shared o'.shared
  byColumn : ∀ name,
    Option.Rel (List.Forall₂ (· == ·)) (o.byColumn.lookup name) (o'.byColumn.lookup name)
  policy : o.policy = o'.policy

/-- The orders that two agreeing rules have for a column are equal, if they have any. -/
theorem Orders.Agree.order?_rel (h : o.Agree o') :
    Option.Rel (List.Forall₂ (· == ·)) (o.order? name p) (o'.order? name p) := by
  have hown := h.byColumn name
  rw [Orders.order?, Orders.order?]
  generalize o.byColumn.lookup name = a at hown ⊢
  generalize o'.byColumn.lookup name = b at hown ⊢
  -- an order of its own goes first, and the general one is looked at by the same policy
  cases hown with
  | some hab => exact .some hab
  | none =>
    rw [h.policy]
    dsimp only
    split
    · exact .none
    · exact h.shared

namespace Rule

/-- The rules are of one kind, and have equal orders and the same policy. -/
def Agree : Rule → Rule → Prop
  | label, label => True
  | ordinal o, ordinal o' => o.Agree o'
  | _, _ => False

/-- Agreeing rules learn like mappings from equal columns, or both learn nothing. -/
theorem Agree.alike_learn (h : r.Agree r') (hc : c.Canonical) (hd : d.Canonical)
    (hcd : (c == d) = true) : Alike Mapping.Like (r.learn c p) (r'.learn d p) := by
  have hsame : Mapping.SameObserved c d := Mapping.sameObserved_of_beq hcd
  -- rules of different kinds do not agree
  cases r with
  | label =>
    cases r' with
    | label => exact hsame.alike_sorted hc hd
    | ordinal o' => cases h
  | ordinal o =>
    cases r' with
    | label => cases h
    | ordinal o' =>
      have horder : Option.Rel (List.Forall₂ (· == ·)) (o.order? d.name p) (o'.order? d.name p) :=
        Orders.Agree.order?_rel h
      rw [learn, learn, Column.name_eq_of_beq hcd]
      generalize o.order? d.name p = a at horder ⊢
      generalize o'.order? d.name p = b at horder ⊢
      cases horder with
      | some hab => exact hsame.alike_ordered hc hd hab
      | none => exact hsame.alike_sorted hc hd

end Rule

/-! ### Columns and tables -/

/-- Equal columns, both in canonical storage. -/
structure Column.Like (c d : Column) : Prop where
  left : c.Canonical
  right : d.Canonical
  equal : (c == d) = true

/-- Like mappings make like columns of like columns. -/
theorem Mapping.Like.like_encode {m k : Mapping} (h : m.Like k) (hcd : c.Like d) :
    Alike Column.Like (m.encode c) (k.encode d) := by
  apply (h.alike_encode hcd.equal).imp
  intro a b ha hb hab
  exact ⟨canonical_of_encode hcd.left ha, canonical_of_encode hcd.right hb, hab⟩

/-- They also decode them to like columns. -/
theorem Mapping.Like.like_decode {m k : Mapping} (h : m.Like k) (hcd : c.Like d) :
    Alike Column.Like (m.decode c) (k.decode d) := by
  apply (h.alike_decode hcd.equal).imp
  intro a b ha hb hab
  exact ⟨canonical_of_decode hcd.left ha, canonical_of_decode hcd.right hb, hab⟩

/-- Learning a mapping and encoding the column with it are alike, as both are by themselves. -/
theorem Rule.Agree.alike_learnCodes (h : r.Agree r') (hcd : c.Like d) :
    Alike (fun a b => a.1.Like b.1 ∧ a.2.Like b.2) (r.learnCodes c p) (r'.learnCodes d p) := by
  rw [learnCodes, learnCodes]
  apply (h.alike_learn hcd.left hcd.right hcd.equal).bind
  intro m k hmk
  exact (hmk.like_encode hcd).bind fun a b hab => ⟨hmk, hab⟩

/-- A new name does not touch the values. -/
theorem Column.beq_renamed {old new : String} (h : (c == d) = true) :
    (c.renamed old new == d.renamed old new) = true := by
  obtain ⟨vs, ws, hvs, hws, hvw⟩ := exists_values_of_beq h
  have htype : c.type = d.type := type_eq_of_beq h
  rw [renamed, renamed, name_eq_of_beq h]
  split
  · exact beq_of_forall₂ (c := ⟨new, c.type, c.series.rename new⟩)
      (d := ⟨new, d.type, d.series.rename new⟩) rfl htype hvs hws hvw
  · exact h

namespace Table

/-- Tables that consist of equal columns, one by one. -/
def Like (t u : Table) : Prop :=
  ∃ n cs ds, t.Holds n cs ∧ u.Holds n ds ∧ List.Forall₂ (fun c d => (c == d) = true) cs ds

theorem Like.equal (h : t.Like u) : (t == u) = true := by
  obtain ⟨n, cs, ds, ht, hu, hcd⟩ := h
  exact ht.equal_of_forall₂ hu hcd

/-- Equal tables are alike if each of them agrees with itself. The comparison looks columns up by
name; this brings them into order, position by position. -/
theorem like_of_equal (ht : t.Consistent) (hu : u.Consistent) (h : (t == u) = true) :
    t.Like u := by
  obtain ⟨n, cs, ht⟩ := ht
  obtain ⟨k, ds, hu⟩ := hu
  obtain ⟨hschema, hrows, hvalues⟩ := equal_iff.1 h
  obtain rfl : n = k := ht.rowCount_eq.symm.trans (hrows.trans hu.rowCount_eq)
  refine ⟨n, cs, ds, ht, hu, ?_⟩
  have hentries : cs.map Column.entry = ds.map Column.entry := by
    rw [← ht.columns_eq, ← hu.columns_eq, hschema]
  have hforall : List.Forall₂ (fun c d => Column.entry c = Column.entry d) cs ds := by
    rw [← List.forall₂_eq_eq_eq, List.forall₂_map_left_iff, List.forall₂_map_right_iff] at hentries
    exact hentries
  -- columns at one position have one name, under which the comparison has found equal values
  have hmem : List.Forall₂ (fun d c => d ∈ ds ∧ Column.entry c = Column.entry d) ds cs :=
    forall₂_imp_of_mem (List.forall₂_and_left ds cs |>.2 ⟨fun d hd => hd, hforall.flip⟩)
      fun d _ c h => h
  refine forall₂_imp_of_mem hmem.flip fun c hc d hd => ?_
  obtain ⟨hname, htype⟩ := Prod.mk.inj hd.2
  obtain ⟨vs, ws, hvs, hws, hvw⟩ := hvalues c.name (ht.mem_columnNames_iff.2 ⟨c, hc, rfl⟩)
  obtain ⟨c', hc', hvs⟩ := columnValues_eq_ok_iff.1 hvs
  obtain ⟨d', hd', hws⟩ := columnValues_eq_ok_iff.1 hws
  rw [ht.column_eq_ok_iff.2 ⟨hc, rfl⟩, Except.ok.injEq] at hc'
  rw [hu.column_eq_ok_iff.2 ⟨hd.1, hname.symm⟩, Except.ok.injEq] at hd'
  subst hc' hd'
  exact Column.beq_of_forall₂ hname htype hvs hws hvw

namespace Like

theorem columnNames_eq (h : t.Like u) : t.columnNames = u.columnNames := by
  obtain ⟨hschema, -⟩ := equal_iff.1 h.equal
  rw [columnNames, columnNames, hschema]

theorem rowCount_eq (h : t.Like u) : t.rowCount = u.rowCount := (equal_iff.1 h.equal).2.1

/-! ### Reading -/

/-- Rows are read alike: an index is in range of both tables or of neither, and then the cells are
equal column by column. -/
theorem alike_row (h : t.Like u) (i : Int) : Alike (· == ·) (t.row i) (u.row i) := by
  rw [row, row, h.rowCount_eq]
  cases hi : checkedIndex i u.rowCount with
  | error err => exact ⟨rfl, rfl⟩
  | ok k =>
    obtain ⟨n, cs, ds, ht, hu, hcd⟩ := h
    have hk : k < n := by
      rw [← hu.rowCount_eq]
      exact (checkedIndex_eq_ok_iff.1 hi).2
    -- at this index every column has a cell, and equal columns have equal ones
    have hcells : List.Forall₂ (fun c d => Alike (· == ·) (c.series.value k) (d.series.value k))
        cs ds := by
      refine forall₂_imp_of_mem hcd fun c hc d hcd => ?_
      obtain ⟨vs, ws, hvs, hws, hvw⟩ := Column.exists_values_of_beq hcd
      have hv : k < vs.length := by
        rwa [(Series.values_spec hvs).2.1, ← Column.length, ht.length_eq c hc]
      have hw : k < ws.length := hvw.length_eq ▸ hv
      rw [Series.value_eq_ok hvs (List.getElem?_eq_getElem hv),
        Series.value_eq_ok hws (List.getElem?_eq_getElem hw)]
      exact hvw.get hv hw
    rw [ok_bind, ok_bind, ht.series_eq, hu.series_eq, List.mapM_map, List.mapM_map]
    apply (Alike.mapM hcells fun c d hcd => hcd).bind
    intro vs ws hvw
    exact Value.list_beq_iff_forall₂.2 hvw

/-- Columns are read alike, and are equal under one name. -/
theorem alike_column (h : t.Like u) (name : String) :
    Alike Column.Like (t.column name) (u.column name) := by
  by_cases hname : name ∈ t.columnNames
  · obtain ⟨n, cs, ds, ht, hu, hcd⟩ := h
    obtain ⟨c, hc, rfl⟩ := ht.mem_columnNames_iff.1 hname
    obtain ⟨d, hd, hcd⟩ := forall₂_exists_right hcd hc
    have hdn : d.name = c.name := (Column.name_eq_of_beq hcd).symm
    rw [ht.column_eq_ok_iff.2 ⟨hc, rfl⟩, hu.column_eq_ok_iff.2 ⟨hd, hdn⟩]
    exact ⟨ht.canonical c hc, hu.canonical d hd, hcd⟩
  · rw [column_of_notMem hname, column_of_notMem (h.columnNames_eq ▸ hname)]
    exact ⟨rfl, rfl⟩

/-! ### Changing columns -/

/-- Renaming looks at names only, which are the same, and leaves the cells as they are. -/
theorem alike_rename (h : t.Like u) (old new : String) :
    Alike Like (t.rename old new) (u.rename old new) := by
  have hnames := h.columnNames_eq
  -- the checks are gone through in their order, and come out the same way for both tables
  by_cases hold : old ∈ t.columnNames
  · by_cases hne : old = new
    · subst hne
      rw [rename_self hold, rename_self (hnames ▸ hold)]
      exact h
    · by_cases hnew : new ∈ t.columnNames
      · rw [rename_taken hold hne hnew, rename_taken (hnames ▸ hold) hne (hnames ▸ hnew)]
        exact ⟨rfl, rfl⟩
      · obtain ⟨n, cs, ds, ht, hu, hcd⟩ := h
        obtain ⟨v, hv, hvh⟩ := ht.exists_rename hold hnew
        obtain ⟨w, hw, hwh⟩ := hu.exists_rename (hnames ▸ hold) (hnames ▸ hnew)
        rw [hv, hw]
        refine ⟨n, _, _, hvh, hwh, ?_⟩
        rw [List.forall₂_map_left_iff, List.forall₂_map_right_iff]
        exact hcd.imp fun c d hcd => Column.beq_renamed hcd
  · rw [rename_of_notMem hold, rename_of_notMem (hnames ▸ hold)]
    exact ⟨rfl, rfl⟩

/-- Of equal columns those are chosen that have the same names. -/
theorem alike_chosen (h : t.Like u) (p : String → Bool) :
    Alike Like (t.schema.require names >>= fun _ => t.select (t.columnNames.filter p))
      (u.schema.require names >>= fun _ => u.select (u.columnNames.filter p)) := by
  obtain ⟨hschema, -⟩ := equal_iff.1 h.equal
  rw [hschema]
  cases u.schema.require names with
  | error err => exact ⟨rfl, rfl⟩
  | ok _ =>
    obtain ⟨n, cs, ds, ht, hu, hcd⟩ := h
    obtain ⟨v, hv, hvh⟩ := ht.exists_select_filter p
    obtain ⟨w, hw, hwh⟩ := hu.exists_select_filter p
    rw [ok_bind, ok_bind, hv, hw]
    refine ⟨n, _, _, hvh, hwh, ?_⟩
    -- a column is chosen by its name, which an equal column shares
    apply List.rel_filter _ hcd
    intro c d hcd
    show p c.name = true ↔ p d.name = true
    rw [Column.name_eq_of_beq hcd]

theorem alike_drop (h : t.Like u) (names : List String) :
    Alike Like (t.drop names) (u.drop names) := h.alike_chosen _

theorem alike_keep (h : t.Like u) (names : List String) :
    Alike Like (t.keep names) (u.keep names) := h.alike_chosen _

/-- Like columns are put into like tables with like results. -/
theorem alike_replace (h : t.Like u) (hcd : c.Like d) :
    Alike Like (t.replace c) (u.replace d) := by
  have hnames := h.columnNames_eq
  have hname : c.name = d.name := Column.name_eq_of_beq hcd.equal
  have hlength : c.length = d.length := Column.length_eq_of_beq hcd.equal
  -- name and length of the column are checked against names and rows, all of which are the same
  by_cases hc : c.name ∈ t.columnNames
  · have hd : d.name ∈ u.columnNames := by rwa [← hname, ← hnames]
    by_cases hl : c.length = t.rowCount
    · obtain ⟨n, cs, ds, ht, hu, hcds⟩ := h
      rw [ht.rowCount_eq] at hl
      obtain ⟨v, hv, hvh⟩ := ht.exists_replace hcd.left hc hl
      obtain ⟨w, hw, hwh⟩ := hu.exists_replace hcd.right hd (hlength.symm.trans hl)
      rw [hv, hw]
      refine ⟨n, _, _, hvh, hwh, ?_⟩
      rw [List.forall₂_map_left_iff, List.forall₂_map_right_iff]
      refine hcds.imp fun a b hab => ?_
      rw [Column.replacedBy, Column.replacedBy, Column.name_eq_of_beq hab, hname]
      split
      · exact hcd.equal
      · exact hab
    · rw [replace_of_length_ne hc hl, replace_of_length_ne hd (hlength ▸ h.rowCount_eq ▸ hl)]
      exact ⟨rfl, rfl⟩
  · rw [replace_of_notMem hc, replace_of_notMem (hname ▸ hnames ▸ hc), hname]
    exact ⟨rfl, rfl⟩

end Like

end Table

/-! ### Encoding several columns -/

/-- Names with mappings, which are the same names and like mappings. -/
def SameLearned (as bs : List (String × Mapping)) : Prop :=
  List.Forall₂ (fun a b => a.1 = b.1 ∧ a.2.Like b.2) as bs

/-- Under one name two lists that have learned the same hold like mappings, or nothing. -/
theorem SameLearned.lookup_rel {as bs : List (String × Mapping)} (h : SameLearned as bs) :
    Option.Rel Mapping.Like (as.lookup name) (bs.lookup name) := by
  induction h with
  | nil => exact .none
  | @cons a b as bs hab _ ih =>
    rw [List.lookup_cons, List.lookup_cons, hab.1]
    split
    · exact .some hab.2
    · exact ih

/-- The tables that are made on the way stay alike, so each step learns from equal columns. -/
theorem Rule.Agree.alike_encodeColumns (h : r.Agree r') (htu : t.Like u) :
    Alike (fun a b => a.1.Like b.1 ∧ SameLearned a.2 b.2) (r.encodeColumns p t names)
      (r'.encodeColumns p u names) := by
  -- the columns are encoded one after the other, and each is read from tables that are alike
  induction names generalizing p t u with
  | nil => exact ⟨htu, .nil⟩
  | cons name names ih =>
    rw [encodeColumns, encodeColumns]
    apply (htu.alike_column name).bind
    intro c d hcd
    apply (h.alike_learnCodes hcd).fitFailed.bind
    rintro ⟨m, c⟩ ⟨k, d⟩ ⟨hmk, hcd⟩
    apply (htu.alike_replace hcd).bind
    intro t u htu
    apply (ih htu).bind
    rintro ⟨t, learned⟩ ⟨u, learned'⟩ ⟨htu, hlearned⟩
    exact ⟨htu, .cons ⟨rfl, hmk⟩ hlearned⟩

/-! ### Stores -/

namespace MappingStore

variable {s s' : MappingStore}

/-- Stores with the same names and like mappings under them. -/
def Like (s s' : MappingStore) : Prop := SameLearned s.entries s'.entries

/-- The comparison of stores goes entry by entry. -/
theorem equal_iff : (s == s') = true ↔
    List.Forall₂ (fun a b => a.1 = b.1 ∧ (a.2 == b.2) = true) s.entries s'.entries := by
  show (s.entries == s'.entries) = true ↔ _
  generalize s.entries = as
  generalize s'.entries = bs
  -- stores are compared entry by entry, and a longer one is never equal
  induction as generalizing bs with
  | nil =>
    cases bs with
    | nil => simp
    | cons b bs => simp
  | cons a as ih =>
    cases bs with
    | nil => simp
    | cons b bs =>
      rw [List.cons_beq_cons, Bool.and_eq_true, List.forall₂_cons, ih]
      refine and_congr_left fun _ => ?_
      show (a.1 == b.1 && a.2 == b.2) = true ↔ _
      rw [Bool.and_eq_true, beq_iff_eq]

/-- Like stores are equal. -/
theorem Like.equal (h : s.Like s') : (s == s') = true := by
  rw [equal_iff]
  refine h.imp fun a b hab => ?_
  exact ⟨hab.1, (Mapping.like_iff hab.2.sound_left hab.2.sound_right).1 hab.2⟩

/-- Equal stores are alike if all their mappings are sound. -/
theorem like_of_equal (hs : ∀ a ∈ s.entries, a.2.Sound) (hs' : ∀ b ∈ s'.entries, b.2.Sound)
    (h : (s == s') = true) : s.Like s' := by
  -- that a mapping is sound is known of the members of a store, so it is put beside each pair
  have hright : List.Forall₂ (fun b a => b.2.Sound ∧ a.1 = b.1 ∧ (a.2 == b.2) = true)
      s'.entries s.entries :=
    forall₂_imp_of_mem (equal_iff.1 h).flip fun b hb a hab => ⟨hs' b hb, hab⟩
  refine forall₂_imp_of_mem hright.flip fun a ha b hab => ?_
  exact ⟨hab.2.1, (Mapping.like_iff (hs a ha) hab.1).2 hab.2.2⟩

/-- Looking a mapping up is alike in like stores. -/
theorem Like.alike_get (h : s.Like s') (name : String) :
    Alike Mapping.Like (s.get name) (s'.get name) := by
  have hfound : Option.Rel Mapping.Like (s.get? name) (s'.get? name) := h.lookup_rel
  rw [get, get]
  generalize s.get? name = x at hfound ⊢
  generalize s'.get? name = y at hfound ⊢
  cases hfound with
  | some hmk => exact hmk
  | none => exact ⟨rfl, rfl⟩

/-- Like stores stay alike with like mappings under one name. -/
theorem Like.insert (h : s.Like s') {m k : Mapping} (hmk : m.Like k) :
    (s.insert name m).Like (s'.insert name k) := by
  refine forall₂_insertByKey (R := fun a b : String × Mapping => a.1 = b.1 ∧ a.2.Like b.2) ?_
    ⟨rfl, hmk⟩ h
  intro a b a' b' hab hab'
  rw [hab.1, hab'.1]

/-- So they do with several of them, one after the other. -/
theorem Like.insertAll {as bs : List (String × Mapping)} (h : s.Like s')
    (hab : SameLearned as bs) : (s.insertAll as).Like (s'.insertAll bs) := by
  induction hab generalizing s s' with
  | nil => exact h
  | @cons a b as bs hab _ ih =>
    obtain ⟨name, m⟩ := a
    obtain ⟨name', k⟩ := b
    obtain ⟨rfl, hmk⟩ := hab
    exact ih (h.insert hmk)

end MappingStore

/-! ### Calls -/

namespace Encoder

variable {e e' : Encoder}

/-- Encoders that learn in the same way and have stored like mappings. -/
structure Like (e e' : Encoder) : Prop where
  rule : e.rule.Agree e'.rule
  mappings : e.mappings.Like e'.mappings

namespace Like

/-- Encoding a column is alike: the column, its mapping, the encoded column and its place in the
table are, one after the other. -/
theorem alike_transform (h : e.Like e') (htu : t.Like u) (name : String) :
    Alike Table.Like (e.transform t name) (e'.transform u name) := by
  apply (htu.alike_column name).bind
  intro c d hcd
  apply (h.mappings.alike_get name).bind
  intro m k hmk
  exact (hmk.like_encode hcd).bind fun a b hab => htu.alike_replace hab

/-- Decoding a column is alike for the same reasons. -/
theorem alike_inverse (h : e.Like e') (htu : t.Like u) (name : String) :
    Alike Table.Like (e.inverse t name) (e'.inverse u name) := by
  apply (htu.alike_column name).bind
  intro c d hcd
  apply (h.mappings.alike_get name).bind
  intro m k hmk
  exact (hmk.like_decode hcd).bind fun a b hab => htu.alike_replace hab

/-- Fitting a column is alike in what it answers and in the encoder that it leaves, also if it
fails. -/
theorem alike_fit (h : e.Like e') (htu : t.Like u) (name : String) :
    Alike (fun _ _ => True) ((fit t name).run.run e).1 ((fit u name).run.run e').1 ∧
      ((fit t name).run.run e).2.Like ((fit u name).run.run e').2 := by
  have hlearn : Alike Mapping.Like (t.column name >>= fun c => e.rule.learn c 0)
      (u.column name >>= fun d => e'.rule.learn d 0) := by
    apply (htu.alike_column name).bind
    intro c d hcd
    exact h.rule.alike_learn hcd.left hcd.right hcd.equal
  rw [fit_run, fit_run]
  generalize (t.column name >>= fun c => e.rule.learn c 0) = x at hlearn ⊢
  generalize (u.column name >>= fun d => e'.rule.learn d 0) = y at hlearn ⊢
  -- either both have learned something or neither has
  cases x with
  | error err =>
    cases y with
    | error err' => exact ⟨hlearn, h⟩
    | ok k => cases hlearn
  | ok m =>
    cases y with
    | error err' => cases hlearn
    | ok k => exact ⟨trivial, h.rule, h.mappings.insert hlearn⟩

/-- Fitting and encoding several columns is alike, and so are the encoders that are left. -/
theorem alike_fitTransform (h : e.Like e') (htu : t.Like u) (names : List String) :
    Alike Table.Like ((fitTransform t names).run.run e).1 ((fitTransform u names).run.run e').1 ∧
      ((fitTransform t names).run.run e).2.Like ((fitTransform u names).run.run e').2 := by
  -- equal tables have one schema, which requires the same names
  have hencode : Alike (fun a b => a.1.Like b.1 ∧ SameLearned a.2 b.2)
      (t.schema.require names >>= fun _ => e.rule.encodeColumns 0 t names)
      (u.schema.require names >>= fun _ => e'.rule.encodeColumns 0 u names) := by
    obtain ⟨hschema, -⟩ := Table.equal_iff.1 htu.equal
    rw [hschema]
    cases u.schema.require names with
    | error err => exact ⟨rfl, rfl⟩
    | ok _ => exact h.rule.alike_encodeColumns htu
  rw [fitTransform_run, fitTransform_run]
  generalize (t.schema.require names >>= fun _ => e.rule.encodeColumns 0 t names) = x at hencode ⊢
  generalize (u.schema.require names >>= fun _ => e'.rule.encodeColumns 0 u names) = y
    at hencode ⊢
  cases x with
  | error err =>
    cases y with
    | error err' => exact ⟨hencode, h⟩
    | ok b => cases hencode
  | ok a =>
    cases y with
    | error err' => cases hencode
    | ok b => exact ⟨hencode.1, h.rule, h.mappings.insertAll hencode.2⟩

end Like

end Encoder

/-! ### Reachable tables and encoders -/

/-- Calls on one of the tables answer what they answer on the other, as far as the comparisons of
rows, columns and tables can tell. -/
structure Table.Congruent (t u : Table) : Prop where
  row : ∀ i, Alike (· == ·) (t.row i) (u.row i)
  column : ∀ name, Alike (· == ·) (t.column name) (u.column name)
  rename : ∀ old new, Alike (· == ·) (t.rename old new) (u.rename old new)
  drop : ∀ names, Alike (· == ·) (t.drop names) (u.drop names)
  keep : ∀ names, Alike (· == ·) (t.keep names) (u.keep names)
  replace : ∀ c d, Reachable (.column c) → Reachable (.column d) → (c == d) = true →
    Alike (· == ·) (t.replace c) (u.replace d)

/-- Calls of one encoder on one of the tables answer what calls of the other encoder on the other
table answer, and leave equal mappings behind. -/
structure Encoder.Congruent (e e' : Encoder) (t u : Table) : Prop where
  transform : ∀ name, Alike (· == ·) (e.transform t name) (e'.transform u name)
  inverse : ∀ name, Alike (· == ·) (e.inverse t name) (e'.inverse u name)
  fit : ∀ name, Alike (fun _ _ => True) ((Encoder.fit t name).run.run e).1
    ((Encoder.fit u name).run.run e').1
  after_fit : ∀ name, (((Encoder.fit t name).run.run e).2.mappings ==
    ((Encoder.fit u name).run.run e').2.mappings) = true
  fitTransform : ∀ names, Alike (· == ·) ((Encoder.fitTransform t names).run.run e).1
    ((Encoder.fitTransform u names).run.run e').1
  after_fitTransform : ∀ names, (((Encoder.fitTransform t names).run.run e).2.mappings ==
    ((Encoder.fitTransform u names).run.run e').2.mappings) = true

/-- Equal tables are alike in every call, also those of encoders that learn in the same way and have
stored equal mappings. -/
theorem congruent_of_equal {e e' : Encoder} (ht : Reachable (.table t)) (hu : Reachable (.table u))
    (htu : (t == u) = true) (he : Reachable (.encoder e)) (he' : Reachable (.encoder e'))
    (hr : e.rule.Agree e'.rule) (hm : (e.mappings == e'.mappings) = true) :
    t.Congruent u ∧ e.Congruent e' t u := by
  have hlike : t.Like u := Table.like_of_equal ht.sound hu.sound htu
  have hlike' : e.Like e' :=
    ⟨hr, MappingStore.like_of_equal (fun _ ha => he.sound_of_mem ha)
      (fun _ hb => he'.sound_of_mem hb) hm⟩
  -- results that are alike are equal, and no more is said of them
  have htable {x y : Except Error Table} (h : Alike Table.Like x y) : Alike (· == ·) x y :=
    h.imp fun _ _ _ _ h => h.equal
  constructor
  · exact {
      row := hlike.alike_row
      column := fun name => (hlike.alike_column name).imp fun _ _ _ _ h => h.equal
      rename := fun old new => htable (hlike.alike_rename old new)
      drop := fun names => htable (hlike.alike_drop names)
      keep := fun names => htable (hlike.alike_keep names)
      replace := fun c d hc hd hcd => htable (hlike.alike_replace ⟨hc.sound, hd.sound, hcd⟩) }
  · exact {
      transform := fun name => htable (hlike'.alike_transform hlike name)
      inverse := fun name => htable (hlike'.alike_inverse hlike name)
      fit := fun name => (hlike'.alike_fit hlike name).1
      after_fit := fun name => (hlike'.alike_fit hlike name).2.mappings.equal
      fitTransform := fun names => htable (hlike'.alike_fitTransform hlike names).1
      after_fitTransform := fun names => (hlike'.alike_fitTransform hlike names).2.mappings.equal }

/-- One series with a zero, an empty cell and a not-a-number, of the given bits. -/
def Frame.folded (zero nan : Binary64) : Frame :=
  ⟨3, [⟨"x", .floats64 [some zero, none, some nan]⟩]⟩

/-- Another zero and another not-a-number, in the cells, in the orders and in the mappings. -/
theorem congruent_of_equal_folded : ∃ t u e e',
    Table.ofFrame (.folded .zero .nan) = .ok t ∧
    Table.ofFrame (.folded ⟨0x8000000000000000⟩ ⟨0xfff8000000000001⟩) = .ok u ∧
    t.cell "x" 0 = .ok (.float .zero) ∧ u.cell "x" 0 = .ok (.float ⟨0x8000000000000000⟩) ∧
    (t == u) = true ∧
    (Encoder.fit t "x").run.run
      (.ofRule (.ordinal { shared := some [.float .nan, .float .zero] })) = (.ok (), e) ∧
    (Encoder.fit u "x").run.run
      (.ofRule (.ordinal { shared := some [.float .nan, .float ⟨0x8000000000000000⟩] })) =
        (.ok (), e') ∧
    t.Congruent u ∧ e.Congruent e' t u := by
  obtain ⟨t, u, e, e', ht, hu, hzero, hzero', heq, he, he', hr, hm⟩ : ∃ t u e e',
      Table.ofFrame (.folded .zero .nan) = .ok t ∧
      Table.ofFrame (.folded ⟨0x8000000000000000⟩ ⟨0xfff8000000000001⟩) = .ok u ∧
      t.cell "x" 0 = .ok (.float .zero) ∧ u.cell "x" 0 = .ok (.float ⟨0x8000000000000000⟩) ∧
      (t == u) = true ∧
      (Encoder.fit t "x").run.run
        (.ofRule (.ordinal { shared := some [.float .nan, .float .zero] })) = (.ok (), e) ∧
      (Encoder.fit u "x").run.run
        (.ofRule (.ordinal { shared := some [.float .nan, .float ⟨0x8000000000000000⟩] })) =
          (.ok (), e') ∧
      e.rule.Agree e'.rule ∧ (e.mappings == e'.mappings) = true := by
    refine ⟨_, _, _, _, rfl, rfl, rfl, rfl, rfl, rfl, rfl, ?_, rfl⟩
    exact ⟨.some (.cons rfl (.cons rfl .nil)), fun _ => .none, rfl⟩
  have hre : Reachable (.encoder e) := .of_fit (.ofRule _) (.ofFrame ht) he
  have hre' : Reachable (.encoder e') := .of_fit (.ofRule _) (.ofFrame hu) he'
  exact ⟨t, u, e, e', ht, hu, hzero, hzero', heq, he, he',
    congruent_of_equal (.ofFrame ht) (.ofFrame hu) heq hre hre' hr hm⟩

end Tabula
