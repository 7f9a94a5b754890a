import Tabula.Proofs.Consecutive
import Tabula.Proofs.Reference

/-!
# Columns that are named twice

An encoder that is to learn and encode several columns may be given a name more than once. Codes
that follow ascending values are encoded to themselves, so the table is the one that it would be
with the name given once. But what is stored for the name is what was learned last, and that was
learned from the codes. What the column held before is lost.

* `Column.Coded` — a column and the column of its codes.
* `Rule.encodeColumns_coded` — whatever the names and however often, each named column is replaced
  by its codes.
* `Encoder.fitTransform_label` — the same of an encoder, with what it stores.
* `Encoder.fitTransform_repeats` — so repeats do not change the table, but lose the mapping.
-/

namespace Tabula

variable {b c d : Column} {m : Mapping} {t u w : Table} {cs ds : List Column} {n p k : Nat}
  {name : String} {names : List String} {learned : List (String × Mapping)} {e e' : Encoder}

theorem nodup_eraseDups {α : Type} [BEq α] [LawfulBEq α] (l : List α) : l.eraseDups.Nodup := by
  have h := (onceInOrder_eraseDups (fun _ => true) l).nodup
  rwa [List.filter_true] at h

/-! ### Columns and their codes -/

namespace Column

/-- The codes that ascending values give the column are the other column. -/
def Coded (c d : Column) : Prop := ∃ m, Mapping.sorted c = .ok m ∧ m.encode c = .ok d

/-- What encoding the columns with the names makes of a column. -/
def CodedIn (names : List String) (c d : Column) : Prop :=
  if c.name ∈ names then Coded c d else d = c

theorem codedIn_of_mem (h : c.name ∈ names) : CodedIn names c d ↔ Coded c d := by
  rw [CodedIn, if_pos h]

theorem codedIn_of_notMem (h : c.name ∉ names) : CodedIn names c d ↔ d = c := by
  rw [CodedIn, if_neg h]

/-- Only the own name of a column counts among those given. -/
theorem codedIn_congr {names' : List String} (h : c.name ∈ names ↔ c.name ∈ names') :
    CodedIn names c d ↔ CodedIn names' c d := by
  unfold CodedIn
  simp only [h]

/-- A column has one column of codes. -/
theorem Coded.unique {d' : Column} (h : Coded c d) (h' : Coded c d') : d = d' := by
  obtain ⟨m, hm, hd⟩ := h
  obtain ⟨m', hm', hd'⟩ := h'
  obtain rfl : m = m' := Except.ok.inj (hm.symm.trans hm')
  exact Except.ok.inj (hd.symm.trans hd')

/-- What becomes of a column is determined by the names. -/
theorem CodedIn.unique {d' : Column} (h : CodedIn names c d) (h' : CodedIn names c d') :
    d = d' := by
  by_cases hc : c.name ∈ names
  · rw [codedIn_of_mem hc] at h h'
    exact h.unique h'
  · rw [codedIn_of_notMem hc] at h h'
    exact h.trans h'.symm

/-- The names and the columns determine what is made of these. -/
theorem eq_of_forall₂_codedIn {ds' : List Column} (h : List.Forall₂ (CodedIn names) cs ds)
    (h' : List.Forall₂ (CodedIn names) cs ds') : ds = ds' := by
  rw [← List.forall₂_eq_eq_eq]
  exact forall₂_of_common h h' fun c _ d d' => CodedIn.unique

/-- Codes are their own codes. -/
theorem Coded.self (hc : c.Canonical) (hl : c.length < 2 ^ 63) (h : Coded c d) : Coded d d := by
  obtain ⟨m, hm, hd⟩ := h
  obtain ⟨hsorted, henc, -⟩ := Mapping.sorted_of_encode hc hl hm hd
  exact ⟨_, hsorted, henc⟩

/-- Encoding one column and then those with the names is encoding them all. -/
theorem codedIn_cons (hd : Coded c d) (hself : Coded d d) (hdn : d.name = c.name)
    (hb : b.name = c.name → b = c) {b' : Column} (h : CodedIn names (d.replacedBy b) b') :
    CodedIn (c.name :: names) b b' := by
  by_cases hbn : b.name = c.name
  · obtain rfl := hb hbn
    have hcodes : d.replacedBy b = d := if_pos hdn.symm
    rw [hcodes] at h
    rw [codedIn_of_mem List.mem_cons_self]
    -- whether the codes are encoded again or left alone, they stay what they are
    by_cases hagain : d.name ∈ names
    · rwa [← hself.unique ((codedIn_of_mem hagain).1 h)]
    · rwa [(codedIn_of_notMem hagain).1 h]
  · have hother : d.replacedBy b = b := if_neg (hdn ▸ hbn)
    rw [hother] at h
    exact (codedIn_congr (by rw [List.mem_cons, or_iff_right hbn])).1 h

end Column

/-! ### Columns with the same codes -/

namespace Mapping

/-- A column of codes from zero on is what some column of integers from `a` on is encoded to. -/
theorem exists_column_countsFrom {ws : List Value} {a : Nat} (hd : d.Canonical)
    (ht : d.type = .integer) (hws : d.values = .ok ws) (hcounts : Value.CountsFrom 0 k ws)
    (hk : 0 < k) (ha : a + k ≤ 2 ^ 63) (hk63 : k < 2 ^ 63) :
    ∃ b, Reachable (.column b) ∧ b.name = d.name ∧ b.length = d.length ∧
      sorted b = .ok (consecutive a k) ∧ (consecutive a k).encode b = .ok d := by
  have hsound := sound_consecutive hk ha
  have hl : (consecutive a k).length < 2 ^ 63 := length_consecutive.trans_lt hk63
  have hcell : ∀ i < k, (consecutive a k).decodeCell d.name (.integer (Int64.ofNat i)) =
      .ok (.integer (Int64.ofNat (a + i))) := fun i hi => decodeCell_consecutive ha hi
  -- the column is found by decoding the codes
  obtain ⟨b, hb⟩ : ∃ b, (consecutive a k).decode d = .ok b := by
    refine hsound.exists_decode hws fun w hw => ?_
    obtain rfl | ⟨i, hi, rfl⟩ := hcounts.cases hw
    · exact ⟨.null, rfl⟩
    · rw [Nat.zero_add]
      exact ⟨_, hcell i hi⟩
  have hdec := hsound.decoded_of_decode hl hws hb
  obtain ⟨hbc, hbn, hbt, bs, hbs, hcells⟩ := decode_spec hb hws
  -- the column counts from where the categories begin, as the codes count from zero
  have hbcounts : Value.CountsFrom a k bs := by
    intro v
    rw [Value.mem_integers_iff]
    constructor
    · rintro ⟨hv, hn⟩
      obtain ⟨w, hw, hwv⟩ := forall₂_exists_left hcells hv
      obtain rfl | ⟨i, hi, rfl⟩ := hcounts.cases hw
      · cases hwv
        cases hn
      · rw [Nat.zero_add, hcell i hi] at hwv
        exact ⟨a + i, by omega, by omega, (Except.ok.inj hwv).symm⟩
    · rintro ⟨j, haj, hjk, rfl⟩
      have hcode : .integer (Int64.ofNat (j - a)) ∈ ws :=
        ((hcounts _).2 (Value.mem_integers_iff.2 ⟨j - a, by omega, by omega, rfl⟩)).1
      obtain ⟨v, hv, hwv⟩ := forall₂_exists_right hcells hcode
      rw [hcell (j - a) (by omega), Nat.add_sub_cancel' haj] at hwv
      obtain rfl := Except.ok.inj hwv
      exact ⟨hv, rfl⟩
  obtain ⟨d', hd', hdc', hnumbers⟩ := hsound.exists_encode_of_decoded hl hdec
  obtain rfl : d' = d := hnumbers.eq_of_integer hdc' hd ht
  have hreach : Reachable (.column b) := by
    obtain ⟨vs, -, hvs⟩ := bind_eq_ok_iff.1 hb
    obtain ⟨us, -, hus⟩ := bind_eq_ok_iff.1 hvs
    exact .ofValues hus
  exact ⟨b, hreach, hbn, hdec.length_eq, (sorted_eq_consecutive_iff hbs hk ha).2 ⟨hbt, hbcounts⟩,
    hd'⟩

/-- Mappings of integers from zero and from one on differ, so no mapping equals both. -/
theorem exists_ne_consecutive (hm : m.Sound) (hk : 0 < k) (hk63 : k < 2 ^ 63) :
    ∃ a ≤ 1, (consecutive a k == m) = false := by
  by_contra hall
  have heq : ∀ a ≤ 1, ∀ v, (Value.integers a k).contains v = m.categories.contains v := by
    intro a ha v
    have hbeq : (consecutive a k == m) = true := by
      rw [← Bool.not_eq_false]
      exact fun hne => hall ⟨a, ha, hne⟩
    exact Value.contains_congr ((like_iff (sound_consecutive hk (by omega)) hm).2 hbeq).categories
      BEq.rfl
  -- zero is among the integers from zero on, and not among those from one on
  have hzero : .integer (Int64.ofNat 0) ∈ Value.integers 1 k := by
    rw [← Value.contains_integers_iff, heq 1 le_rfl, ← heq 0 (Nat.zero_le 1),
      Value.contains_integers_iff, Value.mem_integers_iff]
    exact ⟨0, le_rfl, by omega, rfl⟩
  obtain ⟨i, hi, hik, h0⟩ := Value.mem_integers_iff.1 hzero
  have htoInt := congrArg Int64.toInt (Value.integer.inj h0)
  rw [Int64.toInt_ofNat_of_lt (by omega), Int64.toInt_ofNat_of_lt (by omega)] at htoInt
  omega

/-- The codes of a column do not tell what it holds: another column is encoded to them as well, by a
mapping that is not equal. -/
theorem exists_other_column (hc : c.Canonical) (hl : c.length < 2 ^ 63) (hm : sorted c = .ok m)
    (hd : m.encode c = .ok d) :
    ∃ b m', Reachable (.column b) ∧ b.name = c.name ∧ b.length = d.length ∧ sorted b = .ok m' ∧
      m'.encode b = .ok d ∧ m'.length = m.length ∧ (m' == m) = false := by
  obtain ⟨vs, hvs, -⟩ := hc.exists_values
  obtain ⟨hdc, hdn, hdt, ws, hws, hcounts⟩ := countsFrom_of_encode hc hl hm hd
  have hk := length_pos_of_sorted hc hm
  have hk63 : m.length < 2 ^ 63 := (length_le_of_sorted hvs hm).trans_lt hl
  -- the integers from zero on or those from one on make another mapping
  obtain ⟨a, ha, hne⟩ := exists_ne_consecutive (learned_of_sorted hc hm).sound hk hk63
  have hak : a + m.length ≤ 2 ^ 63 := by omega
  obtain ⟨b, hb, hbn, hbl, hsorted, henc⟩ :=
    exists_column_countsFrom hdc hdt hws hcounts hk hak hk63
  exact ⟨b, _, hb, hbn.trans hdn, hbl, hsorted, henc, length_consecutive, hne⟩

end Mapping

/-! ### Several columns one after the other -/

namespace Rule

/-- Encoding columns by ascending values replaces each named column by its codes, however often and
wherever its name is among the names, and no other column. -/
theorem encodeColumns_coded (h : t.Holds n cs) (hn : n < 2 ^ 63)
    (hr : label.encodeColumns p t names = .ok (u, learned)) :
    ∃ ds, u.Holds n ds ∧ List.Forall₂ (Column.CodedIn names) cs ds := by
  -- by induction on the names: the first column is replaced, and the rest starts from that table
  induction names generalizing p t cs learned with
  | nil =>
    obtain ⟨rfl, rfl⟩ := Prod.mk.inj (Except.ok.inj hr)
    exact ⟨cs, h, List.forall₂_same.2 fun c _ => (Column.codedIn_of_notMem List.not_mem_nil).2 rfl⟩
  | cons name names ih =>
    obtain ⟨c, m, d, w, rest, hc, hm, hd, hw, hrest, rfl⟩ := encodeColumns_cons_eq_ok_iff.1 hr
    obtain ⟨hmem, rfl⟩ := h.column_eq_ok_iff.1 hc
    have hcan : c.Canonical := h.canonical c hmem
    have hl : c.length < 2 ^ 63 := h.length_eq c hmem ▸ hn
    obtain ⟨hdc, hdn, -⟩ := Mapping.countsFrom_of_encode hcan hl hm hd
    obtain ⟨-, -, hwh⟩ := h.of_replace hdc hw
    have hcoded : Column.Coded c d := ⟨m, hm, hd⟩
    obtain ⟨ds, hds, hall⟩ := ih hwh hrest
    rw [List.forall₂_map_left_iff] at hall
    refine ⟨ds, hds, forall₂_imp_of_mem hall fun b hb b' hbb' => ?_⟩
    exact Column.codedIn_cons hcoded (hcoded.self hcan hl) hdn
      (fun hbn => h.eq_of_name_eq hb hmem hbn) hbb'

/-- Columns can be encoded by ascending values if each of them can be learned. -/
theorem exists_encodeColumns_label (h : t.Holds n cs) (hn : n < 2 ^ 63)
    (hall : ∀ k ∈ names, ∃ c ∈ cs, c.name = k ∧ ∃ m, Mapping.sorted c = .ok m) :
    ∃ u learned, label.encodeColumns p t names = .ok (u, learned) := by
  -- by induction on the names, for any table that still has columns to be learned
  induction names generalizing p t cs with
  | nil => exact ⟨t, [], rfl⟩
  | cons name names ih =>
    obtain ⟨⟨c, hmem, rfl, m, hm⟩, hrest⟩ := List.forall_mem_cons.1 hall
    have hcan : c.Canonical := h.canonical c hmem
    have hl : c.length < 2 ^ 63 := h.length_eq c hmem ▸ hn
    obtain ⟨d, w, hd, hdn, hw, hwh⟩ := h.exists_encoded hmem (Mapping.learned_of_sorted hcan hm)
    -- the codes can be learned as well
    obtain ⟨hself, -⟩ := Mapping.sorted_of_encode hcan hl hm hd
    have hnext : ∀ k ∈ names, ∃ b ∈ cs.map d.replacedBy, b.name = k ∧
        ∃ m, Mapping.sorted b = .ok m := by
      intro k hk
      obtain ⟨b, hb, rfl, hlearn⟩ := hrest k hk
      refine ⟨d.replacedBy b, List.mem_map_of_mem hb, Column.name_replacedBy, ?_⟩
      unfold Column.replacedBy
      split
      · exact ⟨_, hself⟩
      · exact hlearn
    obtain ⟨u, rest, hu⟩ := ih (p := p + 1) hwh hnext
    have hc : t.column c.name = .ok c := h.column_eq_ok_iff.2 ⟨hmem, rfl⟩
    exact ⟨u, _, encodeColumns_cons_eq_ok_iff.2 ⟨c, m, d, w, rest, hc, hm, hd, hw, hu, rfl⟩⟩

/-- What is stored for a column is learned from the column itself if it is named once, and from its
codes if it is named again. -/
theorem lookup_learned_label (h : t.Holds n cs) (hn : n < 2 ^ 63)
    (hr : label.encodeColumns 0 t names = .ok (u, learned)) (hc : c ∈ cs) (hname : c.name ∈ names) :
    ∃ m, Mapping.sorted c = .ok m ∧ learned.reverse.lookup c.name =
      some (if 2 ≤ names.count c.name then .consecutive 0 m.length else m) := by
  have hcan : c.Canonical := h.canonical c hc
  have hl : c.length < 2 ^ 63 := h.length_eq c hc ▸ hn
  obtain ⟨m', hm'⟩ : ∃ m', learned.reverse.lookup c.name = some m' := by
    rw [exists_lookup_eq_some_iff, List.map_reverse, List.mem_reverse, map_fst_of_encodeColumns hr]
    exact hname
  -- it was learned where the name occurs last, from what the names before had made of the column
  obtain ⟨done, rest, w, first, b, rfl, hrest, hfirst, hb, hlearn⟩ :=
    (Encoder.Operation.lookup_learned hr).1 hm'
  obtain ⟨ds, hds, hall⟩ := encodeColumns_coded h hn hfirst
  obtain ⟨d, hd, hcd⟩ := forall₂_exists_right hall hc
  have hcount : (done ++ c.name :: rest).count c.name = done.count c.name + 1 := by
    rw [List.count_append, List.count_cons_self, List.count_eq_zero_of_not_mem hrest]
  rw [hm', hcount]
  obtain ⟨hbmem, hbn⟩ := hds.column_eq_ok_iff.1 hb
  -- the name has been given before, and the column holds its codes by now, or it has not
  by_cases hdone : c.name ∈ done
  · obtain ⟨m, hm, henc⟩ := (Column.codedIn_of_mem hdone).1 hcd
    obtain ⟨-, hdn, -⟩ := Mapping.countsFrom_of_encode hcan hl hm henc
    obtain ⟨hself, -⟩ := Mapping.sorted_of_encode hcan hl hm henc
    obtain rfl : b = d := hds.eq_of_name_eq hbmem hd (hbn.trans hdn.symm)
    obtain rfl : .consecutive 0 m.length = m' := Except.ok.inj (hself.symm.trans hlearn)
    have hpos : 0 < done.count c.name := List.count_pos_iff.2 hdone
    exact ⟨m, hm, by rw [if_pos (by omega)]⟩
  · obtain rfl := (Column.codedIn_of_notMem hdone).1 hcd
    obtain rfl : b = d := hds.eq_of_name_eq hbmem hd hbn
    have hzero : done.count b.name = 0 := List.count_eq_zero_of_not_mem hdone
    exact ⟨m', hlearn, by rw [hzero, if_neg (by omega)]⟩

end Rule

/-! ### A call of an encoder -/

namespace Encoder

/-- What an encoder that learns by ascending values makes of a table, and what it stores. -/
theorem fitTransform_label (he : e.rule = .label) (h : t.Holds n cs) (hn : n < 2 ^ 63)
    (hu : (fitTransform t names).run.run e = (.ok u, e')) :
    e'.rule = .label ∧ (∀ k ∈ names, k ∈ t.columnNames) ∧
      (∃ ds, u.Holds n ds ∧ List.Forall₂ (Column.CodedIn names) cs ds) ∧
      (∀ c ∈ cs, c.name ∈ names → ∃ m, Mapping.sorted c = .ok m ∧ e'.mappings.get? c.name =
        some (if 2 ≤ names.count c.name then .consecutive 0 m.length else m)) ∧
      ∀ k, k ∉ names → e'.mappings.get? k = e.mappings.get? k := by
  rw [fitTransform_run] at hu
  split at hu
  · next a learned hr =>
    obtain ⟨_, hrequire, hr⟩ := bind_eq_ok_iff.1 hr
    obtain ⟨hau, rfl⟩ := Prod.mk.inj hu
    obtain rfl : a = u := Except.ok.inj hau
    rw [he] at hr
    refine ⟨he, Schema.require_eq_ok_iff.1 hrequire, Rule.encodeColumns_coded h hn hr, ?_, ?_⟩
    · -- a name that was given: what was learned last is found first
      intro c hc hname
      obtain ⟨m, hm, hlookup⟩ := Rule.lookup_learned_label h hn hr hc hname
      exact ⟨m, hm, by rw [MappingStore.get?_insertAll, hlookup, Option.some_or]⟩
    · -- a name that was not
      intro k hk
      have hnone : learned.reverse.lookup k = none := by
        rw [lookup_eq_none_iff_notMem, List.map_reverse, List.mem_reverse,
          Rule.map_fst_of_encodeColumns hr]
        exact hk
      rw [MappingStore.get?_insertAll, hnone, Option.none_or]
  · cases hu

/-- The call succeeds if all the named columns are there and can be learned. -/
theorem exists_fitTransform_label (he : e.rule = .label) (h : t.Holds n cs) (hn : n < 2 ^ 63)
    (hall : ∀ k ∈ names, ∃ c ∈ cs, c.name = k ∧ ∃ m, Mapping.sorted c = .ok m) :
    ∃ u e', (fitTransform t names).run.run e = (.ok u, e') := by
  have hmem : ∀ k ∈ names, k ∈ t.columnNames := by
    intro k hk
    obtain ⟨c, hc, hck, -⟩ := hall k hk
    exact h.mem_columnNames_iff.2 ⟨c, hc, hck⟩
  obtain ⟨u, learned, hr⟩ := Rule.exists_encodeColumns_label (p := 0) h hn hall
  rw [fitTransform_run, Schema.require_eq_ok_iff.2 hmem, ok_bind, he, hr]
  exact ⟨_, _, rfl⟩

/-- Names that are given again do not change the table. Given once, each name is stored with what
was learned from its column. -/
theorem fitTransform_eraseDups (he : e.rule = .label) (h : t.Holds n cs) (hn : n < 2 ^ 63)
    (hu : (fitTransform t names).run.run e = (.ok u, e')) :
    ∃ e'', (fitTransform t names.eraseDups).run.run e = (.ok u, e'') ∧ ∀ c ∈ cs, c.name ∈ names →
      ∃ m, Mapping.sorted c = .ok m ∧ e''.mappings.get? c.name = some m := by
  obtain ⟨-, hmem, ⟨ds, hds, hall⟩, hstored, -⟩ := fitTransform_label he h hn hu
  obtain ⟨w, e'', hw⟩ : ∃ w e'', (fitTransform t names.eraseDups).run.run e = (.ok w, e'') := by
    refine exists_fitTransform_label he h hn fun k hk => ?_
    rw [List.mem_eraseDups] at hk
    obtain ⟨c, hc, rfl⟩ := h.mem_columnNames_iff.1 (hmem k hk)
    obtain ⟨m, hm, -⟩ := hstored c hc hk
    exact ⟨c, hc, rfl, m, hm⟩
  obtain ⟨-, -, ⟨ds', hds', hall'⟩, hstored', -⟩ := fitTransform_label he h hn hw
  -- which columns are named is the same for both lists
  have hsame : List.Forall₂ (Column.CodedIn names) cs ds' :=
    hall'.imp fun c d => (Column.codedIn_congr List.mem_eraseDups).1
  obtain rfl := Column.eq_of_forall₂_codedIn hall hsame
  obtain rfl : u = w := hds.unique hds'
  refine ⟨e'', hw, fun c hc hname => ?_⟩
  obtain ⟨m, hm, hget⟩ := hstored' c hc (List.mem_eraseDups.2 hname)
  have honce : ¬2 ≤ names.eraseDups.count c.name := by
    have hle := List.nodup_iff_count_le_one.1 (nodup_eraseDups names) c.name
    omega
  rw [if_neg honce] at hget
  exact ⟨m, hm, hget⟩

/-- If a column is named twice, nothing that the call gives tells it from another column with the
same codes. -/
theorem fitTransform_of_same_codes {m' : Mapping} (he : e.rule = .label) (hord : e.mappings.Ordered)
    (h : t.Holds n cs) (hn : n < 2 ^ 63) (hu : (fitTransform t names).run.run e = (.ok u, e'))
    (hc : c ∈ cs) (htwice : 2 ≤ names.count c.name) (hm : Mapping.sorted c = .ok m)
    (hd : m.encode c = .ok d) (hbn : b.name = c.name) (hm' : Mapping.sorted b = .ok m')
    (hd' : m'.encode b = .ok d) (hlength : m'.length = m.length)
    (hw : w.Holds n (cs.map b.replacedBy)) :
    (fitTransform w names).run.run e = (.ok u, e') := by
  obtain ⟨hrule, hmem, ⟨ds, hds, hall⟩, hstored, hothers⟩ := fitTransform_label he h hn hu
  obtain ⟨v, e'', hv⟩ : ∃ v e'', (fitTransform w names).run.run e = (.ok v, e'') := by
    refine exists_fitTransform_label he hw hn fun k hk => ?_
    obtain ⟨x, hx, rfl⟩ := h.mem_columnNames_iff.1 (hmem k hk)
    obtain ⟨mx, hmx, -⟩ := hstored x hx hk
    refine ⟨b.replacedBy x, List.mem_map_of_mem hx, Column.name_replacedBy, ?_⟩
    unfold Column.replacedBy
    split
    · exact ⟨m', hm'⟩
    · exact ⟨mx, hmx⟩
  obtain ⟨hrule', -, ⟨ds', hds', hall'⟩, hstored', hothers'⟩ := fitTransform_label he hw hn hv
  have hnamed : c.name ∈ names := List.count_pos_iff.1 (by omega)
  -- the tables have the same codes
  have hsame : List.Forall₂ (Column.CodedIn names) (cs.map b.replacedBy) ds := by
    rw [List.forall₂_map_left_iff]
    refine forall₂_imp_of_mem hall fun x hx y hxy => ?_
    by_cases hxn : x.name = b.name
    · obtain rfl : x = c := h.eq_of_name_eq hx hc (hxn.trans hbn)
      have hy : y = d := ((Column.codedIn_of_mem hnamed).1 hxy).unique ⟨m, hm, hd⟩
      rw [Column.replacedBy_of_eq hxn, Column.codedIn_of_mem (hbn ▸ hnamed), hy]
      exact ⟨m', hm', hd'⟩
    · rwa [Column.replacedBy_of_ne hxn]
  obtain rfl := Column.eq_of_forall₂_codedIn hsame hall'
  obtain rfl : u = v := hds.unique hds'
  -- and the same is stored, as for the name that is given twice only the codes matter
  have hget : ∀ k, e'.mappings.get? k = e''.mappings.get? k := by
    intro k
    by_cases hk : k ∈ names
    · obtain ⟨x, hx, rfl⟩ := h.mem_columnNames_iff.1 (hmem k hk)
      obtain ⟨mx, hmx, hget⟩ := hstored x hx hk
      by_cases hxn : x.name = b.name
      · obtain rfl : x = c := h.eq_of_name_eq hx hc (hxn.trans hbn)
        obtain rfl : m = mx := Except.ok.inj (hm.symm.trans hmx)
        have hb : b ∈ cs.map b.replacedBy :=
          List.mem_map.2 ⟨x, hx, Column.replacedBy_of_eq hxn⟩
        obtain ⟨mb, hmb, hget'⟩ := hstored' b hb (hxn ▸ hk)
        obtain rfl : m' = mb := Except.ok.inj (hm'.symm.trans hmb)
        rw [hget, if_pos htwice, hxn, hget', ← hxn, if_pos htwice, hlength]
      · have hx' : x ∈ cs.map b.replacedBy :=
          List.mem_map.2 ⟨x, hx, Column.replacedBy_of_ne hxn⟩
        obtain ⟨mx', hmx', hget'⟩ := hstored' x hx' hk
        obtain rfl : mx = mx' := Except.ok.inj (hmx.symm.trans hmx')
        rw [hget, hget']
    · rw [hothers k hk, hothers' k hk]
  have hmappings : e'.mappings = e''.mappings := by
    have hord' : ((fitTransform t names).run.run e).2.mappings.Ordered := ordered_fitTransform hord
    have hord'' : ((fitTransform w names).run.run e).2.mappings.Ordered := ordered_fitTransform hord
    rw [hu] at hord'
    rw [hv] at hord''
    exact hord'.ext hord'' hget
  obtain ⟨r', s'⟩ := e'
  obtain ⟨r'', s''⟩ := e''
  obtain rfl : r' = r'' := hrule.trans hrule'.symm
  obtain rfl : s' = s'' := hmappings
  exact hv

/-- Naming columns again and again in one call makes the same table as naming each of them once. But
for a name that is given twice the encoder keeps only that the codes are codes: its mapping takes
each code to itself, so decoding the table leaves it as it is. What the column held cannot be told
any more, since for another table, which holds something else there, the call gives the same table
and the same encoder. The rows are few enough for their number to be a code. -/
theorem fitTransform_repeats (he : e.rule = .label) (hreach : Reachable (.encoder e))
    (ht : Reachable (.table t)) (hrows : t.rowCount < 2 ^ 63)
    (hu : (fitTransform t names).run.run e = (.ok u, e')) :
    (∃ e'', (fitTransform t names.eraseDups).run.run e = (.ok u, e'') ∧ ∀ name ∈ names,
      ∃ c m, t.column name = .ok c ∧ Mapping.sorted c = .ok m ∧
        e''.mappings.get? name = some m) ∧
    ∀ name, 2 ≤ names.count name →
      ∃ c vs m, t.column name = .ok c ∧ c.values = .ok vs ∧ Mapping.sorted c = .ok m ∧
        e'.mappings.get? name = some
          (.consecutive 0 (Value.countDistinct (vs.filter fun v => !v.isNull))) ∧
        e'.inverse u name = .ok u ∧
        ∃ t' c' m', Reachable (.table t') ∧ t'.column name = .ok c' ∧
          Mapping.sorted c' = .ok m' ∧ (m' == m) = false ∧
          (∀ k, k ≠ name → t'.column k = t.column k) ∧
          (fitTransform t' names).run.run e = (.ok u, e') := by
  obtain ⟨n, cs, h⟩ := ht.sound
  have hn : n < 2 ^ 63 := by rwa [← h.rowCount_eq]
  obtain ⟨-, hmem, ⟨ds, hds, hall⟩, hstored, -⟩ := fitTransform_label he h hn hu
  refine ⟨?_, fun name htwice => ?_⟩
  · obtain ⟨e'', hu'', hstored''⟩ := fitTransform_eraseDups he h hn hu
    refine ⟨e'', hu'', fun name hname => ?_⟩
    obtain ⟨c, hc, rfl⟩ := h.mem_columnNames_iff.1 (hmem name hname)
    obtain ⟨m, hm, hget⟩ := hstored'' c hc hname
    exact ⟨c, m, h.column_eq_ok_iff.2 ⟨hc, rfl⟩, hm, hget⟩
  · have hname : name ∈ names := List.count_pos_iff.1 (by omega)
    obtain ⟨c, hc, rfl⟩ := h.mem_columnNames_iff.1 (hmem name hname)
    have hcan : c.Canonical := h.canonical c hc
    have hl : c.length < 2 ^ 63 := h.length_eq c hc ▸ hn
    obtain ⟨vs, hvs, -⟩ := hcan.exists_values
    obtain ⟨d, hd, hcd⟩ := forall₂_exists_right hall hc
    obtain ⟨m, hm, henc⟩ := (Column.codedIn_of_mem hname).1 hcd
    obtain ⟨hdc, hdn, -⟩ := Mapping.countsFrom_of_encode hcan hl hm henc
    obtain ⟨m₁, hm₁, hget⟩ := hstored c hc hname
    obtain rfl : m = m₁ := Except.ok.inj (hm.symm.trans hm₁)
    rw [if_pos htwice] at hget
    refine ⟨c, vs, m, h.column_eq_ok_iff.2 ⟨hc, rfl⟩, hvs, hm, ?_, ?_, ?_⟩
    · rw [hget, Mapping.length_of_sorted hvs hm]
    · -- the stored mapping decodes the codes to themselves
      have hcol : u.column c.name = .ok d := hds.column_eq_ok_iff.2 ⟨hd, hdn⟩
      obtain ⟨-, -, hdec⟩ := Mapping.sorted_of_encode hcan hl hm henc
      rw [inverse_of_column hcol hget, hdec, ok_bind, hds.replace_self hd]
    · -- another column with the same codes in the place of the column makes another table
      obtain ⟨b, m', hb, hbn, hbl, hm', henc', hlength, hne⟩ :=
        Mapping.exists_other_column hcan hl hm henc
      have hbrows : b.length = n := hbl.trans (hds.length_eq d hd)
      obtain ⟨w, hw, hwh⟩ := h.exists_replace hb.sound
        (h.mem_columnNames_iff.2 ⟨c, hc, hbn.symm⟩) hbrows
      refine ⟨w, b, m', .replace ht hb hw, ?_, hm', hne, fun k hk => ?_, ?_⟩
      · exact hbn ▸ hwh.column_replaced hc hbn.symm
      · exact h.column_of_ne hwh (hbn ▸ hk)
      · exact fitTransform_of_same_codes he hreach.ordered_mappings h hn hu hc htwice hm henc hbn
          hm' henc' hlength hwh

/-- The names of two persons are learned before and after their scores. -/
theorem fitTransform_repeats_scores : ∃ t u e, Table.ofFrame .scores = .ok t ∧
    (fitTransform t ["name", "score", "name"]).run.run (ofRule .label) = (.ok u, e) ∧
    e.mappings.get? "name" = some (.consecutive 0 2) ∧ e.inverse u "name" = .ok u ∧
      ∃ e', (fitTransform t ["name", "score"]).run.run (ofRule .label) = (.ok u, e') := by
  obtain ⟨t, u, e, ht, hu, hget⟩ : ∃ t u e, Table.ofFrame .scores = .ok t ∧
      (fitTransform t ["name", "score", "name"]).run.run (ofRule .label) = (.ok u, e) ∧
      e.mappings.get? "name" = some (.consecutive 0 2) := ⟨_, _, _, rfl, rfl, rfl⟩
  obtain ⟨⟨e', honce, -⟩, htwice⟩ :=
    fitTransform_repeats rfl (.ofRule .label) (.ofFrame ht) (by cases ht; decide) hu
  obtain ⟨-, -, -, -, -, -, -, hinverse, -⟩ := htwice "name" (by decide)
  exact ⟨t, u, e, ht, hu, hget, hinverse, e', honce⟩

end Encoder

end Tabula
