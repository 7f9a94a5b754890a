import Tabula.Proofs.RoundTrip

/-!
# Recovering several columns

Encoding several columns in one call replaces them one after the other, so that all but the first
mapping are learned from a table that is encoded in part already. If no name is given twice, each of
them is nevertheless learned from the column that was there at the beginning, and the columns stay
out of each other's way: they can be decoded one by one, in whatever order.

* `Column.Encoded` — a column after several columns were encoded, and
  `Rule.encodeColumns_forall₂` — encoding columns with distinct names makes each column this.
* `Table.EncodedAt` — columns that are encoded, in a table that is otherwise the same.
* `Encoder.Pending` — a column that may still have to be decoded, with
  `Encoder.exists_inverse_of_pending` for one call and `Encoder.exists_foldlM_inverse` for a run.
* `Encoder.inverses_of_fitTransform` — decoding in any order ends in an equal table.
-/

namespace Tabula

variable {r : Rule} {e e' : Encoder} {t u : Table} {n p : Nat} {cs ds : List Column} {c d : Column}
  {m : Mapping} {names left left' : List String} {name : String} {learned : List (String × Mapping)}

/-! ### Encoding columns with distinct names -/

/-- A column after several columns were encoded: its codes by the mapping that was learned from it,
or the column itself if none was learned under its name. -/
def Column.Encoded (learned : List (String × Mapping)) (c d : Column) : Prop :=
  match learned.lookup c.name with
  | some m => m.Learned c ∧ m.encode c = .ok d
  | none => d = c

namespace Column

/-- A column for which something was learned is encoded by it. -/
theorem encoded_of_lookup_eq_some (h : learned.lookup c.name = some m) :
    Encoded learned c d ↔ m.Learned c ∧ m.encode c = .ok d := by
  unfold Encoded
  rw [h]

/-- A column for which nothing was learned stays as it is. -/
theorem encoded_of_lookup_eq_none (h : learned.lookup c.name = none) :
    Encoded learned c d ↔ d = c := by
  unfold Encoded
  rw [h]

/-- A column keeps its name, whether it is encoded or not. -/
theorem Encoded.name_eq (h : Encoded learned c d) (hc : c.Canonical) : d.name = c.name := by
  cases hl : learned.lookup c.name with
  | none =>
    rw [encoded_of_lookup_eq_none hl] at h
    rw [h]
  | some m =>
    rw [encoded_of_lookup_eq_some hl] at h
    obtain ⟨vs, hvs, -⟩ := hc.exists_values
    exact (Mapping.encode_spec h.2 hvs).2.1

end Column

/-- One step of encoding columns: once the column has been replaced by its codes, what the rest
makes of the columns is what all of them make of the columns before. -/
theorem Column.encoded_cons (hn : c.name ∉ learned.map Prod.fst) (hm : m.Learned c)
    (hd : m.encode c = .ok d) (hdn : d.name = c.name) {b b' : Column}
    (hb : b.name = c.name → b = c) (h : Encoded learned (d.replacedBy b) b') :
    Encoded ((c.name, m) :: learned) b b' := by
  -- the column learned first, and then all the others
  by_cases hbn : b.name = c.name
  · obtain rfl := hb hbn
    -- nothing is learned from the codes, so they stay what they are
    have hcodes : d.replacedBy b = d := if_pos hdn.symm
    have hnone : learned.lookup d.name = none := by
      rw [hdn]
      exact lookup_eq_none_iff_notMem.2 hn
    rw [hcodes, encoded_of_lookup_eq_none hnone] at h
    have hsome : ((b.name, m) :: learned).lookup b.name = some m := List.lookup_cons_self
    rw [encoded_of_lookup_eq_some hsome, h]
    exact ⟨hm, hd⟩
  · have hother : d.replacedBy b = b := if_neg (hdn ▸ hbn)
    have hskip : ((c.name, m) :: learned).lookup b.name = learned.lookup b.name := by
      rw [List.lookup_cons, beq_eq_false_iff_ne.2 hbn]
    rw [hother] at h
    unfold Encoded at h ⊢
    rwa [hskip]

/-- Encoding columns with distinct names replaces each of them by the codes of the mapping that is
learned from it, and no other column. -/
theorem Rule.encodeColumns_forall₂ (h : t.Holds n cs) (hn : names.Nodup)
    (hr : r.encodeColumns p t names = .ok (u, learned)) :
    ∃ ds, u.Holds n ds ∧ List.Forall₂ (Column.Encoded learned) cs ds := by
  -- by induction on the names: the first column is replaced, and the rest starts from that table
  induction names generalizing p t cs learned with
  | nil =>
    obtain ⟨rfl, rfl⟩ := Prod.mk.inj (Except.ok.inj hr)
    exact ⟨cs, h, List.forall₂_same.2 fun c _ => rfl⟩
  | cons name names ih =>
    obtain ⟨hname, hnames⟩ := List.nodup_cons.1 hn
    obtain ⟨c, m, d, w, rest, hc, hm, hd, hw, hrest, rfl⟩ := encodeColumns_cons_eq_ok_iff.1 hr
    have hcan : c.Canonical := h.canonical_of_column hc
    obtain ⟨hmem, rfl⟩ := h.column_eq_ok_iff.1 hc
    obtain ⟨vs, hvs, -⟩ := hcan.exists_values
    obtain ⟨hdc, hdn, -⟩ := Mapping.encode_spec hd hvs
    obtain ⟨-, -, hwh⟩ := h.of_replace hdc hw
    obtain ⟨ds, hds, hall⟩ := ih hwh hnames hrest
    refine ⟨ds, hds, ?_⟩
    rw [← map_fst_of_encodeColumns hrest] at hname
    rw [List.forall₂_map_left_iff] at hall
    refine forall₂_imp_of_mem hall fun b hb b' hbb' => ?_
    -- the first column is the only one with its name
    have hbc : b.name = c.name → b = c := fun hbn => h.eq_of_name_eq hb hmem hbn
    exact Column.encoded_cons hname (learned_of_learn hcan hm) hd hdn hbc hbb'

/-! ### Tables with encoded columns -/

/-- A cell is null exactly if its code is. -/
theorem Mapping.isNull_of_encodeCell {v w : Value} (h : m.encodeCell name v = .ok w) :
    w.isNull = v.isNull := by
  obtain ⟨hv, rfl⟩ | ⟨hv, code, -, rfl⟩ := encodeCell_eq_ok_iff.1 h
  · rw [hv]
    rfl
  · rw [hv]
    rfl

namespace Table

/-- The columns with the names are encoded in `u`: they hold integers, with empty cells where they
had empty cells in `t`. Everything else is as it is in `t`. -/
structure EncodedAt (u t : Table) (names : List String) : Prop where
  columnNames_eq : u.columnNames = t.columnNames
  rowCount_eq : u.rowCount = t.rowCount
  codes : ∀ name ∈ names, ∃ vs d ws, t.columnValues name = .ok vs ∧ u.column name = .ok d ∧
    d.type = .integer ∧ d.values = .ok ws ∧ List.Forall₂ (fun v w => w.isNull = v.isNull) vs ws
  others : ∀ name, name ∉ names → u.column name = t.column name

/-- Columns that were encoded one by one make a table that is encoded at the names learned and
nowhere else. -/
theorem Holds.encodedAt (ht : t.Holds n cs) (hu : u.Holds n ds)
    (h : List.Forall₂ (Column.Encoded learned) cs ds)
    (hmem : ∀ k ∈ learned.map Prod.fst, k ∈ t.columnNames) :
    u.EncodedAt t (learned.map Prod.fst) := by
  have hnames : u.columnNames = t.columnNames := by
    rw [hu.columnNames_eq, ht.columnNames_eq, eq_comm]
    refine List.forall₂_eq_eq_eq ▸ ?_
    rw [List.forall₂_map_left_iff, List.forall₂_map_right_iff]
    exact forall₂_imp_of_mem h fun c hc d hcd => (hcd.name_eq (ht.canonical c hc)).symm
  refine ⟨hnames, hu.rowCount_eq.trans ht.rowCount_eq.symm, ?_, ?_⟩
  · -- a name that was learned: its column holds codes, null where it was null
    intro name hname
    obtain ⟨c, hc, rfl⟩ := ht.mem_columnNames_iff.1 (hmem name hname)
    obtain ⟨d, hd, hcd⟩ := forall₂_exists_right h hc
    obtain ⟨m, hm⟩ := exists_lookup_eq_some_iff.2 hname
    rw [Column.encoded_of_lookup_eq_some hm] at hcd
    obtain ⟨vs, hvs, -⟩ := (ht.canonical c hc).exists_values
    obtain ⟨-, hdn, hdt, ws, hws, hcells⟩ := Mapping.encode_spec hcd.2 hvs
    have hcol : t.columnValues c.name = .ok vs :=
      columnValues_eq_ok_iff.2 ⟨c, ht.column_eq_ok_iff.2 ⟨hc, rfl⟩, hvs⟩
    have hcodes : u.column c.name = .ok d := hu.column_eq_ok_iff.2 ⟨hd, hdn⟩
    exact ⟨vs, d, ws, hcol, hcodes, hdt, hws,
      hcells.imp fun v w hvw => Mapping.isNull_of_encodeCell hvw⟩
  · intro name hname
    -- also a name without a column is without one in both tables
    by_cases hcol : name ∈ t.columnNames
    · obtain ⟨c, hc, rfl⟩ := ht.mem_columnNames_iff.1 hcol
      obtain ⟨d, hd, hcd⟩ := forall₂_exists_right h hc
      rw [Column.encoded_of_lookup_eq_none (lookup_eq_none_iff_notMem.2 hname)] at hcd
      subst hcd
      rw [hu.column_eq_ok_iff.2 ⟨hd, rfl⟩, ht.column_eq_ok_iff.2 ⟨hc, rfl⟩]
    · rw [column_of_notMem hcol, column_of_notMem (hnames ▸ hcol)]

end Table

/-! ### Decoding in any order -/

namespace Encoder

/-- A column on the way back: as long as its name is left, its codes by a stored mapping that was
learned from it, and then a column that is equal to it. -/
def Pending (e : Encoder) (left : List String) (c d : Column) : Prop :=
  if c.name ∈ left then
    ∃ m, e.mappings.get? c.name = some m ∧ m.length < 2 ^ 63 ∧ m.Learned c ∧ m.encode c = .ok d
  else (d == c) = true

/-- A column whose name is left holds codes, and there is a mapping to decode them. -/
theorem pending_of_mem (h : c.name ∈ left) : e.Pending left c d ↔
    ∃ m, e.mappings.get? c.name = some m ∧ m.length < 2 ^ 63 ∧ m.Learned c ∧
      m.encode c = .ok d := by
  unfold Pending
  rw [if_pos h]

/-- A column whose name is not left equals the one of the beginning. -/
theorem pending_of_notMem (h : c.name ∉ left) : e.Pending left c d ↔ (d == c) = true := by
  unfold Pending
  rw [if_neg h]

/-- Only the own name of a column counts among those left. -/
theorem pending_congr (h : c.name ∈ left ↔ c.name ∈ left') :
    e.Pending left c d ↔ e.Pending left' c d := by
  by_cases hc : c.name ∈ left'
  · rw [pending_of_mem hc, pending_of_mem (h.2 hc)]
  · rw [pending_of_notMem hc, pending_of_notMem (mt h.1 hc)]

/-- A column has its name, whether it is still to be decoded or not. -/
theorem Pending.name_eq (h : e.Pending left c d) (hc : c.Canonical) : d.name = c.name := by
  by_cases hmem : c.name ∈ left
  · obtain ⟨m, -, -, -, hd⟩ := (pending_of_mem hmem).1 h
    obtain ⟨vs, hvs, -⟩ := hc.exists_values
    exact (Mapping.encode_spec hd hvs).2.1
  · have hdc : (d == c) = true := (pending_of_notMem hmem).1 h
    exact congrArg Prod.fst (Column.entry_and_values_of_beq hdc).1

/-- A name that is left can be decoded, and then the others are left. -/
theorem exists_inverse_of_pending (ht : t.Holds n cs) (hu : u.Holds n ds)
    (h : List.Forall₂ (e.Pending (name :: left)) cs ds) (hname : name ∈ t.columnNames)
    (hleft : name ∉ left) : ∃ w es, e.inverse u name = .ok w ∧ w.Holds n es ∧
      List.Forall₂ (e.Pending left) cs es := by
  obtain ⟨c, hc, rfl⟩ := ht.mem_columnNames_iff.1 hname
  have hcan : c.Canonical := ht.canonical c hc
  obtain ⟨vs, hvs, -⟩ := hcan.exists_values
  obtain ⟨d, hd, hcd⟩ := forall₂_exists_right h hc
  have hdn : d.name = c.name := hcd.name_eq hcan
  obtain ⟨m, hm, hl, hlearned, he⟩ := (pending_of_mem List.mem_cons_self).1 hcd
  -- decoding gives back a column that equals the one of the beginning
  obtain ⟨b, bs, w, hb, hw, hwh, -, hbn, hbt, hbs, hback⟩ :=
    hu.exists_decoded_of_encode hd hlearned.sound hl hvs he
  have hcol : u.column c.name = .ok d := hu.column_eq_ok_iff.2 ⟨hd, hdn⟩
  have htype : c.type = b.type := hlearned.type_eq.symm.trans hbt.symm
  have hcb : (c == b) = true :=
    Column.beq_of_forall₂ hbn.symm htype hvs hbs (hback.imp fun _ _ hvw => hvw.1)
  refine ⟨w, ds.map b.replacedBy, inverse_eq_ok_iff.2 ⟨d, m, b, hcol, hm, hb, hw⟩, hwh, ?_⟩
  rw [List.forall₂_map_right_iff]
  refine forall₂_imp_of_mem h fun a ha a' haa' => ?_
  have han : a'.name = a.name := haa'.name_eq (ht.canonical a ha)
  by_cases hac : a.name = c.name
  · -- this is the column that was decoded, and its name is not left any more
    obtain rfl := ht.eq_of_name_eq ha hc hac
    have hdecoded : b.replacedBy a' = b := if_pos (han.trans hbn.symm)
    rw [hdecoded, pending_of_notMem hleft]
    exact Column.beq_symm hcb
  · have hother : b.replacedBy a' = a' := if_neg fun h' => hac (han.symm.trans (h'.trans hbn))
    rw [hother]
    exact (pending_congr (List.mem_cons.trans (or_iff_right hac))).1 haa'

/-- All names that are left can be decoded, in the order in which they stand, and then the table is
back. -/
theorem exists_foldlM_inverse (ht : t.Holds n cs) (hu : u.Holds n ds)
    (h : List.Forall₂ (e.Pending left) cs ds) (hn : left.Nodup)
    (hmem : ∀ k ∈ left, k ∈ t.columnNames) :
    ∃ w, left.foldlM (fun u name => e.inverse u name) u = .ok w ∧ (w == t) = true := by
  -- by induction on the names that are left, with what is pending as the invariant
  induction left generalizing u ds with
  | nil =>
    -- nothing is pending any more, so every column is equal to the one at the beginning
    have hall : List.Forall₂ (fun d c => (d == c) = true) ds cs := h.flip
    exact ⟨u, rfl, hu.equal_of_forall₂ ht hall⟩
  | cons name left ih =>
    obtain ⟨hname, hleft⟩ := List.nodup_cons.1 hn
    obtain ⟨hk, hks⟩ := List.forall_mem_cons.1 hmem
    obtain ⟨v, es, hv, hvh, hes⟩ := exists_inverse_of_pending ht hu h hk hname
    obtain ⟨w, hw, hwt⟩ := ih hvh hes hleft hks
    refine ⟨w, ?_, hwt⟩
    rw [List.foldlM_cons, hv, ok_bind]
    exact hw

/-- Right after several columns with distinct names were learned and encoded, the stored mapping of
each of them is the one that was learned from it. -/
theorem pending_of_encoded (hn : (learned.map Prod.fst).Nodup) (hc : c.Canonical)
    (hl : ∀ k ∈ learned.map Prod.fst, ∀ m, (e.mappings.insertAll learned).get? k = some m →
      m.length < 2 ^ 63)
    (h : Column.Encoded learned c d) :
    Pending { e with mappings := e.mappings.insertAll learned } (learned.map Prod.fst) c d := by
  -- nothing was learned for the column, and it is as it was, or its codes can be decoded
  cases hlook : learned.lookup c.name with
  | none =>
    rw [Column.encoded_of_lookup_eq_none hlook] at h
    rw [pending_of_notMem (lookup_eq_none_iff_notMem.1 hlook), h]
    exact hc.beq_self
  | some m =>
    rw [Column.encoded_of_lookup_eq_some hlook] at h
    have hpair : (c.name, m) ∈ learned := (lookup_eq_some_iff_mem hn).1 hlook
    have hmem : c.name ∈ learned.map Prod.fst := List.mem_map_of_mem hpair
    -- no name was learned twice, so it does not matter from which end the mapping is looked for
    have hrev : learned.reverse.lookup c.name = some m := by
      rw [lookup_eq_some_iff_mem]
      · exact List.mem_reverse.2 hpair
      · rwa [List.map_reverse, List.nodup_reverse]
    have hget : (e.mappings.insertAll learned).get? c.name = some m := by
      rw [MappingStore.get?_insertAll, hrev, Option.some_or]
    exact (pending_of_mem hmem).2 ⟨m, hget, hl c.name hmem m hget, h.1, h.2⟩

/-- Learning and encoding columns with distinct names encodes exactly these, and decoding them one
by one, in whatever order, succeeds at every step and ends in a table equal to the one at the
beginning. The bound, below which codes are not negative, holds for every list of categories that
fits into memory. -/
theorem inverses_of_fitTransform (ht : Reachable (.table t)) (hn : names.Nodup)
    (h : (fitTransform t names).run.run e = (.ok u, e')) :
    u.EncodedAt t names ∧
      ((∀ name ∈ names, ∀ m, e'.mappings.get? name = some m → m.length < 2 ^ 63) →
        ∀ order : List String, order.Perm names →
          ∃ w, order.foldlM (fun u name => e'.inverse u name) u = .ok w ∧ (w == t) = true) := by
  obtain ⟨n, cs, hh⟩ := ht.sound
  rw [fitTransform_run] at h
  split at h
  · next v learned hv =>
    obtain ⟨_, hreq, hv⟩ := bind_eq_ok_iff.1 hv
    obtain ⟨huv, rfl⟩ := Prod.mk.inj h
    obtain rfl : v = u := Except.ok.inj huv
    obtain rfl : learned.map Prod.fst = names := Rule.map_fst_of_encodeColumns hv
    have hmem : ∀ k ∈ learned.map Prod.fst, k ∈ t.columnNames := Schema.require_eq_ok_iff.1 hreq
    obtain ⟨ds, hds, hall⟩ := Rule.encodeColumns_forall₂ hh hn hv
    -- after the call all columns that were learned are encoded, and the others are as they were
    refine ⟨hh.encodedAt hds hall hmem, ?_⟩
    intro hl order hperm
    have hpending : List.Forall₂
        (Pending { e with mappings := e.mappings.insertAll learned } order) cs ds := by
      refine forall₂_imp_of_mem hall fun c hc d hcd => ?_
      -- whether a name is left does not depend on the order of the names
      rw [pending_congr hperm.mem_iff]
      exact pending_of_encoded hn (hh.canonical c hc) hl hcd
    exact exists_foldlM_inverse hh hds hpending (hperm.nodup_iff.2 hn)
      fun k hk => hmem k (hperm.mem_iff.1 hk)
  · cases h

/-- The order is the one of the names and does not apply to the scores, which are decoded first. -/
theorem inverses_of_fitTransform_scores : ∃ t u e' w, Table.ofFrame .scores = .ok t ∧
    (fitTransform t ["name", "score"]).run.run (ofRule (.ordinal
      { shared := some [.string "bob", .string "ann"], policy := .firstColumnOnly })) =
        (.ok u, e') ∧
      u.EncodedAt t ["name", "score"] ∧
        ["score", "name"].foldlM (fun u name => e'.inverse u name) u = .ok w ∧
          (w == t) = true := by
  obtain ⟨t, u, e', m, m', ht, hu, hm, hm', hl, hl'⟩ : ∃ t u e' m m',
      Table.ofFrame .scores = .ok t ∧
      (fitTransform t ["name", "score"]).run.run (ofRule (.ordinal
        { shared := some [.string "bob", .string "ann"], policy := .firstColumnOnly })) =
          (.ok u, e') ∧
      e'.mappings.get? "name" = some m ∧ e'.mappings.get? "score" = some m' ∧
      m.length = 2 ∧ m'.length = 2 := ⟨_, _, _, _, _, rfl, rfl, rfl, rfl, rfl, rfl⟩
  have hlen : ∀ name ∈ ["name", "score"], ∀ k, e'.mappings.get? name = some k →
      k.length < 2 ^ 63 := by
    intro name hname k hk
    obtain rfl | rfl : name = "name" ∨ name = "score" := by simpa using hname
    · obtain rfl := Option.some.inj (hm.symm.trans hk)
      omega
    · obtain rfl := Option.some.inj (hm'.symm.trans hk)
      omega
  obtain ⟨hcodes, horder⟩ := inverses_of_fitTransform (.ofFrame ht) (by decide) hu
  obtain ⟨w, hw, hwt⟩ := horder hlen ["score", "name"] (List.Perm.swap _ _ _)
  exact ⟨t, u, e', w, ht, hu, hcodes, hw, hwt⟩

end Encoder

end Tabula
