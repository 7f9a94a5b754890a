import Tabula.Proofs.Equality
import Tabula.Proofs.Reachable

/-!
# Decoding undoes encoding

A stored mapping is a bijection wherever it was learned, so a column that was encoded by it can be
decoded again, also in another table than the one that the encoder was fitted on. What comes back
equals what was there. Only the type of a column without any value is lost: it comes back as the
type of the mapping.

* `Table.Restores` — equal cells, and identical ones wherever equality leaves no choice.
* `Holds.exists_decoded_of_encode` — codes can be decoded in whatever table they stand.
* `Encoder.inverse_of_transform` — encoding and decoding by any encoder, on any table.
-/

namespace Tabula

variable {t u w : Table} {n : Nat} {cs ds : List Column} {c d : Column} {m : Mapping} {e : Encoder}
  {vs ws : List Value} {name : String}

namespace Table

/-! ### Decoding what was encoded -/

/-- The cells of the table are equal to those of `t`, and identical to them except for zeros and
not-a-numbers. -/
def Restores (w t : Table) : Prop :=
  ∀ name ∈ t.columnNames, ∃ vs ws, t.columnValues name = .ok vs ∧ w.columnValues name = .ok ws ∧
    List.Forall₂ (fun v w => (v == w) = true ∧ (v.isFolded = false → w = v)) vs ws

/-- Equal tables restore each other: equality leaves no other choice. -/
theorem Holds.restores_of_forall₂ (ht : t.Holds n cs) (hw : w.Holds n ds)
    (h : List.Forall₂ (fun c d => (c == d) = true) cs ds) : w.Restores t := by
  intro k hk
  obtain ⟨vs, ws, hvs, hws, hv⟩ := ht.columnValues_of_forall₂ hw h hk
  refine ⟨vs, ws, hvs, hws, (Value.list_beq_iff_forall₂.1 hv).imp fun v w hvw => ⟨hvw, ?_⟩⟩
  intro hf
  exact (Value.eq_of_beq_of_not_folded hvw hf).symm

/-- The codes of a column can be decoded in whatever table they stand, which replaces them by values
equal to the ones encoded. -/
theorem Holds.exists_decoded_of_encode (hu : u.Holds n ds) (hd : d ∈ ds) (hm : m.Sound)
    (hl : m.length < 2 ^ 63) (hvs : c.values = .ok vs) (he : m.encode c = .ok d) :
    ∃ b bs w, m.decode d = .ok b ∧ u.replace b = .ok w ∧ w.Holds n (ds.map b.replacedBy) ∧
      b.Canonical ∧ b.name = c.name ∧ b.type = m.type ∧ b.values = .ok bs ∧
        List.Forall₂ (fun v w => (v == w) = true ∧ (v.isNull = true → w = .null)) vs bs := by
  obtain ⟨-, hdn, -, ws, hws, hcode⟩ := Mapping.encode_spec he hvs
  obtain ⟨b, bs, hb, hbc, hbn, hbt, hbs, hback⟩ := hm.exists_decode_of_encode hl hvs he
  -- encoding and decoding keep the number of values, so the result fits into the table
  have hblen : b.length = n :=
    calc b.length = bs.length := (Series.values_spec hbs).2.1.symm
      _ = vs.length := hback.length_eq.symm
      _ = ws.length := hcode.length_eq
      _ = d.length := (Series.values_spec hws).2.1
      _ = n := hu.length_eq d hd
  have hbu : b.name ∈ u.columnNames := hu.mem_columnNames_iff.2 ⟨d, hd, hdn.trans hbn.symm⟩
  obtain ⟨w, hw, hwh⟩ := hu.exists_replace hbc hbu hblen
  exact ⟨b, bs, w, hb, hw, hwh, hbc, hbn, hbt, hbs, hback⟩

/-- A column that was encoded in place can be decoded in place, which replaces it by values equal to
the ones encoded. -/
theorem Holds.exists_decoded (ht : t.Holds n cs) (hc : c ∈ cs) (hm : m.Sound)
    (hl : m.length < 2 ^ 63) (hvs : c.values = .ok vs) (hd : m.encode c = .ok d)
    (hu : t.replace d = .ok u) :
    ∃ b bs w, u.column c.name = .ok d ∧ m.decode d = .ok b ∧ u.replace b = .ok w ∧
      t.replace b = .ok w ∧ w.Holds n (cs.map b.replacedBy) ∧ b.name = c.name ∧ b.type = m.type ∧
        b.values = .ok bs ∧
        List.Forall₂ (fun v w => (v == w) = true ∧ (v.isNull = true → w = .null)) vs bs := by
  obtain ⟨hdc, hdn, -⟩ := Mapping.encode_spec hd hvs
  obtain ⟨-, -, huh⟩ := ht.of_replace hdc hu
  have hmem : d ∈ cs.map d.replacedBy :=
    List.mem_map.2 ⟨c, hc, Column.replacedBy_of_eq hdn.symm⟩
  obtain ⟨b, bs, w, hb, hw, hwh, hbc, hbn, hbt, hbs, hback⟩ :=
    huh.exists_decoded_of_encode hmem hm hl hvs hd
  -- replacing the codes and replacing the column itself leave the same columns
  rw [List.map_map, Column.replacedBy_comp_replacedBy (hbn.trans hdn.symm)] at hwh
  have hbt' : b.name ∈ t.columnNames := ht.mem_columnNames_iff.2 ⟨c, hc, hbn.symm⟩
  have hblen : b.length = n :=
    hwh.length_eq b (List.mem_map.2 ⟨c, hc, Column.replacedBy_of_eq hbn.symm⟩)
  obtain ⟨w', hw', hwh'⟩ := ht.exists_replace hbc hbt' hblen
  obtain rfl : w = w' := hwh.unique hwh'
  exact ⟨b, bs, w, hdn ▸ huh.column_replaced hc hdn.symm, hb, hw, hw', hwh, hbn, hbt, hbs, hback⟩

end Table

namespace Encoder

/-- A value that has a code is of the type of the mapping, and so is the column that holds it. -/
theorem type_eq_of_encode (hm : m.Sound) (hvs : c.values = .ok vs) (hd : m.encode c = .ok d)
    (hv : ∃ v ∈ vs, v.isNull = false) : c.type = m.type := by
  obtain ⟨v, hv, hn⟩ := hv
  obtain ⟨-, -, -, ws, -, hcells⟩ := Mapping.encode_spec hd hvs
  obtain ⟨w, -, hvw⟩ := forall₂_exists_right hcells hv
  -- both the mapping and the column accept the value, which has only one type
  have hvm : v.columnType? = some m.type := hm.columnType?_of_encodeCell hvw hn
  have hacc : c.type.accepts v = true := (Series.values_spec hvs).2.2 v hv
  obtain hnull | hvc := accepts_iff.1 hacc
  · rw [hn] at hnull
    cases hnull
  · exact Option.some.inj (hvc.symm.trans hvm)

/-- A column that can be learned can be encoded afterwards. -/
theorem exists_transform_of_fit {e' : Encoder} (ht : t.Holds n cs)
    (hf : (fit t name).run.run e = (.ok (), e')) : ∃ u, e'.transform t name = .ok u := by
  obtain ⟨c, m, hc, hm, rfl⟩ := exists_learn_of_fit hf
  obtain ⟨hmem, rfl⟩ := ht.column_eq_ok_iff.1 hc
  have hlearned : m.Learned c := Rule.learned_of_learn (ht.canonical c hmem) hm
  obtain ⟨d, u, hd, -, hu, -⟩ := ht.exists_encoded hmem hlearned
  -- the mapping that is found now is the one that was just learned from the column
  have hget : (e.mappings.insert c.name m).get? c.name = some m := by
    rw [MappingStore.get?_insert, if_pos rfl]
  exact ⟨u, transform_eq_ok_iff.2 ⟨c, m, d, hc, hget, hd, hu⟩⟩

/-- Decoding a column right after it was encoded gives back the table, in cells that are equal and,
but for zeros and not-a-numbers, identical. Only a column without any value changes, to the type of
the mapping if it had another one. A column that was just learned can be encoded. -/
theorem inverse_of_transform (he : Reachable (.encoder e)) (ht : Reachable (.table t)) :
    (∀ name m u, e.mappings.get? name = some m → m.length < 2 ^ 63 →
      e.transform t name = .ok u →
      ∃ c vs w, t.column name = .ok c ∧ c.values = .ok vs ∧ e.inverse u name = .ok w ∧
        ((c.type = m.type ∨ ∃ v ∈ vs, v.isNull = false) → (w == t) = true ∧ w.Restores t) ∧
        (c.type ≠ m.type → (∀ v ∈ vs, v.isNull = true) →
          ∃ d, d.name = name ∧ d.type = m.type ∧
            d.values = .ok (List.replicate t.rowCount .null) ∧ t.replace d = .ok w)) ∧
    ∀ name e', (fit t name).run.run e = (.ok (), e') → ∃ u, e'.transform t name = .ok u := by
  obtain ⟨n, cs, hh⟩ := ht.sound
  refine ⟨?_, fun name e' hf => exists_transform_of_fit hh hf⟩
  intro name m u hget hl hu
  obtain ⟨c, m', d, hc, hget', hd, hr⟩ := transform_eq_ok_iff.1 hu
  obtain rfl : m = m' := Option.some.inj (hget.symm.trans hget')
  obtain ⟨hmem, rfl⟩ := hh.column_eq_ok_iff.1 hc
  have hcan : c.Canonical := hh.canonical c hmem
  have hm : m.Sound := he.sound _ _ hget
  obtain ⟨vs, hvs, hvl, -⟩ := hcan.exists_values
  obtain ⟨b, bs, w, hcol, hb, hw, htw, hwh, hbn, hbt, hbs, hback⟩ :=
    hh.exists_decoded hmem hm hl hvs hd hr
  refine ⟨c, vs, w, hc, hvs, inverse_eq_ok_iff.2 ⟨d, m, b, hcol, hget, hb, hw⟩, ?_, ?_⟩
  · intro htype
    -- a value in the column ties its type to that of the mapping
    have hct : c.type = m.type := by
      obtain h | h := htype
      · exact h
      · exact type_eq_of_encode hm hvs hd h
    have hcb : (c == b) = true :=
      Column.beq_of_forall₂ hbn.symm (hct.trans hbt.symm) hvs hbs (hback.imp fun _ _ h => h.1)
    -- only the column itself was replaced, by an equal one
    have hall : List.Forall₂ (fun a a' => (a == a') = true) cs (cs.map b.replacedBy) := by
      rw [List.forall₂_map_right_iff, List.forall₂_same]
      intro a ha
      rw [Column.replacedBy]
      split
      · next han =>
        obtain rfl : a = c := hh.eq_of_name_eq ha hmem (han.trans hbn)
        exact hcb
      · exact (hh.canonical a ha).beq_self
    have hall' : List.Forall₂ (fun a a' => (a == a') = true) (cs.map b.replacedBy) cs :=
      (hall.imp fun _ _ h => Column.beq_symm h).flip
    exact ⟨hwh.equal_of_forall₂ hh hall', hh.restores_of_forall₂ hwh hall⟩
  · intro htype hnull
    refine ⟨b, hbn, hbt, ?_, htw⟩
    have hbl : bs.length = t.rowCount :=
      calc bs.length = vs.length := hback.length_eq.symm
        _ = c.length := hvl
        _ = n := hh.length_eq c hmem
        _ = t.rowCount := hh.rowCount_eq.symm
    -- without a value there is nothing to tie the types, but empty cells stay empty
    have hbnull : ∀ w ∈ bs, w = .null := by
      intro w hw
      obtain ⟨v, hv, -, hvw⟩ := forall₂_exists_left hback hw
      exact hvw (hnull v hv)
    rw [hbs, ← hbl, ← List.eq_replicate_of_mem hbnull]

/-- Names are encoded by their two distinct values and come back. -/
theorem inverse_of_transform_scores : ∃ t e m u w, Table.ofFrame .scores = .ok t ∧
    (fit t "name").run.run (ofRule .label) = (.ok (), e) ∧ e.mappings.get? "name" = some m ∧
      m.length = 2 ∧ e.transform t "name" = .ok u ∧ e.inverse u "name" = .ok w ∧
        (w == t) = true := by
  obtain ⟨t, e, m, u, c, ht, he, hm, hl, hu, hc, htype⟩ : ∃ t e m u c,
      Table.ofFrame .scores = .ok t ∧
      (fit t "name").run.run (ofRule .label) = (.ok (), e) ∧ e.mappings.get? "name" = some m ∧
      m.length = 2 ∧ e.transform t "name" = .ok u ∧ t.column "name" = .ok c ∧ c.type = m.type :=
    ⟨_, _, _, _, _, rfl, rfl, rfl, rfl, rfl, rfl, rfl⟩
  have hr : Reachable (.table t) := .ofFrame ht
  have hre : Reachable (.encoder e) := by
    have h := Reachable.afterFit "name" (.ofRule .label) hr
    rwa [he] at h
  obtain ⟨c', vs, w, hc', -, hw, hback, -⟩ :=
    (inverse_of_transform hre hr).1 "name" m u hm (by omega) hu
  obtain rfl : c = c' := Except.ok.inj (hc.symm.trans hc')
  exact ⟨t, e, m, u, w, ht, he, hm, hl, hu, hw, (hback (.inl htype)).1⟩

end Encoder

end Tabula
