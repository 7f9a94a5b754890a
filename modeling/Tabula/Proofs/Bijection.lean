import Tabula.Encoding.Mapping
import Tabula.Proofs.Canonical
import Tabula.Proofs.Order
import Tabula.Proofs.Registry

/-!
# Mappings as bijections

A mapping holds its categories twice, as a list in the order of the codes and as a registry of the
code of each category. If no two categories are equal the two agree, and codes and categories stand
for each other one to one. Both ways of learning a mapping check just that.

* `Mapping.Sound` — the categories are values of the type, none empty and no two equal.
* `Mapping.Learned` — a mapping that is sound and has a code for each value of a column.
* `Sound.codeOf_eq_some_iff` — the code of a category is its position.
* `Sound.exists_decodeCell` — a code leads back to a value equal to the one that was encoded.
* `Mapping.encode_spec`, `Mapping.decode_spec` — the same on whole columns.
-/

namespace Tabula

namespace Mapping

variable {m : Mapping} {c d : Column} {v w : Value} {vs ws : List Value} {name : String}

/-- What learning checks of a mapping. -/
structure Sound (m : Mapping) : Prop where
  nonempty : m.categories ≠ []
  not_null : ∀ v ∈ m.categories, v.isNull = false
  accepts : ∀ v ∈ m.categories, m.type.accepts v = true
  distinct : m.categories.Pairwise fun v w => (v == w) = false
  codes_eq : m.codes = codesOf m.categories

/-! ### Codes -/

/-- A value that is equal to none of the earlier ones gets its code behind theirs. -/
theorem putCode_of_fresh {codes : List (Value × Int64)} {code : Int64}
    (h : ∀ p ∈ codes, (p.1 == v) = false) : putCode v code codes = codes ++ [(v, code)] := by
  induction codes with
  | nil => rfl
  | cons p rest ih =>
    obtain ⟨w, k⟩ := p
    obtain ⟨hw, hrest⟩ := List.forall_mem_cons.1 h
    rw [putCode, if_neg (by simpa using hw), ih hrest, List.cons_append]

/-- Without equal categories, each has its own position as its code. -/
theorem codesOf_eq (h : vs.Pairwise fun v w => (v == w) = false) :
    codesOf vs = vs.zipIdx.map fun (v, i) => (v, Int64.ofNat i) := by
  -- codes are given from the left, so the last value is the one that meets all the others
  induction vs using List.reverseRecOn with
  | nil => rfl
  | append_singleton vs v ih =>
    obtain ⟨hvs, -, hv⟩ := List.pairwise_append.1 h
    have hput : ∀ p ∈ codesOf vs, (p.1 == v) = false := by
      rw [ih hvs]
      intro p hp
      obtain ⟨⟨w, i⟩, hq, rfl⟩ := List.mem_map.1 hp
      exact hv w (List.fst_mem_of_mem_zipIdx hq) v List.mem_cons_self
    have hlast : codesOf (vs ++ [v]) = putCode v (Int64.ofNat vs.length) (codesOf vs) := by
      rw [codesOf, List.zipIdx_append, List.foldl_append, Nat.zero_add]
      rfl
    rw [hlast, putCode_of_fresh hput, ih hvs, List.zipIdx_append, List.map_append, Nat.zero_add]
    rfl

namespace Sound

/-- The code of a value is the position of the category that it is equal to. -/
theorem codeOf_eq_some_iff (h : m.Sound) {code : Int64} : m.codeOf v = some code ↔
    ∃ i w, m.categories[i]? = some w ∧ (v == w) = true ∧ Int64.ofNat i = code := by
  have hcodes : m.codes = m.categories.zipIdx.map fun (v, i) => (v, Int64.ofNat i) :=
    h.codes_eq.trans (codesOf_eq h.distinct)
  -- no two keys are equal, so a lookup finds an entry wherever it stands
  have hkeys : m.codes.Pairwise fun p q => (p.1 == q.1) = false := by
    have hd := h.distinct
    rw [← List.zipIdx_map_fst 0 m.categories, List.pairwise_map] at hd
    rw [hcodes, List.pairwise_map]
    exact hd
  rw [codeOf, lookup_eq_some_iff hkeys, hcodes]
  refine ⟨?_, ?_⟩
  · rintro ⟨w, hm, hvw⟩
    obtain ⟨⟨w', i⟩, hi, he⟩ := List.mem_map.1 hm
    obtain ⟨rfl, rfl⟩ := Prod.mk.inj he
    exact ⟨i, w', List.mem_zipIdx_iff_getElem?.1 hi, hvw, rfl⟩
  · rintro ⟨i, w, hi, hvw, rfl⟩
    exact ⟨w, List.mem_map.2 ⟨(w, i), List.mem_zipIdx_iff_getElem?.2 hi, rfl⟩, hvw⟩

/-- The values that have a code are those that equal a category. -/
theorem exists_codeOf_iff (h : m.Sound) :
    (∃ code, m.codeOf v = some code) ↔ m.categories.contains v = true := by
  refine ⟨?_, ?_⟩
  · -- a code is the position of a category that equals the value
    rintro ⟨code, hc⟩
    obtain ⟨i, w, hi, hvw, -⟩ := h.codeOf_eq_some_iff.1 hc
    exact List.contains_iff_exists_mem_beq.2 ⟨w, List.mem_of_getElem? hi, hvw⟩
  · -- a category that equals the value has a position, which is the code
    intro hv
    obtain ⟨w, hw, hvw⟩ := List.contains_iff_exists_mem_beq.1 hv
    obtain ⟨i, hi⟩ := List.mem_iff_getElem?.1 hw
    exact ⟨Int64.ofNat i, h.codeOf_eq_some_iff.2 ⟨i, w, hi, hvw, rfl⟩⟩

end Sound

/-- The category with a code is the one at the position, as long as this fits into a code. -/
theorem categoryOf_ofNat {i : Nat} (hi : i < 2 ^ 63) :
    m.categoryOf (Int64.ofNat i) = m.categories[i]? := by
  -- a greater position would come out as a negative code, for which there is no category
  have hcode : (Int64.ofNat i).toInt = i := Int64.toInt_ofNat_of_lt hi
  rw [categoryOf, hcode, if_pos (by omega), Int.toNat_natCast]

/-! ### Cells -/

/-- A cell is encoded in two ways: a null stays one, and any other value becomes the code it has. -/
theorem encodeCell_eq_ok_iff : m.encodeCell name v = .ok w ↔
    v.isNull = true ∧ w = .null ∨
      v.isNull = false ∧ ∃ code, m.codeOf v = some code ∧ w = .integer code := by
  cases hv : v.isNull with
  | true => simp [encodeCell, hv, eq_comm]
  | false =>
    cases hc : m.codeOf v with
    | none => simp [encodeCell, hv, hc]
    | some code => simp [encodeCell, hv, hc, eq_comm]

/-- What a code stands for is a category. -/
theorem mem_categories_of_categoryOf {code : Int64} (h : m.categoryOf code = some w) :
    w ∈ m.categories := by
  rw [categoryOf] at h
  split at h
  · exact List.mem_of_getElem? h
  · cases h

/-- A decoded cell is null or a category. -/
theorem mem_categories_of_decodeCell (h : m.decodeCell name v = .ok w) :
    w = .null ∨ w ∈ m.categories := by
  rw [decodeCell] at h
  split at h
  · exact .inl (Except.ok.inj h).symm
  · split at h
    · next category hc =>
      obtain rfl := Except.ok.inj h
      obtain ⟨code, -, hcat⟩ := Option.bind_eq_some_iff.1 hc
      exact .inr (mem_categories_of_categoryOf hcat)
    · cases h

namespace Sound

/-- A value that was encoded, and is not null, is of the type of the mapping. -/
theorem columnType?_of_encodeCell (h : m.Sound) (he : m.encodeCell name v = .ok w)
    (hv : v.isNull = false) : v.columnType? = some m.type := by
  obtain ⟨hv', -⟩ | ⟨-, code, hc, -⟩ := encodeCell_eq_ok_iff.1 he
  · rw [hv] at hv'
    cases hv'
  · obtain ⟨i, u, hi, hvu, -⟩ := h.codeOf_eq_some_iff.1 hc
    have hu : u ∈ m.categories := List.mem_of_getElem? hi
    -- categories are of the type, and equal values are of one type
    obtain hn | ht := accepts_iff.1 (h.accepts u hu)
    · rw [h.not_null u hu] at hn
      cases hn
    · rw [Value.columnType?_eq_of_beq hvu, ht]

/-- Decoding an encoded cell gives a value equal to the one that was encoded, and an empty cell for
an empty one. -/
theorem exists_decodeCell (h : m.Sound) (hl : m.length < 2 ^ 63)
    (he : m.encodeCell name v = .ok w) (name' : String) :
    ∃ u, m.decodeCell name' w = .ok u ∧ (v == u) = true ∧ (v.isNull = true → u = .null) := by
  obtain ⟨hv, rfl⟩ | ⟨hv, code, hc, rfl⟩ := encodeCell_eq_ok_iff.1 he
  · cases v with
    | null => exact ⟨.null, rfl, rfl, fun _ => rfl⟩
    | _ => cases hv
  · obtain ⟨i, u, hi, hvu, rfl⟩ := h.codeOf_eq_some_iff.1 hc
    have hlt : i < m.length := (List.getElem?_eq_some_iff.1 hi).1
    -- the code is a position, and the category at this position is what the value is equal to
    have hcat : (codeIn (.integer (Int64.ofNat i))).bind m.categoryOf = some u := by
      rw [codeIn, Option.bind_some, categoryOf_ofNat (Nat.lt_trans hlt hl), hi]
    refine ⟨u, ?_, hvu, fun hn => ?_⟩
    · rw [decodeCell, if_neg (by simp [Value.isNull]), hcat]
    · rw [hv] at hn
      cases hn

end Sound

/-! ### Columns -/

/-- What encodes a column is a column of the same name, cell by cell. -/
theorem encode_eq_ok_iff (hvs : c.values = .ok vs) : m.encode c = .ok d ↔
    d.Canonical ∧ d.name = c.name ∧ d.type = .integer ∧ ∃ ws, d.values = .ok ws ∧
      List.Forall₂ (fun v w => m.encodeCell c.name v = .ok w) vs ws := by
  rw [encode, hvs, ok_bind]
  exact Column.ofValues_mapM_eq_ok_iff

/-- A column is decoded cell by cell, and keeps its name. -/
theorem decode_eq_ok_iff (hvs : c.values = .ok vs) : m.decode c = .ok d ↔
    d.Canonical ∧ d.name = c.name ∧ d.type = m.type ∧ ∃ ws, d.values = .ok ws ∧
      List.Forall₂ (fun v w => m.decodeCell c.name v = .ok w) vs ws := by
  rw [decode, hvs, ok_bind]
  exact Column.ofValues_mapM_eq_ok_iff

/-- What a column of codes looks like, from the left to the right of `encode_eq_ok_iff`. -/
theorem encode_spec (he : m.encode c = .ok d) (hvs : c.values = .ok vs) :
    d.Canonical ∧ d.name = c.name ∧ d.type = .integer ∧ ∃ ws, d.values = .ok ws ∧
      List.Forall₂ (fun v w => m.encodeCell c.name v = .ok w) vs ws :=
  (encode_eq_ok_iff hvs).1 he

/-- What a decoded column looks like, from the left to the right of `decode_eq_ok_iff`. -/
theorem decode_spec (he : m.decode c = .ok d) (hvs : c.values = .ok vs) :
    d.Canonical ∧ d.name = c.name ∧ d.type = m.type ∧ ∃ ws, d.values = .ok ws ∧
      List.Forall₂ (fun v w => m.decodeCell c.name v = .ok w) vs ws :=
  (decode_eq_ok_iff hvs).1 he

/-- The codes of a column are stored as a column of codes should be. -/
theorem canonical_of_encode (hc : c.Canonical) (he : m.encode c = .ok d) : d.Canonical := by
  obtain ⟨vs, hvs, -⟩ := hc.exists_values
  exact (encode_spec he hvs).1

/-- The values that codes stand for are stored as the type of the mapping asks for. -/
theorem canonical_of_decode (hc : c.Canonical) (he : m.decode c = .ok d) : d.Canonical := by
  obtain ⟨vs, hvs, -⟩ := hc.exists_values
  exact (decode_spec he hvs).1

namespace Sound

/-- A column all of whose values equal categories can be encoded. -/
theorem exists_encode (h : m.Sound) (hvs : c.values = .ok vs)
    (hcov : ∀ v ∈ vs, v.isNull = false → m.categories.contains v = true) :
    ∃ d, m.encode c = .ok d := by
  rw [encode, hvs, ok_bind]
  refine Column.exists_ofValues_mapM ?_
  intro v hv
  cases hn : v.isNull with
  | true => exact ⟨.null, encodeCell_eq_ok_iff.2 (.inl ⟨hn, rfl⟩), rfl⟩
  | false =>
    obtain ⟨code, hc⟩ := h.exists_codeOf_iff.2 (hcov v hv hn)
    exact ⟨.integer code, encodeCell_eq_ok_iff.2 (.inr ⟨hn, code, hc, rfl⟩), rfl⟩

/-- A column can be decoded if each of its cells can: the categories are of the type of the
mapping. -/
theorem exists_decode (h : m.Sound) (hvs : c.values = .ok vs)
    (hcell : ∀ v ∈ vs, ∃ w, m.decodeCell c.name v = .ok w) : ∃ d, m.decode c = .ok d := by
  rw [decode, hvs, ok_bind]
  refine Column.exists_ofValues_mapM ?_
  intro v hv
  obtain ⟨w, hw⟩ := hcell v hv
  obtain rfl | hm := mem_categories_of_decodeCell hw
  · exact ⟨.null, hw, rfl⟩
  · exact ⟨w, hw, h.accepts w hm⟩

/-- A column of codes that was encoded can be decoded, to values equal to the ones encoded. -/
theorem exists_decode_of_encode (h : m.Sound) (hl : m.length < 2 ^ 63) (hvs : c.values = .ok vs)
    (he : m.encode c = .ok d) :
    ∃ u us, m.decode d = .ok u ∧ u.Canonical ∧ u.name = c.name ∧ u.type = m.type ∧
      u.values = .ok us ∧
      List.Forall₂ (fun v w => (v == w) = true ∧ (v.isNull = true → w = .null)) vs us := by
  obtain ⟨-, hn, -, ws, hws, hcode⟩ := encode_spec he hvs
  -- every code in the encoded column is there because a value was encoded
  have hcell : ∀ w ∈ ws, ∃ u, m.decodeCell d.name w = .ok u := by
    intro w hw
    obtain ⟨v, -, hvw⟩ := forall₂_exists_left hcode hw
    obtain ⟨u, hu, -⟩ := h.exists_decodeCell hl hvw d.name
    exact ⟨u, hu⟩
  obtain ⟨u, hu⟩ := h.exists_decode hws hcell
  obtain ⟨huc, hun, hut, us, hus, hback⟩ := decode_spec hu hws
  refine ⟨u, us, hu, huc, hun.trans hn, hut, hus, ?_⟩
  -- a value and what is decoded for it are related by the code between them
  refine forall₂_of_common hcode.flip hback ?_
  intro w _ v z hvw hwz
  obtain ⟨z', hz, hspec⟩ := h.exists_decodeCell hl hvw d.name
  obtain rfl := Except.ok.inj (hz.symm.trans hwz)
  exact hspec

end Sound

/-! ### Learning -/

/-- What learning reads of a column: its distinct values in ascending order, of which there has to
be one. -/
theorem observed_eq_ok_iff (hvs : c.values = .ok vs) : observed c = .ok ws ↔
    Value.ascending (vs.filter fun v => !v.isNull) = ws ∧ ws ≠ [] := by
  rw [observed, hvs, ok_bind]
  -- the values are sorted first, and refused only if none are left
  split
  · next h => simp [h]
  · next h =>
    rw [pure_eq_ok, Except.ok.injEq]
    refine ⟨?_, ?_⟩
    · rintro rfl
      exact ⟨rfl, h⟩
    · exact fun h' => h'.1

/-- The only thing wrong with the values of a column can be that there are none. -/
theorem observed_eq_error (hvs : c.values = .ok vs) {e : Error} (h : observed c = .error e) :
    e = .learning c.name .noValues := by
  rw [observed, hvs, ok_bind] at h
  split at h
  · exact (Except.error.inj h).symm
  · cases h

/-- Every value of the column equals one of those observed, except for null. -/
theorem contains_observed (hvs : c.values = .ok vs) (h : observed c = .ok ws) (hv : v ∈ vs)
    (hn : v.isNull = false) : ws.contains v = true := by
  obtain ⟨rfl, -⟩ := (observed_eq_ok_iff hvs).1 h
  have hf : v ∈ vs.filter fun v => !v.isNull := by
    rw [List.mem_filter, hn]
    exact ⟨hv, rfl⟩
  exact Value.contains_ascending.trans (List.contains_iff_exists_mem_beq.2 ⟨v, hf, BEq.rfl⟩)

/-- A mapping that was learned from the column: it is of the type of the column and has a code for
each of its values. -/
structure Learned (m : Mapping) (c : Column) : Prop where
  sound : m.Sound
  type_eq : m.type = c.type
  covers : ∀ vs, c.values = .ok vs → ∀ v ∈ vs, v.isNull = false → m.categories.contains v = true

/-- A mapping encodes the column it was learned from. -/
theorem Learned.exists_encode (h : m.Learned c) (hc : c.Canonical) : ∃ d, m.encode c = .ok d := by
  obtain ⟨vs, hvs, -⟩ := hc.exists_values
  exact h.sound.exists_encode hvs (h.covers vs hvs)

/-- An order without faults holds no empty value, only values of the type, and no two equal. -/
theorem orderFault?_eq_none_iff {type : ColumnType} {seen : List Value} :
    orderFault? type seen vs = none ↔
      (∀ v ∈ vs, v.isNull = false ∧ type.accepts v = true ∧ seen.contains v = false) ∧
        vs.Pairwise fun v w => (v == w) = false := by
  -- each value is held against those before it, so the list of these has to vary
  induction vs generalizing seen with
  | nil => simp [orderFault?]
  | cons v vs ih =>
    rw [orderFault?]
    cases hn : v.isNull with
    | true => simp [hn]
    | false =>
      cases ha : type.accepts v with
      | false => simp [ha]
      | true =>
        cases hs : seen.contains v with
        | true => simp_all
        | false =>
          simp only [Bool.false_eq_true, Bool.not_true, if_false, ih, List.contains_cons,
            Bool.or_eq_false_iff, List.forall_mem_cons, List.pairwise_cons, hn, ha, hs, true_and]
          refine ⟨?_, ?_⟩
          · rintro ⟨hall, hp⟩
            refine ⟨fun w hw => ⟨(hall w hw).1, (hall w hw).2.1, (hall w hw).2.2.2⟩, ?_, hp⟩
            intro w hw
            rw [BEq.comm]
            exact (hall w hw).2.2.1
          · rintro ⟨hall, hv, hp⟩
            refine ⟨fun w hw => ⟨(hall w hw).1, (hall w hw).2.1, ?_, (hall w hw).2.2⟩, hp⟩
            rw [BEq.comm]
            exact hv w hw

/-- Learning in ascending order gives a sound mapping that covers the column. -/
theorem learned_of_sorted (hc : c.Canonical) (h : sorted c = .ok m) : m.Learned c := by
  obtain ⟨vs, hvs, -, hacc⟩ := hc.exists_values
  obtain ⟨ws, hws, hm⟩ := bind_eq_ok_iff.1 h
  obtain rfl : ofCategories c.type ws = m := Except.ok.inj hm
  obtain ⟨rfl, hne⟩ := (observed_eq_ok_iff hvs).1 hws
  -- a category is a value of the column and inherits what is true of these
  have hmem : ∀ v ∈ Value.ascending (vs.filter fun v => !v.isNull), v ∈ vs ∧ v.isNull = false := by
    intro v hv
    simpa using List.mem_filter.1 (Value.mem_of_mem_ascending hv)
  refine ⟨⟨hne, fun v hv => (hmem v hv).2, fun v hv => hacc v (hmem v hv).1, ?_, rfl⟩, rfl, ?_⟩
  · -- an ascending list has no two equal values
    exact (Value.ascends_ascending _).pairwise_ne
  · intro us hus v hv hn
    obtain rfl := Except.ok.inj (hvs.symm.trans hus)
    exact contains_observed hvs hws hv hn

/-- An order that is accepted for a column lists the categories of a mapping learned from it. -/
theorem learned_of_ordered (hc : c.Canonical) {order : List Value} (h : ordered c order = .ok m) :
    m.Learned c := by
  obtain ⟨vs, hvs, -⟩ := hc.exists_values
  obtain ⟨ws, hws, h⟩ := bind_eq_ok_iff.1 h
  split at h
  · cases h
  · next hfault =>
    split at h
    · cases h
    · next hcov =>
      obtain rfl : ofCategories c.type order = m := Except.ok.inj h
      obtain ⟨hall, hp⟩ := orderFault?_eq_none_iff.1 hfault
      have hcover : ∀ w ∈ ws, order.contains w = true := by simpa using hcov
      -- an order that covers a column with values cannot be empty
      have hne : order ≠ [] := by
        rintro rfl
        obtain ⟨w, hw⟩ := List.exists_mem_of_ne_nil ws ((observed_eq_ok_iff hvs).1 hws).2
        have hw' := hcover w hw
        cases hw'
      refine ⟨⟨hne, fun v hv => (hall v hv).1, fun v hv => (hall v hv).2.1, hp, rfl⟩, rfl, ?_⟩
      intro us hus v hv hn
      obtain rfl := Except.ok.inj (hvs.symm.trans hus)
      -- the value is equal to an observed one, and this one to an element of the order
      obtain ⟨w, hw, hvw⟩ := List.contains_iff_exists_mem_beq.1 (contains_observed hvs hws hv hn)
      obtain ⟨x, hx, hwx⟩ := List.contains_iff_exists_mem_beq.1 (hcover w hw)
      exact List.contains_iff_exists_mem_beq.2 ⟨x, hx, BEq.trans hvw hwx⟩

/-- Whatever is refused is refused as something that cannot be learned from this column. -/
theorem exists_fault_of_sorted (hc : c.Canonical) {e : Error} (h : sorted c = .error e) :
    ∃ fault, e = .learning c.name fault := by
  obtain ⟨vs, hvs, -⟩ := hc.exists_values
  obtain h | ⟨ws, -, h⟩ := bind_eq_error_iff.1 h
  · exact ⟨_, observed_eq_error hvs h⟩
  · cases h

/-- What goes wrong with a given order is always a fault of learning, and it names the column. -/
theorem exists_fault_of_ordered (hc : c.Canonical) {order : List Value} {e : Error}
    (h : ordered c order = .error e) : ∃ fault, e = .learning c.name fault := by
  obtain ⟨vs, hvs, -⟩ := hc.exists_values
  -- no values in the column, a value of the order at fault, or one of the column not in it
  obtain h | ⟨ws, -, h⟩ := bind_eq_error_iff.1 h
  · exact ⟨_, observed_eq_error hvs h⟩
  · split at h
    · exact ⟨_, (Except.error.inj h).symm⟩
    · split at h
      · exact ⟨_, (Except.error.inj h).symm⟩
      · cases h

end Mapping

end Tabula
