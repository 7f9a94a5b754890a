import Tabula.Proofs.Equality
import Tabula.Proofs.Hashing
import Tabula.Proofs.Learning

/-!
# Equal arguments, alike outcomes

Equal values need not be identical, because both zeros are equal and so are all not-a-numbers. What
is learned from a column and what a mapping makes of it must not depend on which of them stands in a
cell. This is a statement about two runs of the same code, and it is carried from the cells upwards:

* `Alike` — two outcomes that cannot be told apart, and `Alike.bind`, `Alike.mapM`, by which this
  passes through composed operations.
* `Value.forall₂_ascending` — equal lists have equal distinct values.
* `Mapping.Like` — sound mappings of one type with equal categories; `like_iff` says that this is
  what the comparison of mappings finds out.
* `Mapping.SameObserved` — columns in which the same is observed, as it is in equal ones;
  `SameObserved.alike_sorted`, `SameObserved.alike_ordered` — what is learned from them.
* `Mapping.Like.alike_encode`, `Mapping.Like.alike_decode` — what like mappings make of them.
-/

namespace Tabula

/-! ### Outcomes -/

section

variable {α β γ δ : Type} {R : α → β → Prop} {S : γ → δ → Prop}

/-- The outcomes are results that are related, or failures with one code and one list of missing
names. -/
def Alike (R : α → β → Prop) : Except Error α → Except Error β → Prop
  | .ok a, .ok b => R a b
  | .error e, .error f => e.code = f.code ∧ e.missingNames = f.missingNames
  | _, _ => False

/-- Composed operations cannot be told apart if their first parts cannot, and their second parts
cannot on whatever the first parts give. -/
theorem Alike.bind {x : Except Error α} {y : Except Error β} {f : α → Except Error γ}
    {g : β → Except Error δ} (h : Alike R x y) (hfg : ∀ a b, R a b → Alike S (f a) (g b)) :
    Alike S (x >>= f) (y >>= g) := by
  cases x with
  | error e =>
    cases y with
    | error e' => exact h
    | ok b => cases h
  | ok a =>
    cases y with
    | error e' => cases h
    | ok b => exact hfg a b h

/-- What is known of two results may be told in another way, also with the help of how they came
about. -/
theorem Alike.imp {R' : α → β → Prop} {x : Except Error α} {y : Except Error β} (h : Alike R x y)
    (hR : ∀ a b, x = .ok a → y = .ok b → R a b → R' a b) : Alike R' x y := by
  cases x with
  | error e =>
    cases y with
    | error e' => exact h
    | ok b => cases h
  | ok a =>
    cases y with
    | error e' => cases h
    | ok b => exact hR a b rfl rfl h

/-- Operations that are mapped over related lists cannot be told apart if they cannot on related
elements. -/
theorem Alike.mapM {f : α → Except Error γ} {g : β → Except Error δ} {xs : List α} {ys : List β}
    (h : List.Forall₂ R xs ys) (hfg : ∀ a b, R a b → Alike S (f a) (g b)) :
    Alike (List.Forall₂ S) (xs.mapM f) (ys.mapM g) := by
  induction h with
  | nil => exact List.Forall₂.nil
  | cons hab _ ih =>
    rw [List.mapM_cons, List.mapM_cons]
    apply (hfg _ _ hab).bind
    intro c d hcd
    apply ih.bind
    intro cs ds hcds
    exact List.Forall₂.cons hcd hcds

/-- A search in related lists finds related elements, or nothing in either. -/
theorem find?_rel {p : α → Bool} {q : β → Bool} {as : List α} {bs : List β}
    (h : List.Forall₂ R as bs) (hpq : ∀ a b, R a b → p a = q b) :
    Option.Rel R (as.find? p) (bs.find? q) := by
  induction h with
  | nil => exact .none
  | cons hab _ ih =>
    rw [List.find?_cons, List.find?_cons, hpq _ _ hab]
    split
    · exact .some hab
    · exact ih

/-- Putting a related element into related lists leaves related lists, if related elements have keys
that compare in the same way. -/
theorem forall₂_insertByKey {κ : Type} {cmp : κ → κ → Ordering} {key : α → κ} {key' : β → κ}
    (hcmp : ∀ a b a' b', R a b → R a' b' → cmp (key a) (key a') = cmp (key' b) (key' b'))
    {a : α} {b : β} {as : List α} {bs : List β} (hab : R a b) (h : List.Forall₂ R as bs) :
    List.Forall₂ R (insertByKey cmp key a as) (insertByKey cmp key' b bs) := by
  induction h with
  | nil => exact .cons hab .nil
  | cons hxy hxys ih =>
    rw [insertByKey, insertByKey, hcmp _ _ _ _ hab hxy]
    -- both lists are walked through in step, since the comparisons agree
    split
    · exact .cons hab (.cons hxy hxys)
    · exact .cons hab hxys
    · exact .cons hxy ih

end

/-! ### Values -/

/-- Folding zeros and not-a-numbers does not change which integer a number is. -/
theorem Binary64.integer?_canonical (x : Binary64) : x.canonical.integer? = x.integer? := by
  cases hn : x.isNaN with
  | true =>
    -- a not-a-number stays one in canonical form, and is no integer before and after
    have hfin : x.isFinite = false := by
      have hlt : Grid.double.infinity < x.magnitude := by simpa [isNaN] using hn
      simp [isFinite, hlt.le]
    have hnan : nan.isFinite = false := by decide
    rw [canonical_of_isNaN hn, integer?, integer?, hfin, hnan, Bool.false_and, Bool.false_and]
    simp only [Bool.false_eq_true, if_false]
  | false =>
    cases hz : x.isZero with
    | true =>
      have hm : x.magnitude = 0 := by simpa [isZero] using hz
      have hunits : x.units = 0 := by simp [units, hm, Grid.units]
      have hfin : x.isFinite = true := by
        rw [isFinite, hm]
        rfl
      have hzero : zero.isFinite = true ∧ zero.units = 0 := by decide
      rw [canonical_of_isZero hz, integer?, integer?, hfin, hunits, hzero.1, hzero.2]
    | false => rw [canonical, hn, hz]; rfl

namespace Value

variable {v w v' w' : Value} {vs ws vs' ws' : List Value}

/-- Equal values are both null or neither is. -/
theorem isNull_eq_of_beq (h : (v == w) = true) : v.isNull = w.isNull := by
  have htype := columnType?_eq_of_beq h
  -- an empty cell is the only value without a type
  cases v <;> cases w <;> first | rfl | cases htype

/-- A column type accepts both of two equal values or neither. -/
theorem accepts_eq_of_beq {t : ColumnType} (h : (v == w) = true) : t.accepts v = t.accepts w := by
  rw [ColumnType.accepts, ColumnType.accepts, columnType?_eq_of_beq h]

/-- Equal values are compared with equal values in the same way. -/
theorem cmp_congr (h : (v == w) = true) (h' : (v' == w') = true) : v.cmp v' = w.cmp w' := by
  have hleft : v.cmp v' = w.cmp v' := Std.TransCmp.congr_left (beq_iff_cmp.1 h)
  have hright : w.cmp v' = w.cmp w' := Std.TransCmp.congr_right (beq_iff_cmp.1 h')
  exact hleft.trans hright

/-- Equal lists contain both of two equal values or neither. -/
theorem contains_congr (h : List.Forall₂ (· == ·) vs ws) (hv : (v == w) = true) :
    vs.contains v = ws.contains w := by
  induction h with
  | nil => rfl
  | cons hxy _ ih =>
    rw [List.contains_cons, List.contains_cons, ih, BEq.congr_left hv, BEq.congr_right hxy]

/-- Equal lists are equal without their nulls. -/
theorem filter_congr (h : List.Forall₂ (· == ·) vs ws) :
    List.Forall₂ (· == ·) (vs.filter fun v => !v.isNull) (ws.filter fun v => !v.isNull) := by
  apply List.rel_filter _ h
  intro v w hvw
  simp [isNull_eq_of_beq hvw]

/-- Equal lists have equal distinct values. Which of several equal values stays does not matter. -/
theorem forall₂_ascending (h : List.Forall₂ (· == ·) vs ws) :
    List.Forall₂ (· == ·) (ascending vs) (ascending ws) := by
  have hstep : ∀ acc acc' : List Value, List.Forall₂ (· == ·) acc acc' → ∀ v w : Value,
      (v == w) = true → List.Forall₂ (· == ·) (insertDistinct v acc) (insertDistinct w acc') := by
    intro acc acc' hacc v w hvw
    exact forall₂_insertByKey (R := fun v w => (v == w) = true) (fun _ _ _ _ h h' => cmp_congr h h')
      hvw hacc
  exact List.rel_foldl (fun acc acc' hacc v w hvw => hstep acc acc' hacc v w hvw) .nil h

end Value

/-! ### Columns -/

namespace Column

variable {c d : Column} {name : String} {type : ColumnType} {vs ws : List Value}

theorem name_eq_of_beq (h : (c == d) = true) : c.name = d.name :=
  congrArg Prod.fst (entry_and_values_of_beq h).1

theorem type_eq_of_beq (h : (c == d) = true) : c.type = d.type :=
  congrArg Prod.snd (entry_and_values_of_beq h).1

/-- The cells of equal columns can be read, and are equal one by one. -/
theorem exists_values_of_beq (h : (c == d) = true) :
    ∃ vs ws, c.values = .ok vs ∧ d.values = .ok ws ∧ List.Forall₂ (· == ·) vs ws := by
  obtain ⟨-, vs, ws, hvs, hws, hv⟩ := entry_and_values_of_beq h
  exact ⟨vs, ws, hvs, hws, Value.list_beq_iff_forall₂.1 hv⟩

/-- Equal columns are of one length. -/
theorem length_eq_of_beq (h : (c == d) = true) : c.length = d.length := by
  obtain ⟨vs, ws, hvs, hws, hv⟩ := exists_values_of_beq h
  calc c.length = vs.length := (Series.values_spec hvs).2.1.symm
    _ = ws.length := hv.length_eq
    _ = d.length := (Series.values_spec hws).2.1

/-- Columns of equal values are equal, and either both types accept the values or neither does. -/
theorem alike_ofValues (h : List.Forall₂ (· == ·) vs ws) :
    Alike (· == ·) (ofValues name type vs) (ofValues name type ws) := by
  by_cases hvs : ∀ v ∈ vs, type.accepts v = true
  · -- equal values are accepted together, so both columns are built
    have hws : ∀ w ∈ ws, type.accepts w = true := by
      intro w hw
      obtain ⟨v, hv, hvw⟩ := forall₂_exists_left h hw
      rw [← Value.accepts_eq_of_beq hvw]
      exact hvs v hv
    obtain ⟨s, hs, -, hsv⟩ := Series.exists_ofValues name hvs
    obtain ⟨u, hu, -, huv⟩ := Series.exists_ofValues name hws
    rw [ofValues, ofValues, hs, hu]
    exact beq_of_forall₂ (c := ⟨name, type, s⟩) (d := ⟨name, type, u⟩) rfl rfl hsv huv h
  · -- the first value that is refused need not be the same, but the failure has the same code
    have hbad : ∀ us : List Value, ¬(∀ u ∈ us, type.accepts u = true) →
        ∃ found, ofValues name type us = .error (.typeMismatch name type found) := by
      intro us hus
      cases hf : us.find? fun u => !type.accepts u with
      | none => exact absurd (by simpa using hf) hus
      | some bad =>
        refine ⟨bad.typeName, ?_⟩
        unfold ofValues Series.ofValues
        rw [hf]
        rfl
    have hws : ¬∀ w ∈ ws, type.accepts w = true := by
      intro hws
      apply hvs
      intro v hv
      obtain ⟨w, hw, hvw⟩ := forall₂_exists_right h hv
      rw [Value.accepts_eq_of_beq hvw]
      exact hws w hw
    obtain ⟨found, hfound⟩ := hbad vs hvs
    obtain ⟨found', hfound'⟩ := hbad ws hws
    rw [hfound, hfound']
    exact ⟨rfl, rfl⟩

end Column

/-! ### Mappings -/

namespace Mapping

variable {m k : Mapping} {c d : Column} {v w : Value} {vs ws : List Value} {name : String}

/-- Sound mappings of one type with equal categories in one order. -/
structure Like (m k : Mapping) : Prop where
  sound_left : m.Sound
  sound_right : k.Sound
  type_eq : m.type = k.type
  categories : List.Forall₂ (· == ·) m.categories k.categories

namespace Like

/-- Equal values have the same code. -/
theorem codeOf_eq (h : m.Like k) (hvw : (v == w) = true) : m.codeOf v = k.codeOf w := by
  apply Option.ext
  intro code
  rw [h.sound_left.codeOf_eq_some_iff, h.sound_right.codeOf_eq_some_iff]
  have hlen : m.categories.length = k.categories.length := h.categories.length_eq
  -- the position of an equal category is the code, and it is the same in both lists
  constructor
  · rintro ⟨i, a, hi, hva, rfl⟩
    obtain ⟨hm, rfl⟩ := List.getElem?_eq_some_iff.1 hi
    have hk : i < k.categories.length := hlen ▸ hm
    have hab : (m.categories[i] == k.categories[i]) = true := h.categories.get hm hk
    exact ⟨i, _, List.getElem?_eq_getElem hk, BEq.trans (BEq.symm hvw) (BEq.trans hva hab), rfl⟩
  · rintro ⟨i, b, hi, hwb, rfl⟩
    obtain ⟨hk, rfl⟩ := List.getElem?_eq_some_iff.1 hi
    have hm : i < m.categories.length := hlen ▸ hk
    have hab : (m.categories[i] == k.categories[i]) = true := h.categories.get hm hk
    exact ⟨i, _, List.getElem?_eq_getElem hm, BEq.trans hvw (BEq.trans hwb (BEq.symm hab)), rfl⟩

/-- One code stands for equal categories. -/
theorem categoryOf_rel (h : m.Like k) (code : Int64) :
    Option.Rel (· == ·) (m.categoryOf code) (k.categoryOf code) := by
  rw [categoryOf, categoryOf]
  split
  · by_cases hm : code.toInt.toNat < m.categories.length
    · have hk : code.toInt.toNat < k.categories.length := h.categories.length_eq ▸ hm
      rw [List.getElem?_eq_getElem hm, List.getElem?_eq_getElem hk]
      exact .some (h.categories.get hm hk)
    · have hk : ¬code.toInt.toNat < k.categories.length := h.categories.length_eq ▸ hm
      rw [List.getElem?_eq_none (by omega), List.getElem?_eq_none (by omega)]
      exact .none
  · exact .none

end Like

/-- There are as many codes as categories, since no category is equal to another. -/
theorem length_codes (h : m.Sound) : m.codes.length = m.categories.length := by
  rw [h.codes_eq, codesOf_eq h.distinct, List.length_map, List.length_zipIdx]

/-- On sound mappings the comparison, which also goes through the codes, finds out whether type and
categories are the same. -/
theorem like_iff (hm : m.Sound) (hk : k.Sound) : m.Like k ↔ (m == k) = true := by
  show m.Like k ↔ m.equal k = true
  unfold equal
  simp only [Bool.and_eq_true, List.all_eq_true, beq_iff_eq]
  constructor
  · intro h
    refine ⟨⟨⟨h.type_eq, Value.list_beq_iff_forall₂.2 h.categories⟩, ?_⟩, ?_⟩
    · -- the comparison also looks at the codes, which sound mappings have from their categories
      rw [length_codes hm, length_codes hk]
      exact h.categories.length_eq
    · rintro ⟨v, code⟩ hp
      -- an entry of the codes of one mapping is a category at its position, as it is in the other
      have hv : m.codeOf v = some code := by
        rw [hm.codes_eq, codesOf_eq hm.distinct] at hp
        obtain ⟨⟨a, i⟩, ha, he⟩ := List.mem_map.1 hp
        obtain ⟨rfl, rfl⟩ := Prod.mk.inj he
        exact hm.codeOf_eq_some_iff.2 ⟨i, a, List.mem_zipIdx_iff_getElem?.1 ha, BEq.rfl, rfl⟩
      exact (h.codeOf_eq BEq.rfl).symm.trans hv
  · rintro ⟨⟨⟨htype, hcats⟩, -⟩, -⟩
    exact ⟨hm, hk, htype, Value.list_beq_iff_forall₂.1 hcats⟩

/-! ### Encoding and decoding -/

/-- Equal values stand for the same code: a zero of either sign for the first one, and no
not-a-number for any. -/
theorem codeIn_congr (h : (v == w) = true) : codeIn v = codeIn w := by
  cases hf : v.isFolded with
  | false => rw [Value.eq_of_beq_of_not_folded h hf]
  | true =>
    have hc := Value.beq_iff_cmp.1 h
    cases v with
    | float x =>
      cases w with
      | float y =>
        -- both zeros are one integer, and no not-a-number is any
        have hxy : x.canonical = y.canonical :=
          Binary64.canonical_eq_of_rank_eq (Std.LawfulEqOrd.eq_of_compare hc)
        rw [codeIn, codeIn, ← Binary64.integer?_canonical, hxy, Binary64.integer?_canonical]
      | _ => cases hc
    | _ => cases hf

namespace Like

/-- Like mappings have one code for equal cells, or none. -/
theorem alike_encodeCell (h : m.Like k) (hvw : (v == w) = true) :
    Alike (· == ·) (m.encodeCell name v) (k.encodeCell name w) := by
  rw [encodeCell, encodeCell, ← Value.isNull_eq_of_beq hvw, ← h.codeOf_eq hvw]
  split
  · exact BEq.rfl
  · split
    · exact BEq.rfl
    · exact ⟨rfl, rfl⟩

/-- Equal cells hold one code, and the categories that like mappings have at it are equal. -/
theorem alike_decodeCell (h : m.Like k) (hvw : (v == w) = true) :
    Alike (· == ·) (m.decodeCell name v) (k.decodeCell name w) := by
  have hcode : Option.Rel (· == ·) ((codeIn v).bind m.categoryOf)
      ((codeIn w).bind k.categoryOf) := by
    rw [← codeIn_congr hvw]
    -- a cell without a code has no category in either mapping
    cases codeIn v with
    | none => exact .none
    | some code => exact h.categoryOf_rel code
  rw [decodeCell, decodeCell, ← Value.isNull_eq_of_beq hvw]
  split
  · exact BEq.rfl
  · generalize (codeIn v).bind m.categoryOf = a at hcode ⊢
    generalize (codeIn w).bind k.categoryOf = b at hcode ⊢
    cases hcode with
    | some hab => exact hab
    | none => exact ⟨rfl, rfl⟩

/-- A column is encoded cell by cell, so nothing is left to tell two equal columns apart. -/
theorem alike_encode (h : m.Like k) (hcd : (c == d) = true) :
    Alike (· == ·) (m.encode c) (k.encode d) := by
  obtain ⟨vs, ws, hvs, hws, hvw⟩ := Column.exists_values_of_beq hcd
  rw [encode, encode, hvs, hws, ok_bind, ok_bind, Column.name_eq_of_beq hcd]
  have hcells : Alike (List.Forall₂ (· == ·)) (vs.mapM (m.encodeCell d.name))
      (ws.mapM (k.encodeCell d.name)) := Alike.mapM hvw fun v w hvw => h.alike_encodeCell hvw
  exact hcells.bind fun _ _ hab => Column.alike_ofValues hab

/-- The same goes for decoding. The type of the new column is the one of the mapping. -/
theorem alike_decode (h : m.Like k) (hcd : (c == d) = true) :
    Alike (· == ·) (m.decode c) (k.decode d) := by
  obtain ⟨vs, ws, hvs, hws, hvw⟩ := Column.exists_values_of_beq hcd
  rw [decode, decode, hvs, hws, ok_bind, ok_bind, Column.name_eq_of_beq hcd, h.type_eq]
  have hcells : Alike (List.Forall₂ (· == ·)) (vs.mapM (m.decodeCell d.name))
      (ws.mapM (k.decodeCell d.name)) := Alike.mapM hvw fun v w hvw => h.alike_decodeCell hvw
  exact hcells.bind fun _ _ hab => Column.alike_ofValues hab

end Like

/-! ### Learning -/

/-- Columns of one type in which the same is observed, up to equality of the values. -/
structure SameObserved (c d : Column) : Prop where
  type_eq : c.type = d.type
  observed : Alike (List.Forall₂ (· == ·)) (observed c) (observed d)

/-- Equal distinct values are the same observation: either there are some or there are none. -/
theorem sameObserved_of_forall₂ (ht : c.type = d.type) (hvs : c.values = .ok vs)
    (hws : d.values = .ok ws) (h : List.Forall₂ (· == ·)
      (Value.ascending (vs.filter fun v => !v.isNull))
      (Value.ascending (ws.filter fun v => !v.isNull))) : SameObserved c d := by
  refine ⟨ht, ?_⟩
  rw [observed, observed, hvs, hws, ok_bind, ok_bind]
  generalize Value.ascending (vs.filter fun v => !v.isNull) = xs at h ⊢
  generalize Value.ascending (ws.filter fun v => !v.isNull) = ys at h ⊢
  -- both columns have values, or neither has
  cases h with
  | nil => exact ⟨rfl, rfl⟩
  | cons hab habs => exact List.Forall₂.cons hab habs

/-- In equal columns the same is observed. -/
theorem sameObserved_of_beq (hcd : (c == d) = true) : SameObserved c d := by
  obtain ⟨vs, ws, hvs, hws, hvw⟩ := Column.exists_values_of_beq hcd
  exact sameObserved_of_forall₂ (Column.type_eq_of_beq hcd) hvs hws
    (Value.forall₂_ascending (Value.filter_congr hvw))

/-- The categories of the mapping are what was observed; soundness is known of it apart. -/
theorem SameObserved.alike_sorted (h : SameObserved c d) (hc : c.Canonical) (hd : d.Canonical) :
    Alike Like (sorted c) (sorted d) := by
  have halike : Alike (fun m k => m.type = k.type ∧
      List.Forall₂ (· == ·) m.categories k.categories) (sorted c) (sorted d) :=
    h.observed.bind fun vs ws hvw => ⟨h.type_eq, hvw⟩
  apply halike.imp
  intro m k hm hk h
  exact ⟨(learned_of_sorted hc hm).sound, (learned_of_sorted hd hk).sound, h.1, h.2⟩

/-- Equal orders both have a fault or neither has one. Which fault it is may differ in the category
that is named, since of equal values each order names its own. -/
theorem orderFault?_rel {type : ColumnType} {seen seen' : List Value}
    (hseen : List.Forall₂ (· == ·) seen seen') (h : List.Forall₂ (· == ·) vs ws) :
    Option.Rel (fun _ _ => True) (orderFault? type seen vs) (orderFault? type seen' ws) := by
  -- each value is held against those before it, so these are part of the induction
  induction h generalizing seen seen' with
  | nil => exact .none
  | cons hvw _ ih =>
    rw [orderFault?, orderFault?, Value.isNull_eq_of_beq hvw, Value.accepts_eq_of_beq hvw,
      Value.contains_congr hseen hvw]
    split
    · exact .some trivial
    · split
      · exact .some trivial
      · split
        · exact .some trivial
        · exact ih (.cons hvw hseen)

/-- Equal orders are accepted together and refused together, where the same is observed. -/
theorem SameObserved.alike_ordered (h : SameObserved c d) (hc : c.Canonical) (hd : d.Canonical)
    {order order' : List Value} (ho : List.Forall₂ (· == ·) order order') :
    Alike Like (ordered c order) (ordered d order') := by
  have hfault : Option.Rel (fun _ _ => True) (orderFault? d.type [] order)
      (orderFault? d.type [] order') := orderFault?_rel .nil ho
  have halike : Alike (fun m k => m.type = k.type ∧
      List.Forall₂ (· == ·) m.categories k.categories) (ordered c order) (ordered d order') := by
    refine h.observed.bind fun vs ws hvw => ?_
    -- the observed values that an order leaves out are equal ones
    have hcover : Option.Rel (· == ·) (vs.find? fun v => !order.contains v)
        (ws.find? fun w => !order'.contains w) :=
      find?_rel hvw fun v w h => by rw [Value.contains_congr ho h]
    rw [h.type_eq]
    generalize orderFault? d.type [] order = a at hfault ⊢
    generalize orderFault? d.type [] order' = b at hfault ⊢
    cases hfault with
    | some _ => exact ⟨rfl, rfl⟩
    | none =>
      generalize (vs.find? fun v => !order.contains v) = a at hcover ⊢
      generalize (ws.find? fun w => !order'.contains w) = b at hcover ⊢
      cases hcover with
      | some _ => exact ⟨rfl, rfl⟩
      | none => exact ⟨rfl, ho⟩
  -- that the mappings are sound is known of each by itself
  apply halike.imp
  intro m k hm hk h
  exact ⟨(learned_of_ordered hc hm).sound, (learned_of_ordered hd hk).sound, h.1, h.2⟩

end Mapping

end Tabula
