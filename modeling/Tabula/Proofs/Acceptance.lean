import Tabula.Proofs.Codes
import Tabula.Proofs.Representatives

/-!
# When an order is accepted

An order of categories is held against a column in three steps: the column has to have values, the
order has to be good by itself, and it has to cover the values. The order is checked from its front,
and each of its values against those before it, so what is reported is the first defect. Of values
that are not covered the least is reported, wherever it stands in the column.

* `Mapping.GoodOrder` — orders that are good by themselves.
* `Mapping.Defect` — what is wrong with a value of an order, behind those before it.
* `Mapping.orderFault?_eq_some_iff_goodOrder` — the defect of an order is that of its first bad
  position.
* `Mapping.LeastUncovered` — the value reported if an order does not cover a column.
* `Mapping.ordered_eq_ok_iff`, `Mapping.ordered_eq_error_iff` — which orders are accepted, and why
  the others are refused.
* `Mapping.ordered_accepts_exactly` — the same of every column that can be reached, with the codes.
-/

namespace Tabula

variable {c : Column} {m : Mapping} {v w : Value} {vs ws order : List Value} {type : ColumnType}
  {fault : LearningFault} {err : Error}

namespace Value

/-- What is found first in an ascending list is the least value with the property. -/
theorem Ascends.least_of_find? {p : Value → Bool} (h : Ascends vs) (hv : vs.find? p = some v) :
    v ∈ vs ∧ p v = true ∧ ∀ w ∈ vs, p w = true → v.cmp w ≠ .gt := by
  obtain ⟨hpv, before, after, rfl, hbefore⟩ := List.find?_eq_some_iff_append.1 hv
  refine ⟨List.mem_append_right _ List.mem_cons_self, hpv, fun w hw hpw => ?_⟩
  obtain hw | hw := List.mem_append.1 hw
  · have hno := hbefore w hw
    rw [hpw] at hno
    cases hno
  · have hafter : Ascends (v :: after) := (List.pairwise_append.1 h).2.1
    exact hafter.cmp_head (List.contains_iff_exists_mem_beq.2 ⟨w, hw, BEq.rfl⟩)

/-- Of the values of an ascending list with a property, the first found is the least. -/
theorem Ascends.find?_eq_some_iff {p : Value → Bool} (h : Ascends vs) : vs.find? p = some v ↔
    v ∈ vs ∧ p v = true ∧ ∀ w ∈ vs, p w = true → v.cmp w ≠ .gt := by
  constructor
  · exact h.least_of_find?
  · rintro ⟨hv, hpv, hmin⟩
    obtain ⟨u, hu⟩ : ∃ u, vs.find? p = some u := by
      rw [← Option.isSome_iff_exists, List.find?_isSome]
      exact ⟨v, hv, hpv⟩
    -- the one that is found and the least one are not behind each other
    obtain ⟨humem, hpu, humin⟩ := h.least_of_find? hu
    have hvu : (v == u) = true := beq_of_cmp_ne_gt (hmin u humem hpu) (humin v hv hpv)
    rw [hu, h.eq_of_beq hv humem hvu]

end Value

namespace Mapping

/-! ### Orders by themselves -/

/-- An order without defects: no value is empty, all are of the type, and no two are equal. -/
structure GoodOrder (type : ColumnType) (order : List Value) : Prop where
  not_null : ∀ v ∈ order, v.isNull = false
  typed : ∀ v ∈ order, v.columnType? = some type
  distinct : order.Pairwise fun v w => (v == w) = false

/-- What is wrong with a value of an order, behind the values `before` it. That it is empty counts
before its type, and this before a repetition. -/
inductive Defect (type : ColumnType) (before : List Value) (v : Value) : LearningFault → Prop
  | null : v.isNull = true → Defect type before v .nullInOrder
  | wrongType : v.isNull = false → v.columnType? ≠ some type →
      Defect type before v (.wrongType v type)
  | repeated {w : Value} : v.isNull = false → v.columnType? = some type → w ∈ before →
      (v == w) = true → Defect type before v (.repeated v)

/-- It does not matter how often and where the values before it stand. -/
theorem Defect.mono {before others : List Value} (h : Defect type before v fault)
    (hsub : before ⊆ others) : Defect type others v fault := by
  cases h with
  | null hn => exact .null hn
  | wrongType hn ht => exact .wrongType hn ht
  | repeated hn ht hw hvw => exact .repeated hn ht (hsub hw) hvw

/-- A type accepts a value other than null if it is its own. -/
theorem accepts_iff_of_not_null (h : v.isNull = false) :
    type.accepts v = true ↔ v.columnType? = some type := by
  rw [accepts_iff, h]
  exact or_iff_right Bool.false_ne_true

/-- Checked from its front with nothing before it, an order passes exactly if it is good by
itself. -/
theorem orderFault?_eq_none_iff_goodOrder :
    orderFault? type [] order = none ↔ GoodOrder type order := by
  rw [orderFault?_eq_none_iff]
  constructor
  · rintro ⟨hall, hdistinct⟩
    exact ⟨fun v hv => (hall v hv).1,
      fun v hv => (accepts_iff_of_not_null (hall v hv).1).1 (hall v hv).2.1, hdistinct⟩
  · rintro ⟨hnull, htyped, hdistinct⟩
    exact ⟨fun v hv => ⟨hnull v hv, (accepts_iff_of_not_null (hnull v hv)).2 (htyped v hv), rfl⟩,
      hdistinct⟩

/-- The defect of one value of an order. -/
def defect? (type : ColumnType) (seen : List Value) (v : Value) : Option LearningFault :=
  if v.isNull then some .nullInOrder
  else if !type.accepts v then some (.wrongType v type)
  else if seen.contains v then some (.repeated v)
  else none

/-- The defect that is looked for is the one there is. -/
theorem defect?_eq_some_iff {seen : List Value} :
    defect? type seen v = some fault ↔ Defect type seen v fault := by
  rw [defect?]
  constructor
  · -- the checks are made in turn, and each is reached only if those before it have been passed
    intro h
    split at h
    · next hn =>
      obtain rfl := Option.some.inj h
      exact .null hn
    · next hn =>
      rw [Bool.not_eq_true] at hn
      split at h
      · next ha =>
        obtain rfl := Option.some.inj h
        refine .wrongType hn fun ht => ?_
        rw [(accepts_iff_of_not_null hn).2 ht] at ha
        cases ha
      · next ha =>
        rw [Bool.not_eq_true', Bool.not_eq_false, accepts_iff_of_not_null hn] at ha
        split at h
        · next hs =>
          obtain rfl := Option.some.inj h
          obtain ⟨w, hw, hvw⟩ := List.contains_iff_exists_mem_beq.1 hs
          exact .repeated hn ha hw hvw
        · cases h
  · intro h
    -- a defect says what was passed before it
    cases h with
    | null hn => rw [if_pos hn]
    | wrongType hn ht =>
      have ha : type.accepts v = false :=
        Bool.eq_false_iff.2 fun ha => ht ((accepts_iff_of_not_null hn).1 ha)
      rw [hn, ha]
      rfl
    | repeated hn ht hw hvw =>
      have hs : seen.contains v = true := List.contains_iff_exists_mem_beq.2 ⟨_, hw, hvw⟩
      rw [hn, (accepts_iff_of_not_null hn).2 ht, hs]
      rfl

/-- An order is checked value by value. -/
theorem orderFault?_cons {seen : List Value} : orderFault? type seen (v :: vs) =
    (defect? type seen v).or (orderFault? type (v :: seen) vs) := by
  rw [orderFault?, defect?]
  split
  · rfl
  · split
    · rfl
    · split
      · rfl
      · rfl

/-- The reported defect is that of the first value that does not pass, held against all those before
it. -/
theorem orderFault?_eq_some_iff {seen : List Value} : orderFault? type seen order = some fault ↔
    ∃ before v after, order = before ++ v :: after ∧ orderFault? type seen before = none ∧
      Defect type (before.reverse ++ seen) v fault := by
  -- the values before a value are those seen at first and those passed since
  induction order generalizing seen with
  | nil =>
    constructor
    · exact nofun
    · rintro ⟨before, v, after, h, -⟩
      exact absurd h.symm (List.append_ne_nil_of_right_ne_nil before (List.cons_ne_nil v after))
  | cons x xs ih =>
    rw [orderFault?_cons, Option.or_eq_some_iff, defect?_eq_some_iff, ih]
    constructor
    · rintro (hx | ⟨hx, before, v, after, rfl, hbefore, hv⟩)
      · exact ⟨[], x, xs, rfl, rfl, hx⟩
      · refine ⟨x :: before, v, after, rfl, ?_, ?_⟩
        · rw [orderFault?_cons, hx, hbefore, Option.or_none]
        · rw [List.reverse_cons, List.append_assoc]
          exact hv
    · rintro ⟨before, v, after, h, hbefore, hv⟩
      cases before with
      | nil =>
        obtain ⟨rfl, rfl⟩ := List.cons.inj h
        exact .inl hv
      | cons y before =>
        obtain ⟨rfl, rfl⟩ := List.cons.inj h
        rw [orderFault?_cons, Option.or_eq_none_iff] at hbefore
        rw [List.reverse_cons, List.append_assoc] at hv
        exact .inr ⟨hbefore.1, before, v, after, rfl, hbefore.2, hv⟩

/-- The defect that is reported is that of the first value that has one. -/
theorem orderFault?_eq_some_iff_goodOrder : orderFault? type [] order = some fault ↔
    ∃ before v after, order = before ++ v :: after ∧ GoodOrder type before ∧
      Defect type before v fault := by
  simp only [orderFault?_eq_some_iff, orderFault?_eq_none_iff_goodOrder, List.append_nil]
  constructor
  · rintro ⟨before, v, after, horder, hbefore, hv⟩
    exact ⟨before, v, after, horder, hbefore, hv.mono (List.reverse_subset.2 (List.Subset.refl _))⟩
  · rintro ⟨before, v, after, horder, hbefore, hv⟩
    exact ⟨before, v, after, horder, hbefore, hv.mono (List.subset_reverse.2 (List.Subset.refl _))⟩

/-! ### Orders and columns -/

/-- The value that is reported if an order does not cover a column: of the values that it does not
contain the least one, and of equal ones the last. -/
structure LeastUncovered (vs order : List Value) (v : Value) : Prop where
  last : Value.LastIn v vs
  not_null : v.isNull = false
  uncovered : order.contains v = false
  least : ∀ w ∈ vs, w.isNull = false → order.contains w = false → v.cmp w ≠ .gt

/-- The first uncovered value among those observed is the least one of the column. -/
theorem find?_uncovered_eq_some_iff :
    (Value.observed vs).find? (fun v => !order.contains v) = some v ↔
      LeastUncovered vs order v := by
  have hascends : Value.Ascends (Value.observed vs) := Value.ascends_ascending _
  rw [hascends.find?_eq_some_iff, Value.mem_observed_iff, Bool.not_eq_true']
  constructor
  · rintro ⟨⟨hn, hlast⟩, hv, hmin⟩
    refine ⟨hlast, hn, hv, fun w hw hwn huncovered => ?_⟩
    -- the value has an equal one among those observed
    obtain ⟨u, hu, hwu⟩ := Value.exists_observed hw hwn
    have hrefl : List.Forall₂ (fun v w : Value => (v == w) = true) order order :=
      List.forall₂_same.2 fun _ _ => BEq.rfl
    rw [Value.contains_congr hrefl hwu] at huncovered
    rw [Value.cmp_congr BEq.rfl hwu]
    exact hmin u (List.mem_of_getElem? hu) (by rw [huncovered, Bool.not_false])
  · rintro ⟨hlast, hn, hv, hleast⟩
    refine ⟨⟨hn, hlast⟩, hv, fun w hw huncovered => ?_⟩
    obtain ⟨hwn, hw⟩ := Value.mem_observed_iff.1 hw
    rw [Bool.not_eq_true'] at huncovered
    exact hleast w hw.mem hwn huncovered

/-- Nothing is observed in a column of nulls, and in no other. -/
theorem observed_eq_nil_iff : Value.observed vs = [] ↔ ∀ v ∈ vs, v.isNull = true := by
  rw [List.eq_nil_iff_forall_not_mem]
  constructor
  · intro h v hv
    cases hn : v.isNull with
    | true => rfl
    | false =>
      -- a value that is not null has an equal one among those observed
      obtain ⟨u, hu, -⟩ := Value.exists_observed hv hn
      exact absurd (List.mem_of_getElem? hu) (h u)
  · intro h v hv
    obtain ⟨hn, hlast⟩ := Value.mem_observed_iff.1 hv
    rw [h v hlast.mem] at hn
    cases hn

/-- Something is observed as soon as one value is not null. -/
theorem observed_ne_nil_iff : Value.observed vs ≠ [] ↔ ∃ v ∈ vs, v.isNull = false := by
  rw [ne_eq, observed_eq_nil_iff]
  simp only [not_forall, Bool.not_eq_true, exists_prop]

/-- Nothing is uncovered if every value but null equals one of the order. -/
theorem find?_uncovered_eq_none_iff :
    (Value.observed vs).find? (fun v => !order.contains v) = none ↔
      ∀ v ∈ vs, v.isNull = false → ∃ w ∈ order, (v == w) = true := by
  simp only [List.find?_eq_none, Bool.not_eq_true', Bool.not_eq_false,
    List.contains_iff_exists_mem_beq]
  constructor
  · intro h v hv hn
    obtain ⟨u, hu, hvu⟩ := Value.exists_observed hv hn
    obtain ⟨w, hw, huw⟩ := h u (List.mem_of_getElem? hu)
    exact ⟨w, hw, BEq.trans hvu huw⟩
  · intro h v hv
    obtain ⟨hn, hlast⟩ := Value.mem_observed_iff.1 hv
    exact h v hlast.mem hn

/-- What learning by an order comes to, in terms of the values of the column. -/
theorem ordered_of_values (hvs : c.values = .ok vs) : ordered c order =
    if Value.observed vs = [] then .error (.learning c.name .noValues)
    else match orderFault? c.type [] order with
      | some fault => .error (.learning c.name fault)
      | none =>
        match (Value.observed vs).find? fun v => !order.contains v with
        | some v => .error (.learning c.name (.uncovered v))
        | none => .ok (ofCategories c.type order) := by
  split
  · next h =>
    have hnil : Value.ascending (vs.filter fun v => !v.isNull) = [] := h
    rw [ordered, observed, hvs, ok_bind, hnil]
    rfl
  · next h =>
    rw [ordered, (observed_eq_ok_iff hvs).2 ⟨rfl, h⟩, ok_bind]
    rfl

/-- Why an order is refused for a column: because the column has no values, or for the first defect
of the order, or else for the least value that it does not cover. -/
inductive Refused (c : Column) (vs order : List Value) : Error → Prop
  | noValues : (∀ v ∈ vs, v.isNull = true) → Refused c vs order (.learning c.name .noValues)
  | defect {before after : List Value} {v : Value} {fault : LearningFault} :
      (∃ v ∈ vs, v.isNull = false) → order = before ++ v :: after → GoodOrder c.type before →
      Defect c.type before v fault → Refused c vs order (.learning c.name fault)
  | uncovered {v : Value} : GoodOrder c.type order → LeastUncovered vs order v →
      Refused c vs order (.learning c.name (.uncovered v))

/-- What is learned by an order has the order as its categories, and the code of a value is the
position of the equal value there. -/
structure LearnedBy (m : Mapping) (type : ColumnType) (order : List Value) : Prop where
  type_eq : m.type = type
  categories_eq : m.categories = order
  codeOf_iff : ∀ (v : Value) (code : Int64), m.codeOf v = some code ↔
    ∃ (i : Nat) (w : Value), order[i]? = some w ∧ (v == w) = true ∧ Int64.ofNat i = code
  /-- Positions that fit into words are not changed by being codes. -/
  position : order.length < 2 ^ 63 → ∀ (v : Value) (i : Nat) (w : Value), order[i]? = some w →
    (v == w) = true → ∃ code : Int64, m.codeOf v = some code ∧ code.toInt = i

/-- An order is accepted if the column has values, the order is good by itself and covers them; what
is learned then is the order itself. -/
theorem ordered_eq_ok_iff (hvs : c.values = .ok vs) : ordered c order = .ok m ↔
    ((∃ v ∈ vs, v.isNull = false) ∧ GoodOrder c.type order ∧
      ∀ v ∈ vs, v.isNull = false → ∃ w ∈ order, (v == w) = true) ∧
    ofCategories c.type order = m := by
  rw [ordered_of_values hvs, ← observed_ne_nil_iff, ← orderFault?_eq_none_iff_goodOrder,
    ← find?_uncovered_eq_none_iff]
  -- without values there is nothing to be accepted, otherwise both checks have to pass
  split
  · next h => simp [h]
  · next h =>
    cases orderFault? c.type [] order with
    | some fault => simp
    | none => cases (Value.observed vs).find? fun v => !order.contains v <;> simp [h]

/-- An order is refused for exactly the reasons of `Refused`. -/
theorem ordered_eq_error_iff (hvs : c.values = .ok vs) :
    ordered c order = .error err ↔ Refused c vs order err := by
  rw [ordered_of_values hvs]
  constructor
  · -- the three checks are made in turn, and each has its own reason to refuse
    intro h
    split at h
    · next hnil =>
      obtain rfl := Except.error.inj h
      exact .noValues (observed_eq_nil_iff.1 hnil)
    · next hvalues =>
      split at h
      · next fault hfault =>
        obtain rfl := Except.error.inj h
        obtain ⟨before, v, after, horder, hbefore, hv⟩ :=
          orderFault?_eq_some_iff_goodOrder.1 hfault
        exact .defect (observed_ne_nil_iff.1 hvalues) horder hbefore hv
      · next hgood =>
        split at h
        · next v hv =>
          obtain rfl := Except.error.inj h
          exact .uncovered (orderFault?_eq_none_iff_goodOrder.1 hgood)
            (find?_uncovered_eq_some_iff.1 hv)
        · cases h
  · -- a reason says that the checks before it have been passed
    intro h
    cases h with
    | noValues hnull => rw [if_pos (observed_eq_nil_iff.2 hnull)]
    | defect hvalues horder hbefore hv =>
      have hfault := orderFault?_eq_some_iff_goodOrder.2 ⟨_, _, _, horder, hbefore, hv⟩
      rw [if_neg (observed_ne_nil_iff.2 hvalues), hfault]
    | uncovered hgood hv =>
      rw [if_neg (observed_ne_nil_iff.2 ⟨_, hv.last.mem, hv.not_null⟩),
        orderFault?_eq_none_iff_goodOrder.2 hgood, find?_uncovered_eq_some_iff.2 hv]

/-- What is learned from an order is determined by it: its categories are those of the order, at
their places. -/
theorem learnedBy_of_ordered (hc : c.Canonical) (h : ordered c order = .ok m) :
    m.LearnedBy c.type order := by
  have hm : m.Sound := (learned_of_ordered hc h).sound
  obtain ⟨vs, hvs, -⟩ := hc.exists_values
  obtain ⟨-, rfl⟩ := (ordered_eq_ok_iff hvs).1 h
  exact ⟨rfl, rfl, fun v code => hm.codeOf_eq_some_iff, fun hl v i w hi hvw =>
    ⟨_, hm.codeOf_getElem? hl hi hvw⟩⟩

/-- Two zeros are equal, and so are two not-a-numbers, so that no good order has both of them. -/
theorem GoodOrder.not_both {x y : Binary64} (h : GoodOrder type order) {i j : Nat} (hij : i < j)
    (hx : order[i]? = some (.float x)) (hy : order[j]? = some (.float y)) :
    ¬(x.isZero = true ∧ y.isZero = true) ∧ ¬(x.isNaN = true ∧ y.isNaN = true) := by
  obtain ⟨hi, hx⟩ := List.getElem?_eq_some_iff.1 hx
  obtain ⟨hj, hy⟩ := List.getElem?_eq_some_iff.1 hy
  have hne : (Value.float x == .float y) = false :=
    hx ▸ hy ▸ List.pairwise_iff_getElem.1 h.distinct i j hi hj hij
  -- two zeros, or two that are not numbers, would have one rank and so be equal
  have hrank : x.rank ≠ y.rank := by
    intro heq
    rw [Value.beq_of_rank_eq heq] at hne
    cases hne
  refine ⟨fun ⟨hx, hy⟩ => hrank ?_, fun ⟨hx, hy⟩ => hrank ?_⟩
  · rw [Binary64.rank_of_isZero hx, Binary64.rank_of_isZero hy]
  · rw [Binary64.rank_of_isNaN hx, Binary64.rank_of_isNaN hy]

/-- An order is accepted for a column exactly if the column has values and the order is good and
covers them. The order is then the list of the categories, and positions there are codes. All zeros
count as one value here, and all not-a-numbers as another. An order that is not accepted is refused
for a reason that is determined. -/
theorem ordered_accepts_exactly (hc : Reachable (.column c)) : ∃ vs, c.values = .ok vs ∧
    ((∃ m, ordered c order = .ok m) ↔ (∃ v ∈ vs, v.isNull = false) ∧ GoodOrder c.type order ∧
      ∀ v ∈ vs, v.isNull = false → ∃ w ∈ order, (v == w) = true) ∧
    (∀ m, ordered c order = .ok m → m.LearnedBy c.type order) ∧
    (∀ (i j : Nat) (x y : Binary64), i < j → order[i]? = some (.float x) →
      order[j]? = some (.float y) →
      x.isZero = true ∧ y.isZero = true ∨ x.isNaN = true ∧ y.isNaN = true →
      ∃ fault, ordered c order = .error (.learning c.name fault)) ∧
    ∀ err, ordered c order = .error err ↔ Refused c vs order err := by
  have hcan : c.Canonical := hc.sound
  obtain ⟨vs, hvs, -⟩ := hcan.exists_values
  refine ⟨vs, hvs, ?_, fun m => learnedBy_of_ordered hcan, ?_, fun err => ordered_eq_error_iff hvs⟩
  · simp only [ordered_eq_ok_iff hvs, exists_and_left, exists_eq', and_true]
  · intro i j x y hij hx hy hxy
    -- an order that was accepted is good, and a good one has no such pair
    cases h : ordered c order with
    | error err =>
      obtain ⟨fault, rfl⟩ := exists_fault_of_ordered hcan h
      exact ⟨fault, rfl⟩
    | ok m =>
      obtain ⟨⟨-, hgood, -⟩, -⟩ := (ordered_eq_ok_iff hvs).1 h
      obtain ⟨hzeros, hnans⟩ := hgood.not_both hij hx hy
      exact absurd hxy (not_or.2 ⟨hzeros, hnans⟩)

/-- The negative zero repeats the positive one, and this is reported although an empty value is
behind it and a value of the column is not covered. -/
theorem ordered_accepts_exactly_zeros : ∃ c vs,
    Column.ofValues "x" .float [.float ⟨0x3ff8000000000000⟩, .null, .float .zero] = .ok c ∧
    c.values = .ok vs ∧
    ordered c [.float .zero, .float ⟨0x8000000000000000⟩, .null] =
      .error (.learning "x" (.repeated (.float ⟨0x8000000000000000⟩))) ∧
    Refused c vs [.float .zero, .float ⟨0x8000000000000000⟩, .null]
      (.learning "x" (.repeated (.float ⟨0x8000000000000000⟩))) := by
  obtain ⟨c, hc, horder⟩ : ∃ c,
      Column.ofValues "x" .float [.float ⟨0x3ff8000000000000⟩, .null, .float .zero] = .ok c ∧
      ordered c [.float .zero, .float ⟨0x8000000000000000⟩, .null] =
        .error (.learning "x" (.repeated (.float ⟨0x8000000000000000⟩))) := ⟨_, rfl, rfl⟩
  obtain ⟨vs, hvs, -, -, -, hrefused⟩ := ordered_accepts_exactly (.ofValues hc)
  exact ⟨c, vs, hc, hvs, horder, (hrefused _).1 horder⟩

end Mapping

end Tabula
