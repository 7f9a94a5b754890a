import Tabula.Proofs.Alike
import Tabula.Proofs.RoundTrip

/-!
# Codes as ranks

Which code a value gets is told by how a mapping is made, step after step. What it means is simpler:
the code of a value is the number of distinct values of the column that are before it. Counting does
not know of sorted lists, so it is first brought to them: lists without equal values that hold the
same values are of the same length, and in an ascending one those before a value are at its front.

* `Value.countDistinct`, `Value.rankIn` — the count of distinct values, and of those before a value.
* `Value.cmp_eq_compare_rankIn` — values are ordered as their ranks are.
* `Value.Ranked` — the cells hold the ranks of the values, which leave no number out.
* `Mapping.ranked_of_encode` — so they do if the mapping was learned from the column itself.
* `Encoder.codes_are_ranks` — the same of an encoder and a table.
-/

namespace Tabula

namespace Value

variable {v w u : Value} {vs ws : List Value} {i j : Nat}

/-! ### Counting -/

/-- The number of values in a list, equal ones counted once. -/
def countDistinct (vs : List Value) : Nat := vs.eraseDups.length

/-- The number of distinct values in a list that are before a value. Empty cells are no values. -/
def rankIn (vs : List Value) (v : Value) : Nat :=
  countDistinct (vs.filter fun w => !w.isNull && w.cmp v == .lt)

/-- Values of which no two are equal need as many values to be equal to. -/
theorem length_le_of_contains (hvs : vs.Pairwise fun v w => (v == w) = false)
    (h : ∀ v ∈ vs, ws.contains v = true) : vs.length ≤ ws.length := by
  induction vs generalizing ws with
  | nil => exact Nat.zero_le _
  | cons v vs ih =>
    obtain ⟨hv, hvs⟩ := List.pairwise_cons.1 hvs
    obtain ⟨hhead, htail⟩ := List.forall_mem_cons.1 h
    obtain ⟨w, hw, hvw⟩ := List.contains_iff_exists_mem_beq.1 hhead
    -- the value that equals the first one is taken out of the longer list
    obtain ⟨before, after, rfl⟩ := List.append_of_mem hw
    -- the others are equal to something else
    have hrest : ∀ v' ∈ vs, (before ++ after).contains v' = true := by
      intro v' hv'
      have hne : (v' == w) = false := by
        rw [← BEq.congr_right hvw, BEq.comm]
        exact hv v' hv'
      have hin := htail v' hv'
      rw [List.contains_append, List.contains_cons, hne, Bool.false_or] at hin
      rw [List.contains_append]
      exact hin
    have hlength := ih hvs hrest
    rw [List.length_append] at hlength
    rw [List.length_cons, List.length_append, List.length_cons]
    omega

/-- A test that does not tell equal values apart may be made before or after looking for a value. -/
theorem contains_filter {p : Value → Bool} (hp : ∀ v w, (v == w) = true → p v = p w) :
    (vs.filter p).contains v = (p v && vs.contains v) := by
  induction vs with
  | nil => rw [List.filter_nil, List.contains_nil, Bool.and_false]
  | cons w vs ih =>
    rw [List.filter_cons, List.contains_cons]
    -- the head equals the value and the test treats both alike, or it plays no part
    cases hvw : v == w with
    | true =>
      rw [hp v w hvw, Bool.true_or, Bool.and_true]
      split
      · next hw => rw [List.contains_cons, hvw, hw, Bool.true_or]
      · next hw =>
        rw [ih, hp v w hvw, Bool.eq_false_iff.2 hw, Bool.false_and]
    | false =>
      rw [Bool.false_or, ← ih]
      split
      · rw [List.contains_cons, hvw, Bool.false_or]
      · rfl

/-- Without its repetitions a list has no two equal values, and still contains the same. -/
theorem eraseDups_spec (vs : List Value) :
    vs.eraseDups.Pairwise (fun v w => (v == w) = false) ∧
      ∀ w, vs.eraseDups.contains w = vs.contains w := by
  match vs with
  | [] => exact ⟨.nil, fun _ => rfl⟩
  | v :: vs =>
    have hfilter : ∀ w, (vs.filter fun x => !(x == v)).contains w = (!(w == v) && vs.contains w) :=
      fun w => contains_filter fun x y hxy => by rw [BEq.congr_left hxy]
    obtain ⟨hpairwise, hcontains⟩ := eraseDups_spec (vs.filter fun x => !(x == v))
    rw [List.eraseDups_cons]
    -- what equals the head has been filtered out of the rest
    refine ⟨List.pairwise_cons.2 ⟨fun w hw => ?_, hpairwise⟩, fun w => ?_⟩
    · have hin : (vs.filter fun x => !(x == v)).eraseDups.contains w = true :=
        List.contains_iff_exists_mem_beq.2 ⟨w, hw, BEq.rfl⟩
      rw [hcontains, hfilter, Bool.and_eq_true] at hin
      rw [BEq.comm]
      simpa using hin.1
    · rw [List.contains_cons, List.contains_cons, hcontains, hfilter]
      cases w == v with
      | true => rfl
      | false => rfl
termination_by vs.length
decreasing_by exact Nat.lt_succ_of_le (List.length_filter_le _ _)

/-- Distinct values can be counted in any list without repetitions that contains the same. -/
theorem countDistinct_eq_length (hws : ws.Pairwise fun v w => (v == w) = false)
    (h : ∀ w, ws.contains w = vs.contains w) : countDistinct vs = ws.length := by
  obtain ⟨hpairwise, hcontains⟩ := eraseDups_spec vs
  -- neither of the two lists can be the longer one
  apply Nat.le_antisymm
  · refine length_le_of_contains hpairwise fun v hv => ?_
    rw [h, ← hcontains]
    exact List.contains_iff_exists_mem_beq.2 ⟨v, hv, BEq.rfl⟩
  · refine length_le_of_contains hws fun w hw => ?_
    rw [hcontains, ← h]
    exact List.contains_iff_exists_mem_beq.2 ⟨w, hw, BEq.rfl⟩

/-! ### Ranks in ascending lists -/

/-- The values of an ascending list are ordered as their positions are. -/
theorem Ascends.cmp_getElem? (h : Ascends vs) (hv : vs[i]? = some v) (hw : vs[j]? = some w) :
    v.cmp w = compare i j := by
  obtain ⟨hi, rfl⟩ := List.getElem?_eq_some_iff.1 hv
  obtain ⟨hj, rfl⟩ := List.getElem?_eq_some_iff.1 hw
  have hlt := List.pairwise_iff_getElem.1 h
  -- positions in an ascending list compare as the values there do
  obtain hij | rfl | hij := Nat.lt_trichotomy i j
  · rw [Nat.compare_eq_lt.2 hij]
    exact hlt i j hi hj hij
  · rw [Nat.compare_eq_eq.2 rfl]
    exact beq_iff_cmp.1 BEq.rfl
  · rw [Nat.compare_eq_gt.2 hij]
    exact Std.OrientedCmp.gt_of_lt (hlt j i hj hi hij)

/-- In an ascending list, the values before another one are those at the positions before it. -/
theorem Ascends.filter_lt (h : Ascends vs) (hu : vs[i]? = some u) (hv : (v == u) = true) :
    vs.filter (fun w => w.cmp v == .lt) = vs.take i := by
  obtain ⟨hi, -⟩ := List.getElem?_eq_some_iff.1 hu
  -- the test on values is one on positions
  have hcmp : ∀ j w, vs[j]? = some w → (w.cmp v == .lt) = decide (j < i) := by
    intro j w hw
    rw [cmp_congr BEq.rfl hv, h.cmp_getElem? hw hu]
    cases hji : decide (j < i) with
    | true =>
      rw [Nat.compare_eq_lt.2 (of_decide_eq_true hji)]
      rfl
    | false =>
      rw [beq_eq_false_iff_ne, ne_eq, Nat.compare_eq_lt]
      exact of_decide_eq_false hji
  conv_lhs => rw [← List.take_append_drop i vs, List.filter_append]
  -- all in front of the position pass the test, and nothing behind it does
  have hfront : (vs.take i).filter (fun w => w.cmp v == .lt) = vs.take i := by
    rw [List.filter_eq_self]
    intro w hw
    obtain ⟨j, hj⟩ := List.mem_iff_getElem?.1 hw
    rw [List.getElem?_take] at hj
    split at hj
    · next hji =>
      rw [hcmp j w hj]
      exact decide_eq_true hji
    · cases hj
  have hback : (vs.drop i).filter (fun w => w.cmp v == .lt) = [] := by
    rw [List.filter_eq_nil_iff]
    intro w hw
    obtain ⟨j, hj⟩ := List.mem_iff_getElem?.1 hw
    rw [List.getElem?_drop] at hj
    rw [hcmp (i + j) w hj, decide_eq_true_eq]
    omega
  rw [hfront, hback, List.append_nil]

/-! ### Ranks in columns -/

/-- The values of a column in ascending order. -/
def observed (vs : List Value) : List Value := ascending (vs.filter fun v => !v.isNull)

/-- As many values are observed as there are distinct ones, except for null. -/
theorem length_observed : (observed vs).length = countDistinct (vs.filter fun v => !v.isNull) :=
  (countDistinct_eq_length (ascends_ascending _).pairwise_ne fun _ => contains_ascending).symm

/-- There are no more of them than values. -/
theorem length_observed_le : (observed vs).length ≤ vs.length :=
  length_le_of_contains (ascends_ascending _).pairwise_ne fun w hw =>
    List.contains_iff_exists_mem_beq.2
      ⟨w, (List.mem_filter.1 (mem_of_mem_ascending hw)).1, BEq.rfl⟩

/-- A value is observed, up to equality, if it is in the list and not null. -/
theorem contains_observed : (observed vs).contains v = (!v.isNull && vs.contains v) := by
  rw [observed, contains_ascending]
  exact contains_filter fun v w hvw => by rw [isNull_eq_of_beq hvw]

/-- The rank of a value is its position among the distinct values in ascending order. -/
theorem rankIn_eq (hu : (observed vs)[i]? = some u) (hv : (v == u) = true) : rankIn vs v = i := by
  have hascends : Ascends (observed vs) := ascends_ascending _
  have hp : ∀ x y : Value, (x == y) = true → (x.cmp v == .lt) = (y.cmp v == .lt) :=
    fun x y hxy => by rw [cmp_congr hxy BEq.rfl]
  -- filtering the column and filtering its ascending list leave the same values
  have hcontains : ∀ w, ((observed vs).filter fun w => w.cmp v == .lt).contains w =
      (vs.filter fun w => !w.isNull && w.cmp v == .lt).contains w := by
    intro w
    rw [contains_filter hp, contains_observed, contains_filter (fun x y hxy => by
      rw [isNull_eq_of_beq hxy, hp x y hxy]), Bool.and_left_comm, Bool.and_assoc]
  rw [rankIn, countDistinct_eq_length (hascends.pairwise_ne.filter _) hcontains,
    hascends.filter_lt hu hv, List.length_take]
  exact Nat.min_eq_left (List.getElem?_eq_some_iff.1 hu).1.le

/-- A value stands among those observed at the place of its rank. -/
theorem exists_observed (hv : v ∈ vs) (hn : v.isNull = false) :
    ∃ u, (observed vs)[rankIn vs v]? = some u ∧ (v == u) = true := by
  have hin : (observed vs).contains v = true := by
    rw [contains_observed, hn, List.contains_iff_exists_mem_beq.2 ⟨v, hv, BEq.rfl⟩]
    rfl
  obtain ⟨u, hu, hvu⟩ := List.contains_iff_exists_mem_beq.1 hin
  obtain ⟨i, hi⟩ := List.mem_iff_getElem?.1 hu
  rw [rankIn_eq hi hvu]
  exact ⟨u, hi, hvu⟩

/-- Values are ordered as their ranks are. -/
theorem cmp_eq_compare_rankIn (hv : v ∈ vs) (hn : v.isNull = false) (hw : w ∈ vs)
    (hn' : w.isNull = false) : v.cmp w = compare (rankIn vs v) (rankIn vs w) := by
  obtain ⟨x, hx, hvx⟩ := exists_observed hv hn
  obtain ⟨y, hy, hwy⟩ := exists_observed hw hn'
  rw [cmp_congr hvx hwy]
  exact (ascends_ascending _).cmp_getElem? hx hy

/-- The cells hold the ranks of the values of a column among themselves. -/
structure Ranked (vs ws : List Value) : Prop where
  /-- An empty cell stays empty, and each value gets the number of distinct values before it. -/
  cells : List.Forall₂ (fun v w => v.isNull = true ∧ w = .null ∨ v.isNull = false ∧
    ∃ code : Int64, w = .integer code ∧ code.toInt = rankIn vs v) vs ws
  /-- Codes compare as the values do that they stand for. -/
  order : ∀ (i j : Nat) (v v' : Value) (code code' : Int64), vs[i]? = some v → vs[j]? = some v' →
    ws[i]? = some (.integer code) → ws[j]? = some (.integer code') →
      (code < code' ↔ v.cmp v' = .lt) ∧ (code = code' ↔ (v == v') = true)
  /-- The codes that occur are those from zero to the number of distinct values. -/
  dense : ∀ k : Int, (∃ code : Int64, .integer code ∈ ws ∧ code.toInt = k) ↔
    0 ≤ k ∧ k < countDistinct (vs.filter fun v => !v.isNull)

/-- Cells that hold ranks compare as the values do, and leave no number out. -/
theorem ranked_of_forall₂ (h : List.Forall₂ (fun v w => v.isNull = true ∧ w = .null ∨
    v.isNull = false ∧ ∃ code : Int64, w = .integer code ∧ code.toInt = rankIn vs v) vs ws) :
    Ranked vs ws := by
  have hcell : ∀ {i : Nat} {v : Value} {code : Int64}, vs[i]? = some v →
      ws[i]? = some (.integer code) → v ∈ vs ∧ v.isNull = false ∧ code.toInt = rankIn vs v := by
    intro i v code hv hw
    obtain ⟨hi, rfl⟩ := List.getElem?_eq_some_iff.1 hv
    obtain ⟨hi', hw⟩ := List.getElem?_eq_some_iff.1 hw
    obtain ⟨-, hnull⟩ | ⟨hn, code', hcode, hrank⟩ := h.get hi hi'
    · exact Value.noConfusion (hw.symm.trans hnull)
    · obtain rfl := Value.integer.inj (hw.symm.trans hcode)
      exact ⟨List.getElem_mem hi, hn, hrank⟩
  refine ⟨h, ?_, fun k => ⟨?_, ?_⟩⟩
  · -- codes are ranks, and these compare as the values do
    intro i j v v' code code' hv hv' hw hw'
    obtain ⟨hmem, hn, hrank⟩ := hcell hv hw
    obtain ⟨hmem', hn', hrank'⟩ := hcell hv' hw'
    rw [beq_iff_cmp, cmp_eq_compare_rankIn hmem hn hmem' hn', Nat.compare_eq_lt,
      Nat.compare_eq_eq, Int64.lt_iff_toInt_lt, ← Int64.toInt_inj, hrank, hrank']
    omega
  · -- a code that occurs is a position in the ascending list
    rintro ⟨code, hcode, rfl⟩
    obtain ⟨v, hv, ⟨-, hnull⟩ | ⟨hn, code', heq, hrank⟩⟩ := forall₂_exists_left h hcode
    · cases hnull
    · obtain rfl := Value.integer.inj heq
      obtain ⟨u, hu, -⟩ := exists_observed hv hn
      have hlt := (List.getElem?_eq_some_iff.1 hu).1
      rw [length_observed] at hlt
      omega
  · -- and at each position there is a value, which some cell holds
    rintro ⟨hk, hlt⟩
    obtain ⟨i, rfl⟩ := Int.eq_ofNat_of_zero_le hk
    have hi : i < (observed vs).length := by
      rw [length_observed]
      omega
    have hu : (observed vs)[i]? = some (observed vs)[i] := List.getElem?_eq_getElem hi
    have hmem := List.mem_filter.1 (mem_of_mem_ascending (List.getElem_mem hi))
    obtain ⟨w, hw, ⟨hnull, -⟩ | ⟨-, code, rfl, hrank⟩⟩ := forall₂_exists_right h hmem.1
    · rw [hnull] at hmem
      cases hmem.2
    · exact ⟨code, hw, by rw [hrank, rankIn_eq hu BEq.rfl]⟩

end Value

/-! ### Codes -/

variable {c d : Column} {m : Mapping} {vs : List Value} {t : Table} {e : Encoder} {name : String}

namespace Mapping

/-- What is learned by ascending values, if there are any. -/
theorem sorted_eq_ok_iff (hvs : c.values = .ok vs) : sorted c = .ok m ↔
    Value.observed vs ≠ [] ∧ ofCategories c.type (Value.observed vs) = m := by
  constructor
  · intro h
    obtain ⟨ws, hws, hm⟩ := bind_eq_ok_iff.1 h
    obtain ⟨rfl, hne⟩ := (observed_eq_ok_iff hvs).1 hws
    exact ⟨hne, Except.ok.inj hm⟩
  · rintro ⟨hne, rfl⟩
    exact bind_eq_ok_iff.2 ⟨_, (observed_eq_ok_iff hvs).2 ⟨rfl, hne⟩, rfl⟩

/-- The categories that are learned by ascending values are the values observed. -/
theorem categories_of_sorted (hvs : c.values = .ok vs) (h : sorted c = .ok m) :
    m.categories = Value.observed vs := by
  obtain ⟨-, rfl⟩ := (sorted_eq_ok_iff hvs).1 h
  rfl

/-- A column with a value can be learned. -/
theorem exists_sorted (hvs : c.values = .ok vs) (hv : ∃ v ∈ vs, v.isNull = false) :
    ∃ m, sorted c = .ok m := by
  have hne : Value.observed vs ≠ [] := by
    obtain ⟨v, hv, hn⟩ := hv
    obtain ⟨u, hu, -⟩ := Value.exists_observed hv hn
    rintro hnil
    rw [hnil] at hu
    cases hu
  exact ⟨_, (sorted_eq_ok_iff hvs).2 ⟨hne, rfl⟩⟩

/-- What is learned from a column encodes its values by their ranks, as long as these fit into
codes. -/
theorem ranked_of_encode (hc : c.Canonical) (hm : sorted c = .ok m) (hvs : c.values = .ok vs)
    (hlength : vs.length < 2 ^ 63) (hd : m.encode c = .ok d) :
    ∃ ws, d.values = .ok ws ∧ Value.Ranked vs ws := by
  have hcategories := categories_of_sorted hvs hm
  obtain ⟨-, -, -, ws, hws, hcells⟩ := encode_spec hd hvs
  refine ⟨ws, hws, Value.ranked_of_forall₂ (forall₂_imp_of_mem hcells fun v hv w hvw => ?_)⟩
  obtain hnull | ⟨hn, code, hcode, rfl⟩ := encodeCell_eq_ok_iff.1 hvw
  · exact .inl hnull
  · obtain ⟨i, u, hu, hvu, rfl⟩ := (learned_of_sorted hc hm).sound.codeOf_eq_some_iff.1 hcode
    rw [hcategories] at hu
    -- there are no more distinct values than cells, so the position fits into a code
    have hi : i < vs.length :=
      (List.getElem?_eq_some_iff.1 hu).1.trans_le Value.length_observed_le
    refine .inr ⟨hn, _, rfl, ?_⟩
    rw [Int64.toInt_ofNat_of_lt (hi.trans hlength), Value.rankIn_eq hu hvu]

end Mapping

namespace Encoder

/-- An encoder that learns a column by its values encodes each of them by its rank, the number of
distinct values of the column that are before it, and leaves empty cells empty. So codes compare as
the values do, those that occur are all the numbers below the number of distinct values, and the
categories ascend. -/
theorem codes_are_ranks (he : e.rule = .label) (ht : Reachable (.table t))
    (hrows : t.rowCount < 2 ^ 63) (hvs : t.columnValues name = .ok vs)
    (hv : ∃ v ∈ vs, v.isNull = false) :
    ∃ e' m u ws, (fit t name).run.run e = (.ok (), e') ∧ e'.mappings.get? name = some m ∧
      e'.transform t name = .ok u ∧ u.columnValues name = .ok ws ∧ Value.Ranked vs ws ∧
        Value.Ascends m.categories ∧
          m.length = Value.countDistinct (vs.filter fun v => !v.isNull) := by
  obtain ⟨n, cs, hh⟩ := ht.sound
  obtain ⟨c, hc, hcvs⟩ := bind_eq_ok_iff.1 hvs
  obtain ⟨hmem, rfl⟩ := hh.column_eq_ok_iff.1 hc
  have hcan : c.Canonical := hh.canonical c hmem
  obtain ⟨m, hm⟩ := Mapping.exists_sorted hcvs hv
  have hcategories := Mapping.categories_of_sorted hcvs hm
  have hlength : vs.length < 2 ^ 63 := by
    have hrow : vs.length = t.rowCount :=
      calc vs.length = c.length := (Series.values_spec hcvs).2.1
        _ = n := hh.length_eq c hmem
        _ = t.rowCount := hh.rowCount_eq.symm
    rw [hrow]
    exact hrows
  obtain ⟨d, u, hd, hdn, hu, huh⟩ := hh.exists_encoded hmem (Mapping.learned_of_sorted hcan hm)
  obtain ⟨ws, hws, hranked⟩ := Mapping.ranked_of_encode hcan hm hcvs hlength hd
  -- what is stored by the call is the mapping learned from the column
  have hfit : (fit t c.name).run.run e =
      (.ok (), { e with mappings := e.mappings.insert c.name m }) := by
    have hlearn : (t.column c.name >>= fun c => e.rule.learn c 0) = .ok m := by
      rw [hc, ok_bind, he]
      exact hm
    rw [fit_run, hlearn]
  have hget : (e.mappings.insert c.name m).get? c.name = some m := by
    rw [MappingStore.get?_insert, if_pos rfl]
  refine ⟨_, m, u, ws, hfit, hget, transform_eq_ok_iff.2 ⟨c, m, d, hc, hget, hd, hu⟩, ?_, hranked,
    ?_, ?_⟩
  · refine bind_eq_ok_iff.2 ⟨d, ?_, hws⟩
    exact hdn ▸ huh.column_replaced hmem hdn.symm
  · rw [hcategories]
    exact Value.ascends_ascending _
  · rw [Mapping.length, hcategories, Value.length_observed]

/-- Scores are encoded by their ranks, and the null after them stays a null. -/
theorem codes_are_ranks_scores : ∃ t e u ws, Table.ofFrame .scores = .ok t ∧
    (fit t "score").run.run (ofRule .label) = (.ok (), e) ∧ e.transform t "score" = .ok u ∧
      u.columnValues "score" = .ok ws ∧ ws = [.integer 0, .integer 1, .null] ∧
        Value.Ranked [.integer 7, .integer 9, .null] ws := by
  obtain ⟨t, e, u, ht, hvs, hrows, he, hu, hws⟩ : ∃ t e u, Table.ofFrame .scores = .ok t ∧
      t.columnValues "score" = .ok [.integer 7, .integer 9, .null] ∧ t.rowCount < 2 ^ 63 ∧
        (fit t "score").run.run (ofRule .label) = (.ok (), e) ∧ e.transform t "score" = .ok u ∧
          u.columnValues "score" = .ok [.integer 0, .integer 1, .null] :=
    ⟨_, _, _, rfl, rfl, by decide, rfl, rfl, rfl⟩
  obtain ⟨e', m, u', ws, he', -, hu', hws', hranked, -⟩ := codes_are_ranks (e := ofRule .label) rfl
    (.ofFrame ht) hrows hvs ⟨.integer 7, List.mem_cons_self, rfl⟩
  obtain rfl := (Prod.mk.inj (he.symm.trans he')).2
  obtain rfl := Except.ok.inj (hu.symm.trans hu')
  obtain rfl := Except.ok.inj (hws.symm.trans hws')
  exact ⟨t, e, u, _, ht, he, hu, hws, rfl, hranked⟩

end Encoder

end Tabula
