import Tabula.Proofs.Acceptance
import Tabula.Proofs.Lifecycle

/-!
# Orders that change nothing

Learning by ascending values and learning by supplied orders meet in two places. An encoder that is
to follow orders but has none learns by ascending values, so nothing that is asked of it tells it
from one that never follows orders. And an order may itself ascend. Then it leaves the values of the
column in the order that they have anyway, and all that it can do to their codes is to spread them,
by naming values that the column does not hold.

* `Encoder.trace` — what an encoder answers and stores, call after call.
* `Encoder.trace_congr` — rules that learn the same mappings are not told apart.
* `Value.Ascends.index_le_of_contains` — a value stands no later in a list than in an ascending one
  that holds more.
* `Mapping.Spreads` — the codes of one mapping compare as those of another and are not below them.
* `Encoder.ordinal_agrees_with_label` — both places.
-/

namespace Tabula

variable {r r' : Rule} {c : Column} {m k : Mapping} {t : Table} {v w : Value}
  {vs ws : List Value} {names : List String} {p : Nat} {a b : Int64}

/-! ### Rules that learn the same -/

/-- Columns are encoded by what is learned from them, and by nothing else of the rule. -/
theorem Rule.encodeColumns_congr (h : ∀ c p, r.learn c p = r'.learn c p) :
    r.encodeColumns p t names = r'.encodeColumns p t names := by
  induction names generalizing p t with
  | nil => rfl
  | cons name names ih => simp only [encodeColumns, learnCodes, h, ih]

/-- Without any order an encoder learns by ascending values, wherever its orders would apply. -/
theorem Rule.learn_ordinal_default (policy : OrderPolicy) (c : Column) (p : Nat) :
    label.learn c p = (ordinal { policy := policy }).learn c p := by
  have hnone : Orders.order? { policy := policy } c.name p = none := ite_self none
  simp only [learn, hnone]

namespace Encoder

/-- What the calls answer one after the other, each with the mappings that are stored then. -/
def trace (e : Encoder) : List Operation → List (Except Error (Option Table) × MappingStore)
  | [] => []
  | o :: ops => ((o.run e).1, (o.run e).2.mappings) :: (o.run e).2.trace ops

/-- By a rule that learns the same a call answers the same and leaves the same mappings. -/
theorem Operation.run_congr {e : Encoder} (h : ∀ c p, e.rule.learn c p = r.learn c p)
    (o : Operation) :
    o.run { e with rule := r } = ((o.run e).1, { (o.run e).2 with rule := r }) := by
  cases o with
  | fit t name =>
    rw [run_fit, run_fit]
    simp only [h]
    split <;> rfl
  | fitTransform t names =>
    rw [run_fitTransform, run_fitTransform]
    simp only [Rule.encodeColumns_congr h]
    split <;> rfl
  | transform t name =>
    rw [run_transform, run_transform]
    rfl
  | inverse t name =>
    rw [run_inverse, run_inverse]
    rfl

/-- No calls tell an encoder from one with a rule that learns the same. -/
theorem trace_congr (e : Encoder) (h : ∀ c p, e.rule.learn c p = r.learn c p)
    (ops : List Operation) : trace { e with rule := r } ops = e.trace ops := by
  induction ops generalizing e with
  | nil => rfl
  | cons o ops ih =>
    have hnext : ∀ c p, (o.run e).2.rule.learn c p = r.learn c p := by
      rw [o.rule_run e]
      exact h
    rw [trace, trace, o.run_congr h, ih _ hnext]

end Encoder

/-! ### Orders that ascend -/

/-- A value stands no later in an ascending list than in one that holds all of its values: what is
before it there is before it here as well. -/
theorem Value.Ascends.index_le_of_contains {i j : Nat} (hvs : Ascends vs) (hws : Ascends ws)
    (h : ∀ u ∈ vs, ws.contains u = true) (hv : vs[i]? = some v) (hw : ws[j]? = some w)
    (hvw : (v == w) = true) : i ≤ j := by
  obtain ⟨hi, -⟩ := List.getElem?_eq_some_iff.1 hv
  have hfront : ∀ u ∈ vs.take i, (ws.take j).contains u = true := by
    intro u hu
    rw [← hvs.filter_lt hv BEq.rfl] at hu
    obtain ⟨humem, huv⟩ := List.mem_filter.1 hu
    rw [← hws.filter_lt hw hvw, contains_filter fun x y hxy => by rw [cmp_congr hxy BEq.rfl],
      huv, h u humem, Bool.and_self]
  have hdistinct := hvs.pairwise_ne.sublist (List.take_sublist i vs)
  calc i = (vs.take i).length := (List.length_take_of_le hi.le).symm
    _ ≤ (ws.take j).length := length_le_of_contains hdistinct hfront
    _ ≤ j := List.length_take_le j ws

namespace Mapping

/-- Codes of ascending categories compare as the values do. -/
theorem Sound.lt_iff_of_ascends (h : m.Sound) (hl : m.length < 2 ^ 63)
    (hasc : Value.Ascends m.categories) (hv : m.codeOf v = some a) (hw : m.codeOf w = some b) :
    a < b ↔ v.cmp w = .lt := by
  obtain ⟨i, v', hi, hvv, rfl⟩ := h.codeOf_eq_some_iff.1 hv
  obtain ⟨j, w', hj, hww, rfl⟩ := h.codeOf_eq_some_iff.1 hw
  rw [Int64.lt_iff_toInt_lt, (h.codeOf_getElem? hl hi hvv).2, (h.codeOf_getElem? hl hj hww).2,
    Value.cmp_congr hvv hww, hasc.cmp_getElem? hi hj, Nat.compare_eq_lt, Int.ofNat_lt]

/-- The codes that `k` has for some values are those of `m`, spread: each of the values has a code
in both, they compare in one as in the other, and none is below its code in `m`. -/
structure Spreads (k m : Mapping) (vs : List Value) : Prop where
  lt_iff : ∀ v ∈ vs, ∀ w ∈ vs, v.isNull = false → w.isNull = false → ∃ a b a' b' : Int64,
    m.codeOf v = some a ∧ m.codeOf w = some b ∧ k.codeOf v = some a' ∧ k.codeOf w = some b' ∧
      (a' < b' ↔ a < b)
  le : ∀ v ∈ vs, v.isNull = false → ∃ a a' : Int64,
    m.codeOf v = some a ∧ k.codeOf v = some a' ∧ a ≤ a'

/-- What a mapping with more categories does to the codes if both lists of categories ascend. -/
theorem spreads_of_ascends (hm : m.Sound) (hk : k.Sound) (hl : k.length < 2 ^ 63)
    (hmasc : Value.Ascends m.categories) (hkasc : Value.Ascends k.categories)
    (hsub : ∀ v ∈ m.categories, k.categories.contains v = true)
    (hvs : ∀ v ∈ vs, v.isNull = false → m.categories.contains v = true) : k.Spreads m vs := by
  have hlm : m.length < 2 ^ 63 :=
    (Value.length_le_of_contains hmasc.pairwise_ne hsub).trans_lt hl
  have hcode : ∀ v ∈ vs, v.isNull = false → ∃ a a' : Int64,
      m.codeOf v = some a ∧ k.codeOf v = some a' ∧ a ≤ a' := by
    intro v hv hn
    obtain ⟨w, hw, hvw⟩ := List.contains_iff_exists_mem_beq.1 (hvs v hv hn)
    obtain ⟨x, hx, hwx⟩ := List.contains_iff_exists_mem_beq.1 (hsub w hw)
    obtain ⟨i, hi⟩ := List.mem_iff_getElem?.1 hw
    obtain ⟨j, hj⟩ := List.mem_iff_getElem?.1 hx
    obtain ⟨ha, htoInt⟩ := hm.codeOf_getElem? hlm hi hvw
    obtain ⟨ha', htoInt'⟩ := hk.codeOf_getElem? hl hj (BEq.trans hvw hwx)
    refine ⟨_, _, ha, ha', ?_⟩
    rw [Int64.le_iff_toInt_le, htoInt, htoInt', Int.ofNat_le]
    exact hmasc.index_le_of_contains hkasc hsub hi hj hwx
  refine ⟨fun v hv w hw hnv hnw => ?_, hcode⟩
  obtain ⟨a, a', ha, ha', -⟩ := hcode v hv hnv
  obtain ⟨b, b', hb, hb', -⟩ := hcode w hw hnw
  refine ⟨a, b, a', b', ha, hb, ha', hb', ?_⟩
  rw [hk.lt_iff_of_ascends hl hkasc ha' hb', hm.lt_iff_of_ascends hlm hmasc ha hb]

/-- The categories that a column is learned with are accepted as an order of it, and change
nothing. -/
theorem ordered_categories_of_sorted (hc : c.Canonical) (hvs : c.values = .ok vs)
    (hv : ∃ v ∈ vs, v.isNull = false) (hm : sorted c = .ok m) :
    ordered c m.categories = .ok m := by
  have hlearned := learned_of_sorted hc hm
  refine (ordered_eq_ok_iff hvs).2 ⟨⟨hv, ⟨hlearned.sound.not_null, fun v hmem => ?_,
    hlearned.sound.distinct⟩, fun v hmem hn => ?_⟩, ?_⟩
  · rw [hlearned.sound.columnType?_of_mem hmem, hlearned.type_eq]
  · exact List.contains_iff_exists_mem_beq.1 (hlearned.covers vs hvs v hmem hn)
  · obtain ⟨-, rfl⟩ := (sorted_eq_ok_iff hvs).1 hm
    rfl

end Mapping

/-- An encoder that is to follow orders but has none cannot be told from one that learns by
ascending values, by any calls: both answer the same, fail with the same errors and store the same
mappings, one call after the other. Of a column with a value, the categories in ascending order are
accepted as an order and give the mapping that they are from; and every accepted order that ascends
gives codes that compare as those of ascending values do and are not below them. -/
theorem Encoder.ordinal_agrees_with_label :
    (∀ (policy : OrderPolicy) (s : MappingStore) (ops : List Operation),
      trace ⟨.ordinal { policy := policy }, s⟩ ops = trace ⟨.label, s⟩ ops) ∧
    ∀ (c : Column) (vs : List Value), Reachable (.column c) → c.values = .ok vs →
      (∃ v ∈ vs, v.isNull = false) →
      ∃ m, Mapping.sorted c = .ok m ∧ Mapping.ordered c m.categories = .ok m ∧
        ∀ (order : List Value) (k : Mapping), Value.Ascends order → order.length < 2 ^ 63 →
          Mapping.ordered c order = .ok k → k.Spreads m vs := by
  refine ⟨fun policy s ops => trace_congr ⟨.label, s⟩ (Rule.learn_ordinal_default policy) ops, ?_⟩
  intro c vs hc hvs hv
  have hcan : c.Canonical := hc.sound
  obtain ⟨m, hm⟩ := Mapping.exists_sorted hvs hv
  have hlearned := Mapping.learned_of_sorted hcan hm
  have hobserved := Mapping.categories_of_sorted hvs hm
  refine ⟨m, hm, Mapping.ordered_categories_of_sorted hcan hvs hv hm, ?_⟩
  intro order k horder hl hk
  obtain ⟨⟨-, -, hcovers⟩, rfl⟩ := (Mapping.ordered_eq_ok_iff hvs).1 hk
  refine Mapping.spreads_of_ascends hlearned.sound (Mapping.learned_of_ordered hcan hk).sound hl
    (hobserved ▸ Value.ascends_ascending _) horder (fun v hmem => ?_) (hlearned.covers vs hvs)
  -- a category is a value of the column, so the order covers it
  obtain ⟨hn, hlast⟩ := (Mapping.mem_categories_iff_of_sorted hvs hm).1 hmem
  exact List.contains_iff_exists_mem_beq.2 (hcovers v hlast.mem hn)

/-- An order that names two values more, one of them before all others. -/
theorem Encoder.ordinal_agrees_with_label_scores : ∃ t c vs m k,
    Table.ofFrame .scores = .ok t ∧ t.column "score" = .ok c ∧ c.values = .ok vs ∧
    Mapping.sorted c = .ok m ∧
    Mapping.ordered c [.integer 3, .integer 7, .integer 8, .integer 9] = .ok k ∧
    m.codeOf (.integer 9) = some 1 ∧ k.codeOf (.integer 9) = some 3 ∧ k.Spreads m vs ∧
      trace ⟨.ordinal { policy := .firstColumnOnly }, .empty⟩ [.fit t "score"] =
        trace ⟨.label, .empty⟩ [.fit t "score"] := by
  obtain ⟨t, c, m, k, ht, hc, hvs, hm, hk, hcode, hcode'⟩ : ∃ t c m k,
      Table.ofFrame .scores = .ok t ∧ t.column "score" = .ok c ∧
      c.values = .ok [.integer 7, .integer 9, .null] ∧ Mapping.sorted c = .ok m ∧
      Mapping.ordered c [.integer 3, .integer 7, .integer 8, .integer 9] = .ok k ∧
      m.codeOf (.integer 9) = some 1 ∧ k.codeOf (.integer 9) = some 3 :=
    ⟨_, _, _, _, rfl, rfl, rfl, rfl, rfl, rfl, rfl⟩
  obtain ⟨htrace, hspread⟩ := ordinal_agrees_with_label
  obtain ⟨m', hm', -, hspread⟩ := hspread c _ (.column (.ofFrame ht) hc) hvs
    ⟨.integer 7, List.mem_cons_self, rfl⟩
  obtain rfl : m = m' := Except.ok.inj (hm.symm.trans hm')
  have hasc : Value.Ascends [.integer 3, .integer 7, .integer 8, .integer 9] := by
    unfold Value.Ascends
    decide
  exact ⟨t, c, _, m, k, ht, hc, hvs, hm, hk, hcode, hcode', hspread _ k hasc (by decide) hk,
    htrace .firstColumnOnly .empty [.fit t "score"]⟩

end Tabula
