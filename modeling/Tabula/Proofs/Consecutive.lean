import Tabula.Proofs.Codes
import Tabula.Proofs.Failures
import Tabula.Proofs.Representatives

/-!
# Columns of consecutive integers

The codes of a column that is learned by ascending values are the integers from zero on, none of
them left out. So they are a column of consecutive integers, and what is learned from such a column
is its own list of integers: a code stands for itself.

* `Value.integers` — consecutive integers.
* `Value.CountsFrom` — lists of values that hold all of some consecutive integers, and no others.
* `Mapping.consecutive` — what is learned from a column of consecutive integers.
* `Encoder.transform_twice` — codes are encoded again only if they are what the column held before.
-/

namespace Tabula

variable {c d : Column} {m : Mapping} {v w : Value} {vs ws : List Value} {a i k : Nat}
  {name : String}

theorem Integer64.eq_ofNat_of_toInt_eq {code : Int64} (h : code.toInt = i) :
    code = Int64.ofNat i := by
  rw [← Int64.ofInt_toInt code, h, Int64.ofInt_eq_ofNat]

namespace Value

/-! ### Consecutive integers -/

/-- The `k` integers from `a` on, as values. -/
def integers (a k : Nat) : List Value := (List.range' a k).map fun i => .integer (Int64.ofNat i)

theorem length_integers : (integers a k).length = k := by
  rw [integers, List.length_map, List.length_range']

theorem mem_integers_iff :
    v ∈ integers a k ↔ ∃ i, a ≤ i ∧ i < a + k ∧ v = .integer (Int64.ofNat i) := by
  simp only [integers, List.mem_map, List.mem_range'_1, and_assoc, eq_comm]

theorem getElem?_integers (hi : i < k) :
    (integers a k)[i]? = some (.integer (Int64.ofNat (a + i))) := by
  rw [integers, List.getElem?_map, List.getElem?_range' hi, Nat.one_mul, Option.map_some]

/-- Consecutive integers that do not leave the range of words ascend. -/
theorem ascends_integers (h : a + k ≤ 2 ^ 63) : Ascends (integers a k) := by
  refine List.pairwise_map.2 (List.Pairwise.imp_of_mem (fun {i j} _ hj hij => ?_)
    List.pairwise_lt_range')
  have hj63 : j < 2 ^ 63 := (List.mem_range'_1.1 hj).2.trans_le h
  refine Std.compare_eq_lt.2 (Int64.lt_iff_toInt_lt.2 ?_)
  rwa [Int64.toInt_ofNat_of_lt (hij.trans hj63), Int64.toInt_ofNat_of_lt hj63, Int.ofNat_lt]

/-- What a consecutive integer equals is this integer. -/
theorem eq_of_mem_integers (hv : v ∈ integers a k) (h : (v == w) = true) : v = w := by
  obtain ⟨i, -, -, rfl⟩ := mem_integers_iff.1 hv
  exact eq_of_beq_of_not_folded h rfl

/-- Among integers, being equal to one of them is being one of them. -/
theorem contains_integers_iff : (integers a k).contains v = true ↔ v ∈ integers a k := by
  rw [List.contains_iff_exists_mem_beq]
  constructor
  · rintro ⟨w, hw, hvw⟩
    rwa [← eq_of_mem_integers hw (BEq.symm hvw)]
  · exact fun hv => ⟨v, hv, BEq.rfl⟩

/-- An ascending list that holds the values of consecutive integers is the list of them. -/
theorem Ascends.eq_integers (hvs : Ascends vs) (h : a + k ≤ 2 ^ 63)
    (heq : ∀ v, (integers a k).contains v = vs.contains v) : vs = integers a k := by
  have hrel := (ascends_integers h).forall₂_of_contains hvs heq
  have hsame : List.Forall₂ Eq (integers a k) vs :=
    forall₂_imp_of_mem hrel fun v hv w hvw => eq_of_mem_integers hv hvw
  rw [List.forall₂_eq_eq_eq] at hsame
  exact hsame.symm

/-- Values of which no two are equal, all in a list that is not longer, are all of that list. -/
theorem contains_of_length_le (hvs : vs.Pairwise fun v w => (v == w) = false)
    (h : ∀ v ∈ vs, ws.contains v = true) (hlength : ws.length ≤ vs.length) (hw : w ∈ ws) :
    vs.contains w = true := by
  by_contra hne
  have hfresh : ∀ v ∈ vs, (w == v) = false := by
    intro v hv
    by_contra hwv
    rw [Bool.not_eq_false] at hwv
    exact hne (List.contains_iff_exists_mem_beq.2 ⟨v, hv, hwv⟩)
  -- with one more there are too many of them
  have hmore : (w :: vs).length ≤ ws.length :=
    length_le_of_contains (List.pairwise_cons.2 ⟨hfresh, hvs⟩)
      (List.forall_mem_cons.2 ⟨List.contains_iff_exists_mem_beq.2 ⟨w, hw, BEq.rfl⟩, h⟩)
  rw [List.length_cons] at hmore
  omega

/-- The values of a list, empty cells aside, are exactly the `k` integers from `a` on. -/
def CountsFrom (a k : Nat) (vs : List Value) : Prop :=
  ∀ v, v ∈ vs ∧ v.isNull = false ↔ v ∈ integers a k

/-- What a cell of such a list holds. -/
theorem CountsFrom.cases (h : CountsFrom a k vs) (hv : v ∈ vs) :
    v = .null ∨ ∃ i < k, v = .integer (Int64.ofNat (a + i)) := by
  cases hn : v.isNull with
  | true =>
    cases v with
    | null => exact .inl rfl
    | _ => cases hn
  | false =>
    obtain ⟨j, haj, hjk, rfl⟩ := mem_integers_iff.1 ((h v).1 ⟨hv, hn⟩)
    exact .inr ⟨j - a, by omega, by rw [Nat.add_sub_cancel' haj]⟩

/-- Of such a list the distinct values in ascending order are these integers, and of no other. -/
theorem countsFrom_iff_observed (h : a + k ≤ 2 ^ 63) :
    CountsFrom a k vs ↔ observed vs = integers a k := by
  constructor
  · intro hcounts
    -- both lists ascend, so they are equal if they hold the same values
    refine (ascends_ascending _).eq_integers h fun v => ?_
    rw [Bool.eq_iff_iff, contains_integers_iff, ← observed, contains_observed, Bool.and_eq_true,
      Bool.not_eq_true', List.contains_iff_exists_mem_beq]
    constructor
    · intro hv
      obtain ⟨hmem, hn⟩ := (hcounts v).2 hv
      exact ⟨hn, v, hmem, BEq.rfl⟩
    · rintro ⟨hn, w, hw, hvw⟩
      have hwi := (hcounts w).1 ⟨hw, by rw [← isNull_eq_of_beq hvw, hn]⟩
      rwa [← eq_of_mem_integers hwi (BEq.symm hvw)]
  · intro hobserved v
    constructor
    · rintro ⟨hv, hn⟩
      rw [← contains_integers_iff, ← hobserved, contains_observed, hn, Bool.not_false,
        Bool.true_and]
      exact List.contains_iff_exists_mem_beq.2 ⟨v, hv, BEq.rfl⟩
    · rw [← hobserved, mem_observed_iff]
      rintro ⟨hn, hlast⟩
      exact ⟨hlast.mem, hn⟩

/-- A list in ascending order with all of the integers, and not more values, is the list of them. -/
theorem Ascends.eq_integers_of_contains (hvs : Ascends vs) (h : a + k ≤ 2 ^ 63)
    (hlength : vs.length = k) (hall : ∀ v ∈ integers a k, vs.contains v = true) :
    vs = integers a k := by
  refine hvs.eq_integers h fun v => ?_
  rw [Bool.eq_iff_iff, contains_integers_iff]
  constructor
  · exact hall v
  · intro hv
    obtain ⟨w, hw, hvw⟩ := List.contains_iff_exists_mem_beq.1 hv
    -- as many values as integers, and equal ones for all of these: there is no room for another
    have hle : vs.length ≤ (integers a k).length := by rw [hlength, length_integers]
    have hwi := contains_integers_iff.1
      (contains_of_length_le (ascends_integers h).pairwise_ne hall hle hw)
    rwa [← eq_of_mem_integers hwi (BEq.symm hvw)]

/-- Ranks count from zero. -/
theorem Ranked.countsFrom (h : Ranked vs ws) :
    CountsFrom 0 (countDistinct (vs.filter fun v => !v.isNull)) ws := by
  intro w
  rw [mem_integers_iff, Nat.zero_add]
  constructor
  · rintro ⟨hw, hn⟩
    -- a code is one of the ranks, and every rank occurs
    obtain ⟨v, -, ⟨-, rfl⟩ | ⟨-, code, rfl, htoInt⟩⟩ := forall₂_exists_left h.cells hw
    · cases hn
    · obtain ⟨-, hlt⟩ := (h.dense code.toInt).1 ⟨code, hw, rfl⟩
      rw [htoInt, Int.ofNat_lt] at hlt
      exact ⟨_, Nat.zero_le _, hlt, congrArg Value.integer (Integer64.eq_ofNat_of_toInt_eq htoInt)⟩
  · rintro ⟨i, -, hi, rfl⟩
    obtain ⟨code, hcode, htoInt⟩ := (h.dense i).2 ⟨Int.natCast_nonneg i, Int.ofNat_lt.2 hi⟩
    rw [Integer64.eq_ofNat_of_toInt_eq htoInt] at hcode
    exact ⟨hcode, rfl⟩

end Value

namespace Mapping

/-! ### What is learned from consecutive integers -/

/-- The mapping that takes each of the `k` integers from `a` on to its distance from `a`. -/
def consecutive (a k : Nat) : Mapping := ofCategories .integer (Value.integers a k)

theorem length_consecutive : (consecutive a k).length = k := Value.length_integers

/-- Consecutive integers are fit to be the categories of a mapping. -/
theorem sound_consecutive (hk : 0 < k) (h : a + k ≤ 2 ^ 63) : (consecutive a k).Sound where
  nonempty := List.ne_nil_of_length_pos (Value.length_integers.trans_gt hk)
  not_null := fun v hv => by
    obtain ⟨i, -, -, rfl⟩ := Value.mem_integers_iff.1 hv
    rfl
  accepts := fun v hv => by
    obtain ⟨i, -, -, rfl⟩ := Value.mem_integers_iff.1 hv
    rfl
  distinct := (Value.ascends_integers h).pairwise_ne
  codes_eq := rfl

/-- What is learned from a column is consecutive integers exactly if the column holds these. -/
theorem sorted_eq_consecutive_iff (hvs : c.values = .ok vs) (hk : 0 < k) (h : a + k ≤ 2 ^ 63) :
    sorted c = .ok (consecutive a k) ↔ c.type = .integer ∧ Value.CountsFrom a k vs := by
  rw [sorted_eq_ok_iff hvs, Value.countsFrom_iff_observed h]
  constructor
  · rintro ⟨-, hm⟩
    exact ⟨congrArg Mapping.type hm, congrArg Mapping.categories hm⟩
  · rintro ⟨htype, hobserved⟩
    rw [htype, hobserved]
    exact ⟨(sound_consecutive hk h).nonempty, rfl⟩

/-- Such a mapping counts from the first of its categories. -/
theorem encodeCell_consecutive (hk : a + k ≤ 2 ^ 63) (hi : i < k) :
    (consecutive a k).encodeCell name (.integer (Int64.ofNat (a + i))) =
      .ok (.integer (Int64.ofNat i)) := by
  have hcode : (consecutive a k).codeOf (.integer (Int64.ofNat (a + i))) = some (Int64.ofNat i) :=
    ((sound_consecutive (Nat.zero_lt_of_lt hi) hk).codeOf_eq_some_iff).2
      ⟨i, _, Value.getElem?_integers hi, BEq.rfl, rfl⟩
  exact encodeCell_eq_ok_iff.2 (.inr ⟨rfl, _, hcode, rfl⟩)

/-- Back from a code it counts in the same way. -/
theorem decodeCell_consecutive (hk : a + k ≤ 2 ^ 63) (hi : i < k) :
    (consecutive a k).decodeCell name (.integer (Int64.ofNat i)) =
      .ok (.integer (Int64.ofNat (a + i))) := by
  have hcategory : (consecutive a k).categoryOf (Int64.ofNat i) =
      some (.integer (Int64.ofNat (a + i))) := by
    rw [categoryOf_ofNat (by omega)]
    exact Value.getElem?_integers hi
  simp only [decodeCell, Value.isNull, codeIn, Option.bind_some, hcategory, Bool.false_eq_true,
    if_false]

/-- Consecutive integers from zero on stand for themselves, as values and as codes. -/
theorem encode_consecutive_self (hc : c.Canonical) (ht : c.type = .integer)
    (hvs : c.values = .ok vs) (hk : k ≤ 2 ^ 63) (h : Value.CountsFrom 0 k vs) :
    (consecutive 0 k).encode c = .ok c ∧ (consecutive 0 k).decode c = .ok c := by
  have hk0 : 0 + k ≤ 2 ^ 63 := by rwa [Nat.zero_add]
  rw [encode_eq_ok_iff hvs, decode_eq_ok_iff hvs]
  refine ⟨⟨hc, rfl, ht, vs, hvs, List.forall₂_same.2 fun v hv => ?_⟩,
    ⟨hc, rfl, ht, vs, hvs, List.forall₂_same.2 fun v hv => ?_⟩⟩
  · -- a cell is null or one of the integers counted from zero
    obtain rfl | ⟨i, hi, rfl⟩ := h.cases hv
    · rfl
    · rw [encodeCell_consecutive hk0 hi, Nat.zero_add]
  · obtain rfl | ⟨i, hi, rfl⟩ := h.cases hv
    · rfl
    · rw [Nat.zero_add, decodeCell_consecutive hk0 hi, Nat.zero_add]

/-- Learning by ascending values gives as many codes as there are values not equal to each other. -/
theorem length_of_sorted (hvs : c.values = .ok vs) (hm : sorted c = .ok m) :
    m.length = Value.countDistinct (vs.filter fun v => !v.isNull) := by
  rw [length, categories_of_sorted hvs hm, Value.length_observed]

/-- There is at least one of them, as a column without values is not learned. -/
theorem length_pos_of_sorted (hc : c.Canonical) (hm : sorted c = .ok m) : 0 < m.length :=
  List.length_pos_of_ne_nil (learned_of_sorted hc hm).sound.nonempty

/-- No more codes are learned than a column has cells. -/
theorem length_le_of_sorted (hvs : c.values = .ok vs) (hm : sorted c = .ok m) :
    m.length ≤ c.length := by
  rw [length, categories_of_sorted hvs hm]
  exact Value.length_observed_le.trans_eq (Series.values_spec hvs).2.1

/-- The codes of a column count from zero. -/
theorem countsFrom_of_encode (hc : c.Canonical) (hl : c.length < 2 ^ 63) (hm : sorted c = .ok m)
    (hd : m.encode c = .ok d) : d.Canonical ∧ d.name = c.name ∧ d.type = .integer ∧
      ∃ ws, d.values = .ok ws ∧ Value.CountsFrom 0 m.length ws := by
  obtain ⟨vs, hvs, hlength, -⟩ := hc.exists_values
  obtain ⟨hdc, hdn, hdt, -⟩ := encode_spec hd hvs
  obtain ⟨ws, hws, hranked⟩ := ranked_of_encode hc hm hvs (hlength.trans_lt hl) hd
  exact ⟨hdc, hdn, hdt, ws, hws, length_of_sorted hvs hm ▸ hranked.countsFrom⟩

/-- What is learned from codes takes each of them to itself. -/
theorem sorted_of_encode (hc : c.Canonical) (hl : c.length < 2 ^ 63) (hm : sorted c = .ok m)
    (hd : m.encode c = .ok d) : sorted d = .ok (consecutive 0 m.length) ∧
      (consecutive 0 m.length).encode d = .ok d ∧ (consecutive 0 m.length).decode d = .ok d := by
  obtain ⟨vs, hvs, -⟩ := hc.exists_values
  obtain ⟨hdc, -, hdt, ws, hws, hcounts⟩ := countsFrom_of_encode hc hl hm hd
  have hk : m.length ≤ 2 ^ 63 := ((length_le_of_sorted hvs hm).trans_lt hl).le
  refine ⟨(sorted_eq_consecutive_iff hws (length_pos_of_sorted hc hm) ?_).2 ⟨hdt, hcounts⟩,
    encode_consecutive_self hdc hdt hws hk hcounts⟩
  rwa [Nat.zero_add]

/-- What is encoded is among the categories. -/
theorem Sound.contains_of_encode (h : m.Sound) (hvs : c.values = .ok vs) (hd : m.encode c = .ok d)
    (hv : v ∈ vs) (hn : v.isNull = false) : m.categories.contains v = true := by
  obtain ⟨-, -, -, ws, -, hcells⟩ := encode_spec hd hvs
  obtain ⟨w, -, hvw⟩ := forall₂_exists_right hcells hv
  obtain ⟨hnull, -⟩ | ⟨-, code, hcode, -⟩ := encodeCell_eq_ok_iff.1 hvw
  · rw [hn] at hnull
    cases hnull
  · exact h.exists_codeOf_iff.1 ⟨code, hcode⟩

/-- The codes of a column can be encoded once more only if the column held them already. As many
categories as there are codes can hold all the codes only if they are the codes. -/
theorem exists_encode_codes_iff (hc : c.Canonical) (hl : c.length < 2 ^ 63)
    (hm : sorted c = .ok m) (hd : m.encode c = .ok d) :
    (∃ b, m.encode d = .ok b) ↔ m = consecutive 0 m.length := by
  constructor
  · rintro ⟨b, hb⟩
    obtain ⟨vs, hvs, -⟩ := hc.exists_values
    obtain ⟨-, -, -, ws, hws, hcounts⟩ := countsFrom_of_encode hc hl hm hd
    have hsound := (learned_of_sorted hc hm).sound
    have hpos := length_pos_of_sorted hc hm
    have hk : 0 + m.length ≤ 2 ^ 63 := by
      rw [Nat.zero_add]
      exact ((length_le_of_sorted hvs hm).trans_lt hl).le
    have hasc : Value.Ascends m.categories :=
      categories_of_sorted hvs hm ▸ Value.ascends_ascending _
    -- the codes are all integers from zero on, and each of them equals a category
    have hcategories : m.categories = Value.integers 0 m.length := by
      refine hasc.eq_integers_of_contains hk rfl fun v hv => ?_
      obtain ⟨hmem, hn⟩ := (hcounts v).2 hv
      exact hsound.contains_of_encode hws hb hmem hn
    -- the first category tells the type
    have htype : m.type = .integer := by
      have hfirst : .integer (Int64.ofNat (0 + 0)) ∈ m.categories := by
        rw [hcategories]
        exact List.mem_of_getElem? (Value.getElem?_integers hpos)
      exact (Option.some.inj (hsound.columnType?_of_mem hfirst)).symm
    obtain ⟨-, hof⟩ := (sorted_eq_ok_iff hvs).1 hm
    calc m = ofCategories c.type (Value.observed vs) := hof.symm
      _ = ofCategories m.type m.categories := by rw [← hof]; rfl
      _ = consecutive 0 m.length := by rw [htype, hcategories, consecutive]
  · -- the codes of the codes are the codes
    intro hself
    obtain ⟨-, henc, -⟩ := sorted_of_encode hc hl hm hd
    exact ⟨d, hself ▸ henc⟩

/-- Either a column holds its codes already, or one of its codes is no category. -/
theorem encode_codes_cases (hc : c.Canonical) (hl : c.length < 2 ^ 63) (hvs : c.values = .ok vs)
    (hm : sorted c = .ok m) (hd : m.encode c = .ok d) :
    (c.type = .integer ∧ Value.CountsFrom 0 m.length vs) ∧ d = c ∨
      ¬(c.type = .integer ∧ Value.CountsFrom 0 m.length vs) ∧
        ∃ v, m.encode d = .error (.unknownCategory c.name (Value.display v)) := by
  have hk : m.length ≤ 2 ^ 63 := ((length_le_of_sorted hvs hm).trans_lt hl).le
  have hself : m = consecutive 0 m.length ↔ c.type = .integer ∧ Value.CountsFrom 0 m.length vs := by
    rw [← sorted_eq_consecutive_iff hvs (length_pos_of_sorted hc hm) (by rwa [Nat.zero_add]), hm,
      Except.ok.injEq]
  rw [← hself]
  -- the mapping counts from zero, or one of the codes is no category of it
  by_cases heq : m = consecutive 0 m.length
  · refine .inl ⟨heq, ?_⟩
    obtain ⟨htype, hcounts⟩ := hself.1 heq
    obtain ⟨henc, -⟩ := encode_consecutive_self hc htype hvs hk hcounts
    rw [heq, henc] at hd
    exact (Except.ok.inj hd).symm
  · refine .inr ⟨heq, ?_⟩
    obtain ⟨-, hdn, -, ws, hws, -⟩ := countsFrom_of_encode hc hl hm hd
    cases hunknown : unknown? (fun v => (m.codeOf v).map .integer) ws with
    | some v => exact ⟨v, hdn ▸ recodes_encode.unknown m d ws v hws hunknown⟩
    | none =>
      obtain ⟨b, hb, -⟩ := recodes_encode.known m d ws (learned_of_sorted hc hm).sound hws hunknown
      exact absurd ((exists_encode_codes_iff hc hl hm hd).1 ⟨b, hb⟩) heq

end Mapping

namespace Encoder

variable {e e' : Encoder} {t : Table}

/-- After a column was learned and encoded, its codes are encoded once more by the same mapping only
if they are what the column held before, and then nothing has changed at all. Otherwise one of them
is no category, and the call fails. The rows are few enough for their number to be a code, as those
of every table in a memory are. -/
theorem transform_twice (he : e.rule = .label) (ht : Reachable (.table t))
    (hrows : t.rowCount < 2 ^ 63) (hf : (fit t name).run.run e = (.ok (), e')) :
    ∃ c vs u, t.column name = .ok c ∧ c.values = .ok vs ∧ e'.transform t name = .ok u ∧
      ((∃ w, e'.transform u name = .ok w) ↔ c.type = .integer ∧
        Value.CountsFrom 0 (Value.countDistinct (vs.filter fun v => !v.isNull)) vs) ∧
      ((∃ w, e'.transform u name = .ok w) →
        u = t ∧ (u == t) = true ∧ e'.transform u name = .ok t) ∧
      ((¬∃ w, e'.transform u name = .ok w) → ∃ value,
        (Operation.transform u name).run e' = (.error (.unknownCategory name value), e')) := by
  obtain ⟨n, cs, hh⟩ := ht.sound
  obtain ⟨c, m, hc, hm, rfl⟩ := exists_learn_of_fit hf
  obtain ⟨hmem, rfl⟩ := hh.column_eq_ok_iff.1 hc
  rw [he] at hm
  have hm : Mapping.sorted c = .ok m := hm
  have hcan : c.Canonical := hh.canonical c hmem
  obtain ⟨vs, hvs, -⟩ := hcan.exists_values
  have hl : c.length < 2 ^ 63 := by rwa [hh.length_eq c hmem, ← hh.rowCount_eq]
  have hget : (e.mappings.insert c.name m).get? c.name = some m := by
    rw [MappingStore.get?_insert, if_pos rfl]
  obtain ⟨d, u, hd, hdn, hu, huh⟩ := hh.exists_encoded hmem (Mapping.learned_of_sorted hcan hm)
  have hcol : u.column c.name = .ok d := hdn ▸ huh.column_replaced hmem hdn.symm
  have hfirst : transform { e with mappings := e.mappings.insert c.name m } t c.name = .ok u := by
    rw [transform_of_column hc hget, hd, ok_bind, hu]
  have hsecond : transform { e with mappings := e.mappings.insert c.name m } u c.name =
      m.encode d >>= u.replace := transform_of_column hcol hget
  refine ⟨c, vs, u, hc, hvs, hfirst, ?_⟩
  rw [← Mapping.length_of_sorted hvs hm, Operation.run_transform]
  obtain ⟨hcounts, rfl⟩ | ⟨hcounts, v, hunknown⟩ := Mapping.encode_codes_cases hcan hl hvs hm hd
  · -- the column held its codes, so neither call changes anything
    obtain rfl : u = t := Except.ok.inj (hu.symm.trans (hh.replace_self hmem))
    exact ⟨iff_of_true ⟨u, hfirst⟩ hcounts, fun _ => ⟨rfl, hh.beq_self, hfirst⟩,
      fun hfail => absurd ⟨u, hfirst⟩ hfail⟩
  · -- some code is no category, and the second call fails there
    rw [hunknown, error_bind] at hsecond
    have hfail : ¬∃ w, transform { e with mappings := e.mappings.insert c.name m } u c.name =
        .ok w := by
      rw [hsecond]
      rintro ⟨w, hw⟩
      cases hw
    exact ⟨iff_of_false hfail hcounts, fun h => absurd h hfail, fun _ => ⟨_, by rw [hsecond]; rfl⟩⟩

/-- The codes of two scores cannot be encoded again, as the scores are no codes. -/
theorem transform_twice_scores : ∃ t e c vs u value, Table.ofFrame .scores = .ok t ∧
    (fit t "score").run.run (ofRule .label) = (.ok (), e) ∧ t.column "score" = .ok c ∧
    c.values = .ok vs ∧ e.transform t "score" = .ok u ∧
    ¬(c.type = .integer ∧
      Value.CountsFrom 0 (Value.countDistinct (vs.filter fun v => !v.isNull)) vs) ∧
    (Operation.transform u "score").run e = (.error (.unknownCategory "score" value), e) := by
  obtain ⟨t, e, u, err, ht, hf, hfirst, hsecond⟩ : ∃ t e u err, Table.ofFrame .scores = .ok t ∧
      (fit t "score").run.run (ofRule .label) = (.ok (), e) ∧ e.transform t "score" = .ok u ∧
      e.transform u "score" = .error err := ⟨_, _, _, _, rfl, rfl, rfl, rfl⟩
  obtain ⟨c, vs, u', hc, hvs, hu', hiff, -, hfails⟩ :=
    transform_twice rfl (.ofFrame ht) (by cases ht; decide) hf
  obtain rfl : u = u' := Except.ok.inj (hfirst.symm.trans hu')
  have hfail : ¬∃ w, e.transform u "score" = .ok w := by
    rintro ⟨w, hw⟩
    cases hsecond.symm.trans hw
  obtain ⟨value, hvalue⟩ := hfails hfail
  exact ⟨t, e, c, vs, u, value, ht, hf, hc, hvs, hfirst, fun h => hfail (hiff.2 h), hvalue⟩

end Encoder

end Tabula
