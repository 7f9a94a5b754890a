import Tabula.Proofs.Numeric
import Tabula.Proofs.Reachable

/-!
# Codes

A code is a position in the list of categories, written as a machine word. As long as the positions
fit into words, codes and categories stand for each other one to one. A cell can be decoded if it is
the number of a position, which a floating-point number can be too; what it is worth decides, not
how it is stored.

* `Binary64.integer?_eq_some_iff` — the integer that a floating-point number is, is its exact value.
* `Value.IsNumber` — the integer that a value is worth; `Value.NeverCode` — what is no position.
* `Mapping.Bijective` — codes and categories stand for each other, by the list and by the registry.
* `Mapping.bijective_of_reachable` — so they do in every mapping that can be reached.
* `Mapping.Decoded`, `Column.NumbersOf` — a column of categories, and the numbers behind them.
* `Mapping.decode_exactly_positions` — a column can be decoded exactly if its values are worth
  positions, and encoding gives the positions back.
-/

namespace Tabula

/-! ### Words and numbers -/

/-- Within the range of words a clamped integer is the integer, and outside it is an end of the
range. -/
theorem Integer64.toInt_clamp (i : Int) :
    (clamp i).toInt = max (-2 ^ 63) (min i (2 ^ 63 - 1)) := by
  have hmin : Int64.minValue.toInt = -2 ^ 63 := rfl
  have hmax : Int64.maxValue.toInt = 2 ^ 63 - 1 := rfl
  rw [clamp, hmin, hmax]
  exact Int64.toInt_ofInt_of_le (by omega) (by omega)

namespace Binary64

variable {x : Binary64} {k : Int}

/-- Neither of the infinities is a real number. -/
theorem toEReal_ne_coe_of_not_isFinite (h : x.isFinite = false) (r : ℝ) : x.toEReal ≠ r := by
  rw [toEReal_of_not_isFinite h]
  split
  · exact EReal.bot_ne_coe r
  · exact EReal.top_ne_coe r

/-- The integer that a floating-point number is, is its exact value. -/
theorem integer?_eq_some_iff : x.integer? = some k ↔ x.toEReal = ((k : ℝ) : EReal) := by
  cases hf : x.isFinite with
  | false =>
    have hnone : x.integer? = none := by
      rw [integer?, hf, Bool.false_and]
      exact if_neg Bool.false_ne_true
    rw [hnone]
    exact ⟨nofun, fun h => absurd h (toEReal_ne_coe_of_not_isFinite hf k)⟩
  | true =>
    have hpos : 0 < Grid.double.unitsPerOne := Grid.double.unitsPerOne_pos
    have hreal : (Grid.double.unitsPerOne : ℝ) ≠ 0 := Nat.cast_ne_zero.2 hpos.ne'
    have hint : (Grid.double.unitsPerOne : Int) ≠ 0 := Int.natCast_ne_zero.2 hpos.ne'
    -- the value is an integer if the units of one go into its units without a remainder
    have hvalue : x.toEReal = ((k : ℝ) : EReal) ↔ x.units = k * Grid.double.unitsPerOne := by
      rw [toEReal_of_isFinite hf, EReal.coe_eq_coe_iff, div_eq_iff hreal]
      exact_mod_cast Iff.rfl
    rw [hvalue, integer?, hf, Bool.true_and]
    constructor
    · intro h
      split at h
      · next hr =>
        rw [← Option.some.inj h, mul_comm]
        exact (Int.mul_ediv_cancel' (Int.dvd_of_emod_eq_zero (beq_iff_eq.1 hr))).symm
      · cases h
    · intro h
      rw [h, Int.mul_emod_left, if_pos (beq_self_eq_true _), Int.mul_ediv_cancel _ hint]

end Binary64

namespace Value

variable {v : Value}

/-- The value is worth the integer: it is this integer, or a floating-point number of its exact
value. -/
def IsNumber (v : Value) (k : Int) : Prop :=
  match v with
  | .integer i => i.toInt = k
  | .float x => x.toEReal = ((k : ℝ) : EReal)
  | _ => False

/-- Values that are no code, whatever the categories are. -/
inductive NeverCode : Value → Prop
  | boolean (b : Bool) : NeverCode (.boolean b)
  | string (s : String) : NeverCode (.string s)
  | negative {i : Int64} : i.toInt < 0 → NeverCode (.integer i)
  /-- An infinity, or what is not a number. -/
  | notFinite {x : Binary64} : x.isFinite = false → NeverCode (.float x)
  | fraction {x : Binary64} : (∀ k : Int, x.toEReal ≠ ((k : ℝ) : EReal)) → NeverCode (.float x)
  | below {x : Binary64} : x.toEReal < 0 → NeverCode (.float x)
  /-- No word is worth as much. -/
  | beyond {x : Binary64} : ((2 ^ 63 : ℝ) : EReal) ≤ x.toEReal → NeverCode (.float x)

/-- What is no code is not worth a position. -/
theorem NeverCode.not_isNumber (h : v.NeverCode) {i : Nat} (hi : i < 2 ^ 63) :
    ¬v.IsNumber i := by
  intro hv
  -- one case for each reason: a value of another type, or a number outside the positions
  cases h with
  | boolean b => cases hv
  | string s => cases hv
  | negative hneg =>
    have hv : _ = (i : Int) := hv
    omega
  | notFinite hf => exact Binary64.toEReal_ne_coe_of_not_isFinite hf _ hv
  | fraction hfrac => exact hfrac i hv
  | below hneg =>
    rw [IsNumber] at hv
    rw [hv] at hneg
    have hneg : ((i : Int) : ℝ) < 0 := by exact_mod_cast hneg
    exact absurd hneg (by simp)
  | beyond hbig =>
    rw [IsNumber] at hv
    rw [hv, EReal.coe_le_coe_iff] at hbig
    have hbig : (2 ^ 63 : Int) ≤ i := by exact_mod_cast hbig
    omega

end Value

variable {m : Mapping} {b c d : Column} {v w : Value} {vs us : List Value} {name : String}
  {code : Int64}

namespace Mapping

/-! ### Codes and categories -/

/-- A code stands for the category at its position. -/
theorem categoryOf_eq_some_iff :
    m.categoryOf code = some w ↔ ∃ i : Nat, code.toInt = i ∧ m.categories[i]? = some w := by
  rw [categoryOf]
  split
  · next hcode =>
    obtain ⟨i, hi⟩ := Int.eq_ofNat_of_zero_le hcode
    simp [hi]
  · next hcode =>
    simp only [reduceCtorEq, false_iff]
    rintro ⟨i, hi, -⟩
    omega

namespace Sound

/-- The category at a position has the position as its code, as long as positions fit into words. -/
theorem codeOf_getElem? (h : m.Sound) (hl : m.length < 2 ^ 63) {i : Nat}
    (hi : m.categories[i]? = some w) (hvw : (v == w) = true) :
    m.codeOf v = some (Int64.ofNat i) ∧ (Int64.ofNat i).toInt = i :=
  ⟨h.codeOf_eq_some_iff.2 ⟨i, w, hi, hvw, rfl⟩,
    Int64.toInt_ofNat_of_lt ((List.getElem?_eq_some_iff.1 hi).1.trans hl)⟩

/-- The registry has a code for a value exactly if the list has an equal category there. -/
theorem codeOf_eq_some_iff_categoryOf (h : m.Sound) (hl : m.length < 2 ^ 63) :
    m.codeOf v = some code ↔ ∃ w, m.categoryOf code = some w ∧ (w == v) = true := by
  -- both are the same position of an equal category, once as a word and once as a number
  constructor
  · intro hcode
    obtain ⟨i, w, hi, hvw, rfl⟩ := h.codeOf_eq_some_iff.1 hcode
    obtain ⟨-, htoInt⟩ := h.codeOf_getElem? hl hi hvw
    exact ⟨w, categoryOf_eq_some_iff.2 ⟨i, htoInt, hi⟩, BEq.symm hvw⟩
  · rintro ⟨w, hw, hwv⟩
    obtain ⟨i, hi, hw⟩ := categoryOf_eq_some_iff.1 hw
    obtain ⟨hcode, htoInt⟩ := h.codeOf_getElem? hl hw (BEq.symm hwv)
    rw [hcode, Int64.toInt_inj.1 (htoInt.trans hi.symm)]

/-- The categories are of the type of the mapping. -/
theorem columnType?_of_mem (h : m.Sound) (hv : v ∈ m.categories) : v.columnType? = some m.type := by
  obtain hnull | ht := accepts_iff.1 (h.accepts v hv)
  · rw [h.not_null v hv] at hnull
    cases hnull
  · exact ht

/-- No two positions hold equal categories. -/
theorem beq_eq_false_of_ne (h : m.Sound) {i j : Nat} (hij : i ≠ j)
    (hv : m.categories[i]? = some v) (hw : m.categories[j]? = some w) : (v == w) = false := by
  obtain ⟨hi, rfl⟩ := List.getElem?_eq_some_iff.1 hv
  obtain ⟨hj, rfl⟩ := List.getElem?_eq_some_iff.1 hw
  have hlt := List.pairwise_iff_getElem.1 h.distinct
  obtain hij | hij := Nat.lt_or_gt_of_ne hij
  · exact hlt i j hi hj hij
  · rw [BEq.comm]
    exact hlt j i hj hi hij

end Sound

/-- A code that is no position stands for nothing. -/
theorem categoryOf_eq_none (h : code.toInt < 0 ∨ (m.length : Int) ≤ code.toInt) :
    m.categoryOf code = none := by
  rw [Option.eq_none_iff_forall_ne_some]
  intro w hw
  obtain ⟨i, hi, hw⟩ := categoryOf_eq_some_iff.1 hw
  have hlt : i < m.length := (List.getElem?_eq_some_iff.1 hw).1
  omega

/-- Codes and categories stand for each other one to one. -/
structure Bijective (m : Mapping) : Prop where
  nonempty : 1 ≤ m.length
  typed : ∀ v ∈ m.categories, v.isNull = false ∧ v.columnType? = some m.type
  distinct : ∀ (i j : Nat) (v w : Value), i ≠ j → m.categories[i]? = some v →
    m.categories[j]? = some w → (v == w) = false
  /-- A category has its position as its code, and the code leads back to it. -/
  position : ∀ (i : Nat) (v : Value), m.categories[i]? = some v →
    ∃ code : Int64, code.toInt = i ∧ m.codeOf v = some code ∧ m.categoryOf code = some v
  /-- The registry says of every value what the list says. -/
  codeOf_iff : ∀ (v : Value) (code : Int64), m.codeOf v = some code ↔
    ∃ (i : Nat) (w : Value), code.toInt = i ∧ m.categories[i]? = some w ∧ (w == v) = true
  /-- Equal values have the same code, or none. -/
  codeOf_congr : ∀ v w : Value, (v == w) = true → m.codeOf v = m.codeOf w
  absent : ∀ code : Int64, code.toInt < 0 ∨ (m.length : Int) ≤ code.toInt → m.categoryOf code = none

/-- In every mapping that can be reached, codes and categories stand for each other one to one. -/
theorem bijective_of_reachable (h : Reachable (.mapping m)) (hl : m.length < 2 ^ 63) :
    m.Bijective := by
  have hm : m.Sound := h.sound
  refine ⟨List.length_pos_iff.2 hm.nonempty, ?_, fun i j v w => hm.beq_eq_false_of_ne, ?_, ?_, ?_,
    fun code => categoryOf_eq_none⟩
  · exact fun v hv => ⟨hm.not_null v hv, hm.columnType?_of_mem hv⟩
  · -- a category has the code of its position, and this leads back to it
    intro i v hi
    obtain ⟨hcode, htoInt⟩ := hm.codeOf_getElem? hl hi BEq.rfl
    exact ⟨_, htoInt, hcode, categoryOf_eq_some_iff.2 ⟨i, htoInt, hi⟩⟩
  · intro v code
    rw [hm.codeOf_eq_some_iff_categoryOf hl]
    simp only [categoryOf_eq_some_iff]
    constructor
    · rintro ⟨w, ⟨i, hi, hw⟩, hwv⟩
      exact ⟨i, w, hi, hw, hwv⟩
    · rintro ⟨i, w, hi, hw, hwv⟩
      exact ⟨w, ⟨i, hi, hw⟩, hwv⟩
  · intro v w hvw
    -- equal values have the same codes
    apply Option.ext
    intro code
    simp only [hm.codeOf_eq_some_iff_categoryOf hl, BEq.congr_right hvw]

/-- A negative zero and a not-a-number are categories, and their codes are those of the positive
zero and of another not-a-number. -/
theorem bijective_of_reachable_folded : ∃ c m,
    Column.ofValues "x" .float [.float ⟨0x8000000000000000⟩, .null, .float ⟨0x7ff8000000000001⟩] =
      .ok c ∧
    Mapping.ordered c [.float ⟨0x7ff8000000000001⟩, .float ⟨0x8000000000000000⟩] = .ok m ∧
      m.codeOf (.float .nan) = some 0 ∧ m.codeOf (.float .zero) = some 1 ∧ m.Bijective := by
  obtain ⟨c, m, hc, hm, hl, hnan, hzero⟩ : ∃ c m,
      Column.ofValues "x" .float
        [.float ⟨0x8000000000000000⟩, .null, .float ⟨0x7ff8000000000001⟩] = .ok c ∧
      Mapping.ordered c [.float ⟨0x7ff8000000000001⟩, .float ⟨0x8000000000000000⟩] = .ok m ∧
        m.length = 2 ∧ m.codeOf (.float .nan) = some 0 ∧ m.codeOf (.float .zero) = some 1 :=
    ⟨_, _, rfl, rfl, rfl, rfl, rfl⟩
  exact ⟨c, m, hc, hm, hnan, hzero, bijective_of_reachable (.ordered (.ofValues hc) hm) (by omega)⟩

/-! ### Cells that can be decoded -/

/-- The category that a value stands for is at the position that the value is worth. A number beyond
the words comes out as the last of them, which is not the position of a category. -/
theorem codeIn_bind_eq_some_iff (hl : m.length < 2 ^ 63) :
    (codeIn v).bind m.categoryOf = some w ↔
      ∃ i : Nat, v.IsNumber i ∧ m.categories[i]? = some w := by
  cases v with
  | integer k =>
    rw [codeIn, Option.bind_some, categoryOf_eq_some_iff]
    rfl
  | float x =>
    rw [codeIn]
    constructor
    · intro h
      obtain ⟨code, hcode, hcat⟩ := Option.bind_eq_some_iff.1 h
      obtain ⟨k, hk, rfl⟩ := Option.map_eq_some_iff.1 hcode
      obtain ⟨i, hi, hw⟩ := categoryOf_eq_some_iff.1 hcat
      have hlt : i < m.length := (List.getElem?_eq_some_iff.1 hw).1
      -- the ends of the range are no positions, so the number was not moved
      rw [Integer64.toInt_clamp] at hi
      obtain rfl : k = i := by omega
      exact ⟨i, Binary64.integer?_eq_some_iff.1 hk, hw⟩
    · rintro ⟨i, hi, hw⟩
      have hlt : i < m.length := (List.getElem?_eq_some_iff.1 hw).1
      have hk : x.integer? = some (i : Int) := Binary64.integer?_eq_some_iff.2 hi
      rw [hk, Option.map_some, Option.bind_some, categoryOf_eq_some_iff]
      refine ⟨i, ?_, hw⟩
      rw [Integer64.toInt_clamp]
      omega
  | _ =>
    constructor
    · intro h
      cases h
    · rintro ⟨i, hi, -⟩
      cases hi

/-- A cell is decoded if it is null or worth a position; it becomes null or the category there. -/
theorem Sound.decodeCell_eq_ok_iff (h : m.Sound) (hl : m.length < 2 ^ 63) :
    m.decodeCell name v = .ok w ↔ v.isNull = true ∧ w = .null ∨ v.isNull = false ∧
      w.isNull = false ∧ ∃ i : Nat, v.IsNumber i ∧ m.categories[i]? = some w := by
  rw [decodeCell]
  cases hn : v.isNull with
  | true =>
    simp only [if_true, Except.ok.injEq, true_and, Bool.true_eq_false, false_and, or_false]
    exact eq_comm
  | false =>
    have hcategory : ∀ i : Nat, m.categories[i]? = some w → w.isNull = false :=
      fun i hi => h.not_null w (List.mem_of_getElem? hi)
    cases hu : (codeIn v).bind m.categoryOf with
    | none =>
      have hnone : ¬∃ i : Nat, v.IsNumber i ∧ m.categories[i]? = some w := by
        rw [← codeIn_bind_eq_some_iff hl, hu]
        exact (Option.some_ne_none w).symm
      simp [hnone]
    | some u =>
      have hiff := codeIn_bind_eq_some_iff (v := v) (w := w) hl
      rw [hu, Option.some.injEq] at hiff
      simp only [Bool.false_eq_true, if_false, Except.ok.injEq, false_and, false_or, true_and, hiff]
      exact ⟨fun hw => ⟨hw.elim fun i hi => hcategory i hi.2, hw⟩, And.right⟩

end Mapping

/-! ### Columns that can be decoded -/

/-- The column of the integers that the cells of a column are worth. -/
structure Column.NumbersOf (b c : Column) : Prop where
  name_eq : b.name = c.name
  type_eq : b.type = .integer
  cells : ∃ vs ws, c.values = .ok vs ∧ b.values = .ok ws ∧
    List.Forall₂ (fun v w => v.isNull = true ∧ w = .null ∨
      v.isNull = false ∧ ∃ k : Int64, v.IsNumber k.toInt ∧ w = .integer k) vs ws

/-- A column of integers is worth itself. -/
theorem Column.NumbersOf.eq_of_integer (h : b.NumbersOf c) (hb : b.Canonical) (hc : c.Canonical)
    (ht : c.type = .integer) : b = c := by
  obtain ⟨vs, ws, hvs, hws, hcells⟩ := h.cells
  have heq : List.Forall₂ Eq vs ws := by
    refine forall₂_imp_of_mem hcells fun v hv w hvw => ?_
    -- a cell of the column is empty or an integer
    have hacc : c.type.accepts v = true := (Series.values_spec hvs).2.2 v hv
    rw [ht] at hacc
    cases v with
    | null =>
      obtain ⟨-, rfl⟩ | ⟨hn, -⟩ := hvw
      · rfl
      · cases hn
    | integer i =>
      obtain ⟨hn, -⟩ | ⟨-, k, hk, rfl⟩ := hvw
      · cases hn
      · exact congrArg Value.integer (Int64.toInt_inj.1 hk)
    | _ => cases hacc
  -- with the same cells the columns are the same, as canonical storage leaves no choice
  rw [List.forall₂_eq_eq_eq] at heq
  exact hb.ext_values hc h.name_eq (h.type_eq.trans ht.symm) (heq ▸ hws) hvs

namespace Mapping

/-- The column of the categories at the positions that the cells of a column are worth. -/
structure Decoded (m : Mapping) (c d : Column) : Prop where
  name_eq : d.name = c.name
  type_eq : d.type = m.type
  length_eq : d.length = c.length
  cells : ∃ vs us, c.values = .ok vs ∧ d.values = .ok us ∧
    List.Forall₂ (fun v u => v.isNull = true ∧ u = .null ∨ v.isNull = false ∧ u.isNull = false ∧
      ∃ i : Nat, v.IsNumber i ∧ m.categories[i]? = some u) vs us

namespace Sound

/-- A column can be decoded exactly if each of its values is worth a position. -/
theorem exists_decode_iff (h : m.Sound) (hl : m.length < 2 ^ 63) (hvs : c.values = .ok vs) :
    (∃ d, m.decode c = .ok d) ↔
      ∀ v ∈ vs, v.isNull = false → ∃ i : Nat, i < m.length ∧ v.IsNumber i := by
  constructor
  · -- what was decoded was worth a position
    rintro ⟨d, hd⟩ v hv hn
    obtain ⟨-, -, -, us, -, hcells⟩ := decode_spec hd hvs
    obtain ⟨u, -, hvu⟩ := forall₂_exists_right hcells hv
    obtain ⟨hnull, -⟩ | ⟨-, -, i, hvi, hi⟩ := (h.decodeCell_eq_ok_iff hl).1 hvu
    · rw [hn] at hnull
      cases hnull
    · exact ⟨i, (List.getElem?_eq_some_iff.1 hi).1, hvi⟩
  · intro hall
    -- a column can be decoded if each of its cells can, and an empty cell always can
    refine h.exists_decode hvs fun v hv => ?_
    cases hn : v.isNull with
    | true => exact ⟨.null, (h.decodeCell_eq_ok_iff hl).2 (.inl ⟨hn, rfl⟩)⟩
    | false =>
      obtain ⟨i, hi, hvi⟩ := hall v hv hn
      have hu : m.categories[i]? = some m.categories[i] := List.getElem?_eq_getElem hi
      exact ⟨_, (h.decodeCell_eq_ok_iff hl).2
        (.inr ⟨hn, h.not_null _ (List.getElem_mem hi), i, hvi, hu⟩)⟩

/-- What a column is decoded to, place by place. -/
theorem decoded_of_decode (h : m.Sound) (hl : m.length < 2 ^ 63) (hvs : c.values = .ok vs)
    (hd : m.decode c = .ok d) : m.Decoded c d := by
  obtain ⟨-, hn, ht, us, hus, hcells⟩ := decode_spec hd hvs
  refine ⟨hn, ht, ?_, vs, us, hvs, hus, hcells.imp fun v u => (h.decodeCell_eq_ok_iff hl).1⟩
  calc d.length = us.length := (Series.values_spec hus).2.1.symm
    _ = vs.length := hcells.length_eq.symm
    _ = c.length := (Series.values_spec hvs).2.1

/-- What was decoded can be encoded again, to the numbers that were decoded. -/
theorem exists_encode_of_decoded (h : m.Sound) (hl : m.length < 2 ^ 63) (hd : m.Decoded c d) :
    ∃ b, m.encode d = .ok b ∧ b.Canonical ∧ b.NumbersOf c := by
  obtain ⟨vs, us, hvs, hus, hcells⟩ := hd.cells
  -- whatever stands in a decoded cell is a category
  have hcover : ∀ u ∈ us, u.isNull = false → m.categories.contains u = true := by
    intro u hu hn
    obtain ⟨v, -, ⟨-, rfl⟩ | ⟨-, -, i, -, hi⟩⟩ := forall₂_exists_left hcells hu
    · cases hn
    · exact List.contains_iff_exists_mem_beq.2 ⟨u, List.mem_of_getElem? hi, BEq.rfl⟩
  obtain ⟨b, hb⟩ := h.exists_encode hus hcover
  obtain ⟨hbc, hbn, hbt, ws, hws, hcodes⟩ := encode_spec hb hus
  refine ⟨b, hb, hbc, hbn.trans hd.name_eq, hbt, vs, ws, hvs, hws, ?_⟩
  -- a number and the code that it comes back as are related by the category between them
  refine forall₂_of_common hcells.flip hcodes ?_
  intro u _ v w hvu huw
  obtain ⟨hun, rfl⟩ | ⟨hun, code, hcode, rfl⟩ := encodeCell_eq_ok_iff.1 huw
  · obtain ⟨hn, -⟩ | ⟨-, hun', -⟩ := hvu
    · exact .inl ⟨hn, rfl⟩
    · rw [hun] at hun'
      cases hun'
  · obtain ⟨-, rfl⟩ | ⟨hn, -, i, hvi, hi⟩ := hvu
    · cases hun
    · obtain ⟨hcode', htoInt⟩ := h.codeOf_getElem? hl hi BEq.rfl
      obtain rfl := Option.some.inj (hcode'.symm.trans hcode)
      rw [← htoInt] at hvi
      exact .inr ⟨hn, _, hvi, rfl⟩

end Sound

/-- A column can be decoded exactly if each of its values is worth the position of a category; truth
values, texts, negative numbers, fractions and numbers beyond the words never are. It is decoded to
the categories at these positions, and encoding them gives the positions back. -/
theorem decode_exactly_positions (hm : Reachable (.mapping m)) (hl : m.length < 2 ^ 63)
    (hc : Reachable (.column c)) : ∃ vs, c.values = .ok vs ∧
      ((∃ d, m.decode c = .ok d) ↔
        ∀ v ∈ vs, v.isNull = false → ∃ i : Nat, i < m.length ∧ v.IsNumber i) ∧
      ((∃ v ∈ vs, v.NeverCode) → ∀ d, m.decode c ≠ .ok d) ∧
      ∀ d, m.decode c = .ok d → m.Decoded c d ∧
        ∃ b, m.encode d = .ok b ∧ b.NumbersOf c ∧ (c.type = .integer → b = c) := by
  have hs : m.Sound := hm.sound
  have hcan : c.Canonical := hc.sound
  obtain ⟨vs, hvs, -⟩ := hcan.exists_values
  have hiff := hs.exists_decode_iff hl hvs
  refine ⟨vs, hvs, hiff, ?_, ?_⟩
  · -- such a value is worth no position
    rintro ⟨v, hv, hnever⟩ d hd
    have hn : v.isNull = false := by cases hnever <;> rfl
    obtain ⟨i, hi, hvi⟩ := hiff.1 ⟨d, hd⟩ v hv hn
    exact hnever.not_isNumber (hi.trans hl) hvi
  · intro d hd
    have hdec := hs.decoded_of_decode hl hvs hd
    obtain ⟨b, hb, hbc, hnum⟩ := hs.exists_encode_of_decoded hl hdec
    exact ⟨hdec, b, hb, hnum, hnum.eq_of_integer hbc hcan⟩

/-- The negative zero is worth the first position and one the second, and encoding the names there
gives integers. -/
theorem decode_exactly_positions_floats : ∃ c m x d b,
    Column.ofValues "name" .string [.string "bob", .string "ann"] = .ok c ∧ sorted c = .ok m ∧
    Column.ofValues "name" .float
      [.float ⟨0x8000000000000000⟩, .null, .float ⟨0x3ff0000000000000⟩] = .ok x ∧
    m.decode x = .ok d ∧ d.values = .ok [.string "ann", .null, .string "bob"] ∧
      m.encode d = .ok b ∧ b.NumbersOf x ∧ b.values = .ok [.integer 0, .null, .integer 1] := by
  have hrun : (do
      let c ← Column.ofValues "name" .string [.string "bob", .string "ann"]
      let m ← sorted c
      let x ← Column.ofValues "name" .float
        [.float ⟨0x8000000000000000⟩, .null, .float ⟨0x3ff0000000000000⟩]
      let d ← m.decode x
      let b ← m.encode d
      return (m.length, ← d.values, ← b.values)) =
        .ok (2, [.string "ann", .null, .string "bob"], [.integer 0, .null, .integer 1]) := by
    decide +kernel
  -- the run is taken apart into its calls
  obtain ⟨c, hc, hrun⟩ := bind_eq_ok_iff.1 hrun
  obtain ⟨m, hm, hrun⟩ := bind_eq_ok_iff.1 hrun
  obtain ⟨x, hx, hrun⟩ := bind_eq_ok_iff.1 hrun
  obtain ⟨d, hd, hrun⟩ := bind_eq_ok_iff.1 hrun
  obtain ⟨b, hb, hrun⟩ := bind_eq_ok_iff.1 hrun
  obtain ⟨us, hus, hrun⟩ := bind_eq_ok_iff.1 hrun
  obtain ⟨ws, hws, hrun⟩ := bind_eq_ok_iff.1 hrun
  obtain ⟨hl, hrun⟩ := Prod.mk.inj (Except.ok.inj hrun)
  obtain ⟨rfl, rfl⟩ := Prod.mk.inj hrun
  obtain ⟨-, -, -, -, hdecoded⟩ :=
    decode_exactly_positions (.sorted (.ofValues hc) hm) (by omega) (.ofValues hx)
  obtain ⟨-, b', hb', hnum, -⟩ := hdecoded d hd
  obtain rfl := Except.ok.inj (hb.symm.trans hb')
  exact ⟨c, m, x, d, b, hc, hm, hx, hd, hus, hb, hnum, hws⟩

end Mapping

end Tabula
