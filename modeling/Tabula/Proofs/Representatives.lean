import Tabula.Proofs.Ranks

/-!
# Representatives of equal values

Values that are equal need not be identical, and of equal values of a column only one becomes a
category. Which one it is can be seen when a column is decoded; everything else that is learned
depends only on which values there are up to equality, and not on their number or order.

* `Value.LastIn` — a value behind which no equal one stands.
* `Value.mem_ascending_iff` — the last of equal values is the one that stays.
* `Value.Ascends.forall₂_of_contains` — ascending lists of the same values agree one by one.
* `Mapping.learned_from_set` — what is learned depends on the set of values alone, and every zero of
  a column comes back as the last one.
-/

namespace Tabula

/-! ### Insertion -/

section

variable {α κ : Type} {cmp : κ → κ → Ordering} {key : α → κ} {a b : α} {bs : List α}

/-- What is inserted is there, whether it has replaced an equal one or not. -/
theorem mem_insertByKey_self : a ∈ insertByKey cmp key a bs := by
  induction bs with
  | nil => exact List.mem_singleton_self a
  | cons x xs ih =>
    rw [insertByKey]
    split
    · exact List.mem_cons_self
    · exact List.mem_cons_self
    · exact List.mem_cons_of_mem _ ih

/-- Only an element with an equal key gives way. -/
theorem mem_insertByKey_of_ne (hb : b ∈ bs) (h : cmp (key a) (key b) ≠ .eq) :
    b ∈ insertByKey cmp key a bs := by
  induction bs with
  | nil => cases hb
  | cons x xs ih =>
    rw [insertByKey]
    -- the new value goes in front, in the place of an equal one, or further back
    split
    · exact List.mem_cons_of_mem _ hb
    · next hc =>
      obtain rfl | hb := List.mem_cons.1 hb
      · exact absurd hc h
      · exact List.mem_cons_of_mem _ hb
    · obtain rfl | hb := List.mem_cons.1 hb
      · exact List.mem_cons_self
      · exact List.mem_cons_of_mem _ (ih hb)

end

/-- Only zeros rank like zeros. -/
theorem Binary64.isZero_of_rank_eq {x y : Binary64} (h : x.rank = y.rank) (hx : x.isZero = true) :
    y.isZero = true := by
  have hy : y.rank = 0 := h.symm.trans (rank_of_isZero hx)
  cases hn : y.isNaN with
  | true =>
    rw [rank_of_isNaN hn] at hy
    exact absurd hy (by decide)
  | false =>
    -- a rank belongs to one number only, but for zeros and what is not a number
    cases hz : y.isZero with
    | true => rfl
    | false =>
      rw [← eq_of_rank_eq h.symm hz hn, hz] at hx
      cases hx

namespace Value

variable {v w x : Value} {vs ws : List Value}

/-- Numbers of one rank are equal as values. -/
theorem beq_of_rank_eq {x y : Binary64} (h : x.rank = y.rank) :
    (Value.float x == .float y) = true := by
  rw [beq_iff_cmp]
  show compare x.rank y.rank = .eq
  rw [h]
  exact compare_eq_iff_eq.2 rfl

theorem beq_of_isZero {x y : Binary64} (hx : x.isZero = true) (hy : y.isZero = true) :
    (Value.float x == .float y) = true :=
  beq_of_rank_eq ((Binary64.rank_of_isZero hx).trans (Binary64.rank_of_isZero hy).symm)

/-- What equals a zero is a zero. -/
theorem exists_float_of_beq {x : Binary64} (hx : x.isZero = true)
    (h : (Value.float x == v) = true) : ∃ y : Binary64, v = .float y ∧ y.isZero = true := by
  have hc := beq_iff_cmp.1 h
  cases v with
  | float y => exact ⟨y, rfl, Binary64.isZero_of_rank_eq (Std.LawfulEqOrd.eq_of_compare hc) hx⟩
  | _ => cases hc

/-! ### The last of equal values -/

/-- The value stands in the list, and no equal one stands behind it. -/
def LastIn (v : Value) (vs : List Value) : Prop :=
  ∃ before after, vs = before ++ v :: after ∧ ∀ w ∈ after, (w == v) = false

theorem LastIn.mem (h : LastIn v vs) : v ∈ vs := by
  obtain ⟨before, after, rfl, -⟩ := h
  exact List.mem_append_right _ List.mem_cons_self

theorem not_lastIn_nil : ¬LastIn v [] := fun h => absurd h.mem List.not_mem_nil

/-- Behind a list one more value is the last of those equal to it, and changes nothing for the
others. -/
theorem lastIn_concat_iff : LastIn v (vs ++ [x]) ↔ v = x ∨ (v == x) = false ∧ LastIn v vs := by
  constructor
  · rintro ⟨before, after, h, hafter⟩
    -- either nothing is behind the value, or what is behind it ends in the new one
    obtain rfl | ⟨after, y, rfl⟩ := List.eq_nil_or_concat after
    · obtain ⟨-, hx⟩ := List.append_inj' h rfl
      exact .inl (List.singleton_inj.1 hx).symm
    · rw [List.concat_eq_append] at h hafter
      rw [← List.cons_append, ← List.append_assoc] at h
      obtain ⟨rfl, hx⟩ := List.append_inj' h rfl
      obtain rfl := List.singleton_inj.1 hx
      obtain ⟨hafter, hx⟩ := List.forall_mem_append.1 hafter
      rw [BEq.comm]
      exact .inr ⟨hx x List.mem_cons_self, before, after, rfl, hafter⟩
  · rintro (rfl | ⟨hne, before, after, rfl, hafter⟩)
    · exact ⟨vs, [], rfl, nofun⟩
    · refine ⟨before, after ++ [x], by simp, ?_⟩
      rw [BEq.comm] at hne
      exact List.forall_mem_append.2 ⟨hafter, List.forall_mem_singleton.2 hne⟩

/-- In a part of a list that leaves out whole classes of equal values, the last ones stay. -/
theorem lastIn_filter_iff {p : Value → Bool} (hp : ∀ v w, (v == w) = true → p v = p w) :
    LastIn v (vs.filter p) ↔ p v = true ∧ LastIn v vs := by
  -- the last value is the one that decides, so the induction takes the values from the right
  induction vs using List.reverseRecOn with
  | nil => exact iff_of_false not_lastIn_nil fun h => not_lastIn_nil h.2
  | append_singleton vs x ih =>
    rw [List.filter_append, List.filter_singleton, lastIn_concat_iff]
    cases hx : p x with
    | true =>
      rw [cond_true, lastIn_concat_iff, ih]
      constructor
      · rintro (rfl | ⟨hne, hv, hlast⟩)
        · exact ⟨hx, .inl rfl⟩
        · exact ⟨hv, .inr ⟨hne, hlast⟩⟩
      · rintro ⟨hv, rfl | ⟨hne, hlast⟩⟩
        · exact .inl rfl
        · exact .inr ⟨hne, hv, hlast⟩
    | false =>
      rw [cond_false, List.append_nil, ih]
      constructor
      · rintro ⟨hv, hlast⟩
        have hne : (v == x) = false := by
          rw [Bool.eq_false_iff]
          intro hvx
          rw [hp v x hvx, hx] at hv
          cases hv
        exact ⟨hv, .inr ⟨hne, hlast⟩⟩
      · rintro ⟨hv, rfl | ⟨-, hlast⟩⟩
        · rw [hx] at hv
          cases hv
        · exact ⟨hv, hlast⟩

/-- Equal values of an ascending list are one. -/
theorem Ascends.eq_of_beq (h : Ascends vs) (hv : v ∈ vs) (hw : w ∈ vs) (hvw : (v == w) = true) :
    v = w := by
  obtain ⟨i, hi⟩ := List.mem_iff_getElem?.1 hv
  obtain ⟨j, hj⟩ := List.mem_iff_getElem?.1 hw
  have hij : compare i j = .eq := (h.cmp_getElem? hi hj).symm.trans (beq_iff_cmp.1 hvw)
  obtain rfl := Nat.compare_eq_eq.1 hij
  exact Option.some.inj (hi.symm.trans hj)

/-- Of the values of an ascending list only one that is equal gives way to what is put in. -/
theorem Ascends.mem_insertDistinct_iff (h : Ascends vs) :
    w ∈ Value.insertDistinct v vs ↔ w = v ∨ (w == v) = false ∧ w ∈ vs := by
  constructor
  · intro hw
    obtain hwv | hmem := mem_of_mem_insertByKey hw
    · exact .inl hwv
    · -- if they are equal, they are one: an ascending list has no equal two
      cases hwv : w == v with
      | true => exact .inl (h.insertDistinct.eq_of_beq hw mem_insertByKey_self hwv)
      | false => exact .inr ⟨rfl, hmem⟩
  · rintro (rfl | ⟨hne, hw⟩)
    · exact mem_insertByKey_self
    · refine mem_insertByKey_of_ne hw fun heq => ?_
      have hvw : (v == w) = true := beq_iff_cmp.2 heq
      rw [BEq.comm, hvw] at hne
      cases hne

/-- Of equal values of a list, the last one is among its distinct values. -/
theorem mem_ascending_iff : v ∈ ascending vs ↔ LastIn v vs := by
  induction vs using List.reverseRecOn with
  | nil => exact iff_of_false List.not_mem_nil not_lastIn_nil
  | append_singleton vs x ih =>
    rw [ascending_concat, (ascends_ascending vs).mem_insertDistinct_iff, ih, lastIn_concat_iff]

/-- The values that are observed are the last of equal ones, except for null. -/
theorem mem_observed_iff : v ∈ observed vs ↔ v.isNull = false ∧ LastIn v vs := by
  rw [observed, mem_ascending_iff, lastIn_filter_iff fun v w hvw => by rw [isNull_eq_of_beq hvw],
    Bool.not_eq_true']

/-- Only one of equal values is the last. -/
theorem LastIn.eq_of_beq (hv : LastIn v vs) (hw : LastIn w vs) (hvw : (v == w) = true) : v = w :=
  (ascends_ascending vs).eq_of_beq (mem_ascending_iff.2 hv) (mem_ascending_iff.2 hw) hvw

/-- Every value has an equal one that is the last. -/
theorem exists_lastIn (hv : v ∈ vs) : ∃ w, LastIn w vs ∧ (v == w) = true := by
  have hin : (ascending vs).contains v = true := by
    rw [contains_ascending]
    exact List.contains_iff_exists_mem_beq.2 ⟨v, hv, BEq.rfl⟩
  obtain ⟨w, hw, hvw⟩ := List.contains_iff_exists_mem_beq.1 hin
  exact ⟨w, mem_ascending_iff.1 hw, hvw⟩

/-! ### Lists of the same values -/

/-- Values are equal if neither is behind the other. -/
theorem beq_of_cmp_ne_gt (hvw : v.cmp w ≠ .gt) (hwv : w.cmp v ≠ .gt) : (v == w) = true := by
  rw [beq_iff_cmp]
  cases hc : v.cmp w with
  | eq => rfl
  | gt => exact absurd hc hvw
  | lt => exact absurd (Std.OrientedCmp.gt_of_lt hc) hwv

/-- Nothing that an ascending list contains is before its head. -/
theorem Ascends.cmp_head (h : Ascends (v :: vs)) (hw : (v :: vs).contains w = true) :
    v.cmp w ≠ .gt := by
  obtain ⟨hlt, -⟩ := List.pairwise_cons.1 h
  obtain ⟨x, hx, hwx⟩ := List.contains_iff_exists_mem_beq.1 hw
  rw [cmp_congr BEq.rfl hwx]
  obtain rfl | hx := List.mem_cons.1 hx
  · rw [beq_iff_cmp.1 BEq.rfl]
    exact nofun
  · rw [hlt x hx]
    exact nofun

/-- The tail of an ascending list contains what the list does, without what equals the head. -/
theorem Ascends.contains_tail (h : Ascends (v :: vs)) :
    vs.contains w = (!(w == v) && (v :: vs).contains w) := by
  rw [List.contains_cons]
  cases hwv : w == v with
  | false => rfl
  | true =>
    -- what equals the head equals nothing behind it
    have hnone : ∀ x ∈ vs, (w == x) = false := by
      intro x hx
      rw [BEq.congr_left hwv]
      exact (List.pairwise_cons.1 h.pairwise_ne).1 x hx
    rw [Bool.not_true, Bool.false_and, Bool.eq_false_iff]
    intro hw
    obtain ⟨x, hx, hwx⟩ := List.contains_iff_exists_mem_beq.1 hw
    rw [hnone x hx] at hwx
    cases hwx

/-- Ascending lists of the same values agree one by one. -/
theorem Ascends.forall₂_of_contains (hvs : Ascends vs) (hws : Ascends ws)
    (h : ∀ v, vs.contains v = ws.contains v) : List.Forall₂ (· == ·) vs ws := by
  have hself : ∀ (x : Value) (xs : List Value), (x :: xs).contains x = true := fun x xs => by
    rw [List.contains_cons, BEq.rfl, Bool.true_or]
  induction vs generalizing ws with
  | nil =>
    cases ws with
    | nil => exact .nil
    | cons w ws => exact Bool.noConfusion ((h w).trans (hself w ws))
  | cons v vs ih =>
    cases ws with
    | nil => exact Bool.noConfusion ((h v).symm.trans (hself v vs))
    | cons w ws =>
      -- neither head is before the other, as each list contains the head of the other one
      have hvw : (v == w) = true := beq_of_cmp_ne_gt (hvs.cmp_head ((h w).trans (hself w ws)))
        (hws.cmp_head ((h v).symm.trans (hself v vs)))
      refine .cons hvw (ih (List.pairwise_cons.1 hvs).2 (List.pairwise_cons.1 hws).2 fun x => ?_)
      rw [hvs.contains_tail, hws.contains_tail, h, BEq.congr_right hvw]

end Value

/-! ### Learning from sets of values -/

variable {c d : Column} {m : Mapping} {vs ws : List Value} {t u : Table} {e : Encoder}
  {name : String}

namespace Mapping

/-- Columns of one type with the same values, in whatever order and however often. -/
theorem sameObserved_of_contains (ht : c.type = d.type) (hvs : c.values = .ok vs)
    (hws : d.values = .ok ws)
    (h : ∀ v : Value, v.isNull = false → vs.contains v = ws.contains v) : SameObserved c d := by
  refine sameObserved_of_forall₂ ht hvs hws
    ((Value.ascends_ascending _).forall₂_of_contains (Value.ascends_ascending _) fun v => ?_)
  show (Value.observed vs).contains v = (Value.observed ws).contains v
  rw [Value.contains_observed, Value.contains_observed]
  cases hn : v.isNull with
  | true => rfl
  | false => rw [h v hn]

/-- Of equal values of a column, the last one becomes a category. -/
theorem mem_categories_iff_of_sorted {v : Value} (hvs : c.values = .ok vs) (hm : sorted c = .ok m) :
    v ∈ m.categories ↔ v.isNull = false ∧ Value.LastIn v vs := by
  rw [categories_of_sorted hvs hm, Value.mem_observed_iff]

end Mapping

/-- Encoding and decoding a column by the mapping learned from it by its values puts the last of
equal values in the place of each of them. -/
theorem Encoder.exists_representatives {n : Nat} {cs : List Column} (h : t.Holds n cs)
    (hc : t.column name = .ok c) (hvs : c.values = .ok vs) (hm : Mapping.sorted c = .ok m)
    (hl : m.length < 2 ^ 63) (hget : e.mappings.get? name = some m) :
    ∃ u w ws, e.transform t name = .ok u ∧ e.inverse u name = .ok w ∧
      w.columnValues name = .ok ws ∧ List.Forall₂ (fun v w => v.isNull = true ∧ w = .null ∨
        v.isNull = false ∧ (v == w) = true ∧ Value.LastIn w vs) vs ws := by
  obtain ⟨hmem, rfl⟩ := h.column_eq_ok_iff.1 hc
  have hlearned := Mapping.learned_of_sorted (h.canonical c hmem) hm
  obtain ⟨d, u, hd, hdn, hu, huh⟩ := h.exists_encoded hmem hlearned
  obtain ⟨b, bs, w, hcol, hb, hw, -, hwh, hbn, -, hbs, hback⟩ :=
    h.exists_decoded hmem hlearned.sound hl hvs hd hu
  refine ⟨u, w, bs, transform_eq_ok_iff.2 ⟨c, m, d, hc, hget, hd, hu⟩,
    inverse_eq_ok_iff.2 ⟨d, m, b, hcol, hget, hb, hw⟩, ?_, ?_⟩
  · exact bind_eq_ok_iff.2 ⟨b, hbn ▸ hwh.column_replaced hmem hbn.symm, hbs⟩
  · -- whatever was decoded is empty or a category
    obtain ⟨-, -, -, ws, hws, -⟩ := Mapping.encode_spec hd hvs
    obtain ⟨-, -, -, bs', hbs', hcells⟩ := Mapping.decode_spec hb hws
    obtain rfl := Except.ok.inj (hbs.symm.trans hbs')
    have hcategory : ∀ b ∈ bs, b = .null ∨ b ∈ m.categories := by
      intro b hb
      obtain ⟨w, -, hwb⟩ := forall₂_exists_left hcells hb
      exact Mapping.mem_categories_of_decodeCell hwb
    refine (forall₂_imp_of_mem hback.flip fun w hw v hvw => ?_).flip
    obtain ⟨hvw, hnull⟩ := hvw
    -- a null comes back as one, any other value as the category it equals
    cases hn : v.isNull with
    | true => exact .inl ⟨hn, hnull hn⟩
    | false =>
      refine .inr ⟨hn, hvw, ?_⟩
      obtain rfl | hcat := hcategory w hw
      · have hn' := Value.isNull_eq_of_beq hvw
        rw [hn] at hn'
        cases hn'
      · exact ((Mapping.mem_categories_iff_of_sorted hvs hm).1 hcat).2

/-- What the last zero of a column does to the others: it is the one that becomes a category, and
all of them come back as it. -/
structure Mapping.KeepsZero (m : Mapping) (t : Table) (name : String) (vs : List Value)
    (z : Binary64) : Prop where
  isZero : z.isZero = true
  last : Value.LastIn (.float z) vs
  category : ∀ x : Binary64, x.isZero = true → (.float x ∈ m.categories ↔ x = z)
  restored : ∀ e : Encoder, m.length < 2 ^ 63 → e.mappings.get? name = some m →
    ∃ u w ws, e.transform t name = .ok u ∧ e.inverse u name = .ok w ∧
      w.columnValues name = .ok ws ∧ List.Forall₂ (fun v w => (v == w) = true ∧
        ∀ x : Binary64, v = .float x → x.isZero = true → w = .float z) vs ws

namespace Mapping

/-- A column with a zero in it is learned with one zero, and every zero comes back as that one. -/
theorem exists_keepsZero {n : Nat} {cs : List Column} (h : t.Holds n cs)
    (hc : t.column name = .ok c) (hvs : c.values = .ok vs) {x : Binary64} (hx : x.isZero = true)
    (hmem : .float x ∈ vs) : ∃ m z, sorted c = .ok m ∧ m.KeepsZero t name vs z := by
  obtain ⟨m, hm⟩ := exists_sorted hvs ⟨_, hmem, rfl⟩
  obtain ⟨w, hlast, hxw⟩ := Value.exists_lastIn hmem
  obtain ⟨z, rfl, hz⟩ := Value.exists_float_of_beq hx hxw
  -- all zeros are equal, so no other one can be the last
  have honly : ∀ y : Binary64, y.isZero = true → ∀ w, (Value.float y == w) = true →
      Value.LastIn w vs → w = .float z := by
    intro y hy w hyw hw
    exact hw.eq_of_beq hlast (BEq.trans (BEq.symm hyw) (Value.beq_of_isZero hy hz))
  refine ⟨m, z, hm, hz, hlast, fun y hy => ?_, fun e hl hget => ?_⟩
  · rw [mem_categories_iff_of_sorted hvs hm]
    constructor
    · rintro ⟨-, hy'⟩
      exact Value.float.inj (honly y hy _ BEq.rfl hy')
    · rintro rfl
      exact ⟨rfl, hlast⟩
  · obtain ⟨u, w, ws, hu, hw, hws, hcells⟩ := Encoder.exists_representatives h hc hvs hm hl hget
    refine ⟨u, w, ws, hu, hw, hws, hcells.imp fun v w hvw => ?_⟩
    -- a cell that came back is null, or the last of the values equal to the first one
    obtain ⟨hn, rfl⟩ | ⟨-, hvw, hlast'⟩ := hvw
    · cases v with
      | null => exact ⟨rfl, nofun⟩
      | _ => cases hn
    · exact ⟨hvw, fun y hy hyz => honly y hyz w (hy ▸ hvw) hlast'⟩

/-- What is learned from a column depends only on which values it has, up to equality. Which of
equal values becomes a category depends on their order: it is the last of them, so that all zeros of
a column come back as its last one. -/
theorem learned_from_set :
    (∀ (c d : Column) (vs ws : List Value), Reachable (.column c) → Reachable (.column d) →
      c.type = d.type → c.values = .ok vs → d.values = .ok ws →
      (∀ v : Value, v.isNull = false → vs.contains v = ws.contains v) →
      Alike (fun m k => (m == k) = true) (sorted c) (sorted d) ∧
        ∀ order, Alike (fun m k => (m == k) = true) (ordered c order) (ordered d order)) ∧
    ∀ (t : Table) (name : String) (c : Column) (vs : List Value), Reachable (.table t) →
      t.column name = .ok c → c.values = .ok vs →
      (∃ x : Binary64, x.isZero = true ∧ .float x ∈ vs) →
      ∃ m z, sorted c = .ok m ∧ m.KeepsZero t name vs z := by
  constructor
  · intro c d vs ws hc hd ht hvs hws hset
    -- the two columns observe the same values up to equality, and all of learning goes from there
    have hsame := sameObserved_of_contains ht hvs hws hset
    have hequal : ∀ m k : Mapping, m.Like k → (m == k) = true :=
      fun m k h => (like_iff h.sound_left h.sound_right).1 h
    refine ⟨(hsame.alike_sorted hc.sound hd.sound).imp fun m k _ _ => hequal m k, fun order => ?_⟩
    have horder : List.Forall₂ (fun v w : Value => (v == w) = true) order order :=
      List.forall₂_same.2 fun _ _ => BEq.rfl
    exact (hsame.alike_ordered hc.sound hd.sound horder).imp fun m k _ _ => hequal m k
  · rintro t name c vs ht hc hvs ⟨x, hx, hmem⟩
    obtain ⟨n, cs, hh⟩ := ht.sound
    exact exists_keepsZero hh hc hvs hx hmem

/-- A positive zero, one, and a negative zero. -/
def zeros : List (Option Binary64) :=
  [some ⟨0⟩, some ⟨0x3ff0000000000000⟩, some ⟨0x8000000000000000⟩]

/-- The negative zero is behind the positive one and takes its place. A column of one and of the
positive zero alone has an equal mapping. -/
theorem learned_from_set_zeros : ∃ t c d vs m k,
    Table.ofFrame ⟨3, [⟨"x", .floats64 zeros⟩]⟩ = .ok t ∧ t.column "x" = .ok c ∧
    c.values = .ok vs ∧
    Column.ofValues "x" .float [.float ⟨0x3ff0000000000000⟩, .float ⟨0⟩] = .ok d ∧
    sorted c = .ok m ∧ sorted d = .ok k ∧ (m == k) = true ∧
      m.KeepsZero t "x" vs ⟨0x8000000000000000⟩ := by
  obtain ⟨t, c, d, m, k, ht, hc, hd, hvs, hws, htype, hm, hk, hcategories⟩ : ∃ t c d m k,
      Table.ofFrame ⟨3, [⟨"x", .floats64 zeros⟩]⟩ = .ok t ∧ t.column "x" = .ok c ∧
      Column.ofValues "x" .float [.float ⟨0x3ff0000000000000⟩, .float ⟨0⟩] = .ok d ∧
      c.values = .ok [.float ⟨0⟩, .float ⟨0x3ff0000000000000⟩, .float ⟨0x8000000000000000⟩] ∧
      d.values = .ok [.float ⟨0x3ff0000000000000⟩, .float ⟨0⟩] ∧ c.type = d.type ∧
      sorted c = .ok m ∧ sorted d = .ok k ∧
      m.categories = [.float ⟨0x8000000000000000⟩, .float ⟨0x3ff0000000000000⟩] :=
    ⟨_, _, _, _, _, rfl, rfl, rfl, rfl, rfl, rfl, rfl, rfl, rfl⟩
  have hr : Reachable (.table t) := .ofFrame ht
  have hset : ∀ v : Value, v.isNull = false →
      [.float ⟨0⟩, .float ⟨0x3ff0000000000000⟩, .float ⟨0x8000000000000000⟩].contains v =
        [Value.float ⟨0x3ff0000000000000⟩, .float ⟨0⟩].contains v := by
    intro v _
    have hzero : (v == .float ⟨0x8000000000000000⟩) = (v == .float ⟨0⟩) :=
      BEq.congr_right (by decide)
    simp only [List.contains_cons, List.contains_nil, hzero]
    cases v == .float ⟨0⟩ <;> cases v == .float ⟨0x3ff0000000000000⟩ <;> rfl
  obtain ⟨hlearned, -⟩ :=
    learned_from_set.1 c d _ _ (.column hr hc) (.ofValues hd) htype hvs hws hset
  obtain ⟨m', z, hm', hkeeps⟩ :=
    learned_from_set.2 t "x" c _ hr hc hvs ⟨⟨0⟩, by decide, List.mem_cons_self⟩
  obtain rfl := Except.ok.inj (hm.symm.trans hm')
  rw [hm, hk] at hlearned
  obtain rfl := (hkeeps.category ⟨0x8000000000000000⟩ (by decide)).1
    (hcategories ▸ List.mem_cons_self)
  exact ⟨t, c, d, _, m, k, ht, hc, hvs, hd, hm, hk, hlearned, hkeeps⟩

end Mapping

end Tabula
