import Tabula.Proofs.Numeric
import Tabula.Row

/-!
# Order, equality and hashing of values

Values are ordered, compared and hashed by code of its own for each purpose, and rows after them.
All of it agrees: what is equal is what neither precedes the other, and is what feeds a hasher the
same.

* `Value.hashFeed_eq_iff` — values feed a hasher the same exactly if they are equal.
* `Value.hashFeed_append_inj` — where the feed of a value ends can be told from the feed, so that
  this holds of lists of values as well.
* `Value.order_equality_hashing` — the laws of values and of rows.
-/

namespace Tabula

namespace Binary64

variable {x y : Binary64}

theorem canonical_of_isNaN (h : x.isNaN = true) : x.canonical = nan := by
  rw [canonical, h]
  rfl

theorem isNaN_of_isZero (h : x.isZero = true) : x.isNaN = false := by
  have hm : x.magnitude = 0 := by simpa [isZero] using h
  rw [isNaN, hm]
  rfl

theorem canonical_of_isZero (h : x.isZero = true) : x.canonical = zero := by
  rw [canonical, isNaN_of_isZero h, h]
  rfl

/-- Both zeros have the rank zero. -/
theorem rank_of_isZero (h : x.isZero = true) : x.rank = 0 := by
  unfold rank
  rw [canonical_of_isZero h]
  rfl

/-- The rank of a number determines its canonical form. -/
theorem canonical_eq_of_rank_eq (h : x.rank = y.rank) : x.canonical = y.canonical := by
  have hnan : (nan.magnitude : Int) ≠ 0 := by decide
  -- the rank leaves the number open among those that are none and among the zeros, and the
  -- canonical form is one for the former and one for the latter
  cases hxn : x.isNaN with
  | true =>
    cases hyn : y.isNaN with
    | true => rw [canonical_of_isNaN hxn, canonical_of_isNaN hyn]
    | false =>
      have hlt := rank_lt_of_isNaN hxn hyn
      omega
  | false =>
    cases hxz : x.isZero with
    | false => rw [eq_of_rank_eq h hxz hxn]
    | true =>
      -- the rank of a zero is the rank of nothing but zeros
      have hy : y.rank = 0 := h.symm.trans (rank_of_isZero hxz)
      cases hyn : y.isNaN with
      | true => exact absurd ((rank_of_isNaN hyn).symm.trans hy) hnan
      | false =>
        cases hyz : y.isZero with
        | true => rw [canonical_of_isZero hxz, canonical_of_isZero hyz]
        | false => rw [eq_of_rank_eq h.symm hyz hyn]

end Binary64

namespace Value

variable {v w : Value} {vs ws : List Value} {r s : List HashInput}

/-! ### What a hasher is fed -/

/-- Equal values feed a hasher the same. -/
theorem hashFeed_eq_of_beq (h : (v == w) = true) : v.hashFeed = w.hashFeed := by
  cases hf : v.isFolded with
  | false => rw [eq_of_beq_of_not_folded h hf]
  | true =>
    have hc := beq_iff_cmp.1 h
    -- only a floating-point number has equals besides itself, and these are numbers of its rank
    cases v with
    | float x =>
      cases w with
      | float y =>
        have hr : x.rank = y.rank := Std.LawfulEqOrd.eq_of_compare hc
        show [HashInput.octet 3, .word x.canonical.bits] = [.octet 3, .word y.canonical.bits]
        rw [Binary64.canonical_eq_of_rank_eq hr]
      | _ => cases hc
    | _ => cases hf

/-- The types are few enough to be told apart by an octet. -/
theorem typeRank_eq_of_ofNat (h : UInt8.ofNat v.typeRank = UInt8.ofNat w.typeRank) :
    v.typeRank = w.typeRank := by
  have hlt : ∀ u : Value, u.typeRank < 2 ^ 8 := by
    intro u
    cases u <;> simp [typeRank]
  have hnat := congrArg UInt8.toNat h
  rwa [UInt8.toNat_ofNat_of_lt' (hlt v), UInt8.toNat_ofNat_of_lt' (hlt w)] at hnat

/-- The feed of a value begins with its type, which decides how long it is, and then holds its
content: two feeds that go on in whatever way are the same only if the values are equal, and what
comes after them is the same. -/
theorem hashFeed_append_inj (h : v.hashFeed ++ r = w.hashFeed ++ s) : (v == w) = true ∧ r = s := by
  -- the first octet tells the type
  have hrank : v.typeRank = w.typeRank :=
    typeRank_eq_of_ofNat (HashInput.octet.inj (List.head_eq_of_cons_eq h))
  have hrest := List.tail_eq_of_cons_eq h
  -- both values are of one type now, and what is left of the feeds begins with their contents
  cases v with
  | null =>
    cases w with
    | null => exact ⟨rfl, hrest⟩
    | _ => cases hrank
  | boolean b =>
    cases w with
    | boolean c =>
      obtain ⟨hbc, rfl⟩ := List.cons.inj hrest
      have hbits : (if b then (1 : UInt8) else 0) = if c then 1 else 0 := HashInput.octet.inj hbc
      have heq : b = c := by
        cases b <;> cases c <;> first | rfl | exact absurd hbits (by decide)
      exact ⟨heq ▸ BEq.rfl, rfl⟩
    | _ => cases hrank
  | integer i =>
    cases w with
    | integer j =>
      obtain ⟨hij, rfl⟩ := List.cons.inj hrest
      have heq : i = j := congrArg Int64.ofUInt64 (HashInput.word.inj hij)
      exact ⟨heq ▸ BEq.rfl, rfl⟩
    | _ => cases hrank
  | float x =>
    cases w with
    | float y =>
      obtain ⟨hxy, rfl⟩ := List.cons.inj hrest
      have hc : x.canonical = y.canonical := congrArg Binary64.mk (HashInput.word.inj hxy)
      have hr : x.rank = y.rank := by
        unfold Binary64.rank
        rw [hc]
      exact ⟨beq_iff_cmp.2 (compare_eq_iff_eq.2 hr), rfl⟩
    | _ => cases hrank
  | string s =>
    cases w with
    | string t =>
      -- the octet at the end of a text adds nothing, as the text is fed in one piece
      obtain ⟨hst, hrest⟩ := List.cons.inj hrest
      have heq : s = t :=
        String.toByteArray_inj.1 (ByteArray.ext (Array.toList_inj.1 (HashInput.octets.inj hst)))
      exact ⟨heq ▸ BEq.rfl, List.tail_eq_of_cons_eq hrest⟩
    | _ => cases hrank

/-- Values feed a hasher the same exactly if they are equal. -/
theorem hashFeed_eq_iff : v.hashFeed = w.hashFeed ↔ (v == w) = true := by
  refine ⟨?_, hashFeed_eq_of_beq⟩
  intro h
  have happ : v.hashFeed ++ [] = w.hashFeed ++ [] := by rw [h]
  exact (hashFeed_append_inj happ).1

/-- Feeds of several values, one after the other, are the same exactly if the values are equal one
by one. -/
theorem flatMap_hashFeed_eq_iff (hl : vs.length = ws.length) :
    vs.flatMap hashFeed = ws.flatMap hashFeed ↔
      List.Forall₂ (fun v w => (v == w) = true) vs ws := by
  -- value by value, as the feed of each one ends where it can be seen
  induction vs generalizing ws with
  | nil =>
    obtain rfl := List.length_eq_zero_iff.1 hl.symm
    simp
  | cons v vs ih =>
    obtain ⟨w, ws, rfl⟩ := List.exists_cons_of_length_eq_add_one hl.symm
    rw [List.flatMap_cons, List.flatMap_cons, List.forall₂_cons, ← ih (Nat.succ.inj hl)]
    refine ⟨hashFeed_append_inj, ?_⟩
    rintro ⟨hvw, hrest⟩
    rw [hashFeed_eq_of_beq hvw, hrest]

/-- The feed of a list begins with its length, and then the values of the two lists can be held
against each other. -/
theorem hashFeedList_eq_iff : hashFeedList vs = hashFeedList ws ↔ (vs == ws) = true := by
  rw [list_beq_iff_forall₂, hashFeedList, hashFeedList, List.cons.injEq, HashInput.count.injEq]
  refine ⟨?_, ?_⟩
  · rintro ⟨hl, hfeed⟩
    exact (flatMap_hashFeed_eq_iff hl).1 hfeed
  · intro h
    exact ⟨h.length_eq, (flatMap_hashFeed_eq_iff h.length_eq).2 h⟩

/-! ### The laws -/

/-- Of values of different types the one whose type comes first precedes. -/
theorem cmp_of_typeRank_lt (h : v.typeRank < w.typeRank) : v.cmp w = .lt := by
  rw [cmp_eq_compareLex]
  show (compare v.typeRank w.typeRank).then _ = .lt
  rw [compare_lt_iff_lt.2 h]
  rfl

/-- Values of the five kinds follow each other, whatever they hold. -/
theorem ascends_kinds (b : Bool) (i : Int64) (x : Binary64) (s : String) :
    Ascends [.null, .boolean b, .integer i, .float x, .string s] := by
  have hranks : [Value.null, .boolean b, .integer i, .float x, .string s].Pairwise
      fun v w => v.typeRank < w.typeRank := by
    rw [← List.pairwise_map (f := typeRank) (R := (· < ·))]
    show [0, 1, 2, 3, 4].Pairwise (· < ·)
    decide
  exact hranks.imp cmp_of_typeRank_lt

/-- Values are totally ordered, up to equality, and this order, equality and hashing agree: equal
are those values of which neither is before the other, and those that feed a hasher the same. Values
of different kinds are ordered by kind and never equal; floating-point values are ordered as
numbers, and what is not a number is equal to what else is not and above all others, the infinities
included. Rows are equal if their values are one by one, and exactly then they feed a hasher the
same; their schemas have no part in it. -/
theorem order_equality_hashing :
    (∀ u : Value, u.cmp u = .eq) ∧
    (∀ u v : Value, v.cmp u = (u.cmp v).swap) ∧
    (∀ u v w : Value, (u.cmp v).isLE = true → (v.cmp w).isLE = true → (u.cmp w).isLE = true) ∧
    (∀ u v : Value, (u.cmp v).isLE = true ∨ (v.cmp u).isLE = true) ∧
    (∀ u v : Value, (u == v) = true ↔ u.cmp v = .eq) ∧
    (∀ u v : Value, (u == v) = true ↔ u.hashFeed = v.hashFeed) ∧
    (∀ x y : Binary64, x.isNaN = false → y.isNaN = false →
      cmp (.float x) (.float y) = compare x.toEReal y.toEReal) ∧
    (∀ x y : Binary64, x.isNaN = true →
      (y.isNaN = true → (Value.float x == .float y) = true) ∧
        (y.isNaN = false → cmp (.float y) (.float x) = .lt)) ∧
    (∀ (b : Bool) (i : Int64) (x : Binary64) (s : String),
      [Value.null, .boolean b, .integer i, .float x, .string s].Pairwise
        fun v w => v.cmp w = .lt ∧ (v == w) = false) ∧
    ∀ p q : Row,
      ((p == q) = true ↔ p.values.length = q.values.length ∧
        ∀ a ∈ p.values.zip q.values, (a.1 == a.2) = true) ∧
      ((p == q) = true ↔ p.hashFeed = q.hashFeed) := by
  refine ⟨fun u => Std.ReflCmp.compare_self, fun u v => Std.OrientedCmp.eq_swap,
    fun u v w => Std.TransCmp.isLE_trans, fun u v => ?_, fun u v => beq_iff_cmp,
    fun u v => hashFeed_eq_iff.symm, fun x y hx hy => Binary64.compare_rank hx hy,
    fun x y hx => ⟨fun hy => ?_, fun hy => ?_⟩, fun b i x s => ?_, fun p q => ⟨?_, ?_⟩⟩
  · -- the comparison the other way round is the same one, reversed
    have hswap : v.cmp u = (u.cmp v).swap := Std.OrientedCmp.eq_swap
    rw [hswap]
    cases u.cmp v with
    | lt => exact .inl rfl
    | eq => exact .inl rfl
    | gt => exact .inr rfl
  · refine beq_iff_cmp.2 (compare_eq_iff_eq.2 ?_)
    rw [Binary64.rank_of_isNaN hx, Binary64.rank_of_isNaN hy]
  · exact compare_lt_iff_lt.2 (Binary64.rank_lt_of_isNaN hx hy)
  · -- the kinds of values follow each other in the order of their type ranks
    have h := ascends_kinds b i x s
    exact h.and h.pairwise_ne
  · show (p.values == q.values) = true ↔ _
    rw [list_beq_iff_forall₂, List.forall₂_iff_zip, Prod.forall]
  · exact hashFeedList_eq_iff.symm

end Value

end Tabula
