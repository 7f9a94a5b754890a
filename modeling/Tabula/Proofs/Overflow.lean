import Mathlib
import Tabula.Json.Number
import Tabula.Proofs.Numeric

/-!
# Integer literals beyond the floating-point numbers

A literal that no integer of 64 bits stands for is read as a floating-point number, in steps: the
digits that fit 64 bits are rounded, then a power of ten is, and then their product. Each step rises
with what it is given, so that there is one integer from which on the product is beyond the largest
finite number. Because of the two roundings before the last one, this integer is a little less than
the largest finite number itself.

* `Grid.nearest_mono` — a greater number is rounded to a greater magnitude.
* `Json.Number.appendDigits_spec` — the digits that fit are the leading ones of the number.
* `Json.Number.product_mono` — so is a greater number of digits with more zeros behind them.
* `Json.Number.overflow`, `Json.Number.stepwise?_eq_none_iff` — the first integer that is too large.
-/

namespace Tabula

/-! ### Rounding rises -/

/-- A greater number, divided by the same, is not rounded to a smaller quotient. -/
theorem roundDiv_mono {a b d : Nat} (h : a ≤ b) : roundDiv a d ≤ roundDiv b d := by
  have hq : a / d ≤ b / d := Nat.div_le_div_right h
  obtain hlt | heq := Nat.lt_or_eq_of_le hq
  · -- the smaller one goes up at most to the quotient of the greater one
    simp only [roundDiv]
    split <;> split <;> omega
  · -- with one quotient the greater one has the greater remainder
    have hr : a % d ≤ b % d := by
      have ha := Nat.div_add_mod a d
      have hb := Nat.div_add_mod b d
      rw [heq] at ha
      omega
    simp only [roundDiv, heq]
    split <;> split <;> omega

namespace Grid

variable {g : Grid} {num num' den : Nat}

/-- How many doublings of the smallest step leave a significand that can be stored. -/
def doublings (g : Grid) (num den : Nat) : Nat := (num * g.unitsPerOne / den).log2 - g.fractionBits

/-- The significand in steps of that size. -/
def significand (g : Grid) (num den : Nat) : Nat :=
  roundDiv (num * g.unitsPerOne) (den * 2 ^ g.doublings num den)

/-- A magnitude is numbered by its binade and its significand, and is infinity at most. -/
theorem nearest_eq (g : Grid) (num den : Nat) : g.nearest num den =
    min g.infinity (g.doublings num den * g.binade + g.significand num den) := rfl

/-- A greater number is in no lower binade. -/
theorem doublings_mono (h : num ≤ num') : g.doublings num den ≤ g.doublings num' den := by
  have hscaled : num * g.unitsPerOne / den ≤ num' * g.unitsPerOne / den :=
    Nat.div_le_div_right (Nat.mul_le_mul_right _ h)
  rw [doublings, doublings, Nat.log2_eq_log_two, Nat.log2_eq_log_two]
  exact Nat.sub_le_sub_right (Nat.log_mono_right hscaled) _

/-- A significand has one bit more than are stored, and rounding up may bring it to the next power
of two. -/
theorem significand_le (g : Grid) (num den : Nat) : g.significand num den ≤ 2 * g.binade := by
  have hlt : num * g.unitsPerOne / (den * 2 ^ g.doublings num den) < 2 * g.binade := by
    rw [← Nat.div_div_eq_div_mul, Nat.div_lt_iff_lt_mul (Nat.pow_pos Nat.two_pos)]
    -- the number is below the next power of two, and the doublings take up the excess
    calc num * g.unitsPerOne / den < 2 ^ ((num * g.unitsPerOne / den).log2 + 1) :=
          Nat.lt_log2_self
      _ ≤ 2 ^ (1 + g.fractionBits + g.doublings num den) := by
          refine Nat.pow_le_pow_right Nat.two_pos ?_
          rw [doublings]
          omega
      _ = 2 * g.binade * 2 ^ g.doublings num den := by
          rw [Nat.pow_add, Nat.pow_add]
          rfl
  rw [significand]
  simp only [roundDiv]
  split <;> omega

/-- Where steps are doubled at all, the significand has all its bits. -/
theorem le_significand (h : 0 < g.doublings num den) : g.binade ≤ g.significand num den := by
  have hlog : (num * g.unitsPerOne / den).log2 = g.fractionBits + g.doublings num den := by
    rw [doublings] at h ⊢
    omega
  have hne : num * g.unitsPerOne / den ≠ 0 := by
    intro hzero
    rw [hzero, Nat.log2_zero] at hlog
    omega
  have hle : g.binade ≤ num * g.unitsPerOne / (den * 2 ^ g.doublings num den) := by
    rw [← Nat.div_div_eq_div_mul, Nat.le_div_iff_mul_le (Nat.pow_pos Nat.two_pos)]
    -- the highest bit of the number is the one that the binade begins with
    calc g.binade * 2 ^ g.doublings num den = 2 ^ (num * g.unitsPerOne / den).log2 := by
          rw [hlog, Nat.pow_add]
          rfl
      _ ≤ num * g.unitsPerOne / den := Nat.log2_self_le hne
  rw [significand]
  simp only [roundDiv]
  split <;> omega

/-- A greater number is rounded to a greater magnitude. -/
theorem nearest_mono (h : num ≤ num') : g.nearest num den ≤ g.nearest num' den := by
  rw [nearest_eq, nearest_eq]
  refine min_le_min le_rfl ?_
  have hdoublings : g.doublings num den ≤ g.doublings num' den := doublings_mono h
  obtain hlt | heq := Nat.lt_or_eq_of_le hdoublings
  · -- a carry into the next binade goes no further than to where the next one begins
    have hlower := g.significand_le num den
    have hupper : g.binade ≤ g.significand num' den := le_significand (Nat.zero_lt_of_lt hlt)
    calc g.doublings num den * g.binade + g.significand num den
        ≤ g.doublings num den * g.binade + 2 * g.binade := Nat.add_le_add_left hlower _
      _ = (g.doublings num den + 1) * g.binade + g.binade := by ring
      _ ≤ g.doublings num' den * g.binade + g.significand num' den :=
          Nat.add_le_add (Nat.mul_le_mul_right _ hlt) hupper
  · rw [significand, significand, heq]
    exact Nat.add_le_add_left (roundDiv_mono (Nat.mul_le_mul_right _ h)) _

end Grid

namespace Json.Number

variable {m m' k k' : Nat} {cs rest : List Char}

theorem powerUnits_mono (h : k ≤ k') : powerUnits k ≤ powerUnits k' :=
  Grid.double.units_strictMono.monotone
    (Grid.nearest_mono (Nat.pow_le_pow_right (by decide) h))

/-- A magnitude times a power of ten, each of them rounded before. -/
def product (m k : Nat) : Nat :=
  Grid.double.nearest (Grid.double.units m * powerUnits k)
    (Grid.double.unitsPerOne * Grid.double.unitsPerOne)

/-- The product rises with the magnitude of the digits and with the power of ten. -/
theorem product_mono (hm : m ≤ m') (hk : k ≤ k') : product m k ≤ product m' k' :=
  Grid.nearest_mono
    (Nat.mul_le_mul (Grid.double.units_strictMono.monotone hm) (powerUnits_mono hk))

/-- There is no magnitude beyond the largest finite one. -/
theorem scale?_natCast_eq_none_iff : scale? m k = none ↔
    m ≠ 0 ∧ (308 < k ∨ Grid.double.infinity ≤ product m k) := by
  have hk : ¬((k : Int) < -308) := by omega
  have hk' : ¬((k : Int) < 0) := by omega
  rw [scale?, dif_neg hk, if_neg hk', Int.toNat_natCast]
  by_cases hm : m = 0
  · simp [hm]
  rw [if_neg hm]
  by_cases hlarge : 308 < k
  · rw [if_pos (by omega)]
    simp [hm, hlarge]
  · rw [if_neg (by omega)]
    show (if product m k < Grid.double.infinity then some (product m k) else none) = none ↔ _
    simp [hm, hlarge]

/-! ### The digits that fit -/

/-- The digits that are taken are the leading ones. Digits are left over only if the first of them
would not fit any more. -/
theorem appendDigits_spec {acc s : Nat} (h : appendDigits acc cs = (s, rest))
    (hacc : acc < UInt64.size) : s < UInt64.size ∧ rest <:+ cs ∧
      Nat.ofDigitChars 10 cs acc = Nat.ofDigitChars 10 rest s ∧
      ∀ c ∈ rest.head?, UInt64.size ≤ 10 * s + (c.toNat - '0'.toNat) := by
  induction cs generalizing acc with
  | nil =>
    obtain ⟨rfl, rfl⟩ := Prod.mk.inj h
    exact ⟨hacc, List.suffix_rfl, rfl, fun c hc => by cases hc⟩
  | cons c cs ih =>
    rw [appendDigits] at h
    split at h
    · next hfits =>
      obtain ⟨hs, hsuffix, hvalue, hfull⟩ := ih h hfits
      rw [Nat.ofDigitChars_cons]
      exact ⟨hs, hsuffix.trans (List.suffix_cons c cs), hvalue, hfull⟩
    · next hfull =>
      obtain ⟨rfl, rfl⟩ := Prod.mk.inj h
      refine ⟨hacc, List.suffix_rfl, rfl, fun d hd => ?_⟩
      obtain rfl := Option.some.inj hd
      exact Nat.not_lt.1 hfull

/-- The value of a digit is less than ten. -/
theorem digit_lt_ten {c : Char} (h : c.isDigit = true) : c.toNat - '0'.toNat < 10 := by
  simp only [Char.isDigit, Bool.and_eq_true, decide_eq_true_eq] at h
  have hle : c.toNat ≤ '9'.toNat := UInt32.le_iff_toNat_le.1 h.2
  have hnine : '9'.toNat = '0'.toNat + 9 := rfl
  omega

/-- Digits that follow a number add less than one to it, on the scale that they shift it to. -/
theorem ofDigitChars_lt (h : ∀ c ∈ cs, c.isDigit = true) (init : Nat) :
    Nat.ofDigitChars 10 cs init < (init + 1) * 10 ^ cs.length := by
  induction cs generalizing init with
  | nil => simp
  | cons c cs ih =>
    have hc := digit_lt_ten (h c List.mem_cons_self)
    rw [Nat.ofDigitChars_cons, List.length_cons, Nat.pow_succ']
    calc Nat.ofDigitChars 10 cs (10 * init + (c.toNat - '0'.toNat))
        < (10 * init + (c.toNat - '0'.toNat) + 1) * 10 ^ cs.length :=
          ih (fun d hd => h d (List.mem_cons_of_mem c hd)) _
      _ ≤ (10 * (init + 1)) * 10 ^ cs.length := Nat.mul_le_mul_right _ (by omega)
      _ = (init + 1) * (10 * 10 ^ cs.length) := by ring

/-- Digits that follow a number shift it by their count and take nothing away. -/
theorem le_ofDigitChars (cs : List Char) (init : Nat) :
    init * 10 ^ cs.length ≤ Nat.ofDigitChars 10 cs init := by
  rw [Nat.ofDigitChars_eq_ofDigitChars_zero, Nat.mul_comm]
  exact Nat.le_add_right _ _

/-! ### The first integer that is too large -/

/-- Integers from this one on are beyond the range of the reader. -/
def overflow : Nat := 17976931348623156225 * 10 ^ 289

/-- With at most 288 digits behind them, no leading digits are too large. -/
theorem product_lt_of_le {s : Nat} (hs : s < UInt64.size) (hk : k ≤ 288) :
    product (Grid.double.nearest s 1) k < Grid.double.infinity :=
  calc product (Grid.double.nearest s 1) k
      ≤ product (Grid.double.nearest (UInt64.size - 1) 1) 288 :=
        product_mono (Grid.nearest_mono (Nat.le_sub_one_of_lt hs)) hk
    _ < Grid.double.infinity := by decide +kernel

/-- With 289 digits behind them, the leading digits decide. -/
theorem infinity_le_product_iff {s : Nat} :
    Grid.double.infinity ≤ product (Grid.double.nearest s 1) 289 ↔ 17976931348623156225 ≤ s := by
  constructor
  · intro h
    -- the product rises with the digits, so the greatest number below the limit decides
    by_contra hs
    have hlt : product (Grid.double.nearest s 1) 289 < Grid.double.infinity :=
      calc product (Grid.double.nearest s 1) 289
          ≤ product (Grid.double.nearest 17976931348623156224 1) 289 :=
            product_mono (Grid.nearest_mono (by omega)) le_rfl
        _ < Grid.double.infinity := by decide +kernel
    exact absurd h (Nat.not_le.2 hlt)
  · intro hs
    -- and so does the limit itself
    calc Grid.double.infinity
        ≤ product (Grid.double.nearest 17976931348623156225 1) 289 := by decide +kernel
      _ ≤ product (Grid.double.nearest s 1) 289 := product_mono (Grid.nearest_mono hs) le_rfl

/-- With more digits behind them, all leading digits that are as many as fit are too large. -/
theorem infinity_le_product_of_le {s : Nat} (hs : 1844674407370955161 ≤ s) (hk : 290 ≤ k) :
    Grid.double.infinity ≤ product (Grid.double.nearest s 1) k :=
  calc Grid.double.infinity
      ≤ product (Grid.double.nearest 1844674407370955161 1) 290 := by decide +kernel
    _ ≤ product (Grid.double.nearest s 1) k := product_mono (Grid.nearest_mono hs) hk

/-- A number that is not zero is not rounded to zero. -/
theorem nearest_ne_zero {s : Nat} (hs : 0 < s) : Grid.double.nearest s 1 ≠ 0 := by
  have hone : 0 < Grid.double.nearest 1 1 := by decide +kernel
  have hle : Grid.double.nearest 1 1 ≤ Grid.double.nearest s 1 := Grid.nearest_mono hs
  omega

/-- Leading digits and the number of digits behind them tell whether an integer is too large. -/
theorem scale?_eq_none_iff_overflow_le {s k v : Nat} (hs : s < UInt64.size)
    (hfull : 0 < k → 1844674407370955161 ≤ s) (hle : s * 10 ^ k ≤ v) (hlt : v < (s + 1) * 10 ^ k) :
    scale? (Grid.double.nearest s 1) k = none ↔ overflow ≤ v := by
  rw [scale?_natCast_eq_none_iff, overflow]
  obtain hk | rfl | hk : k ≤ 288 ∨ k = 289 ∨ 290 ≤ k := by omega
  · -- few digits: the number is below the limit, and so is the product
    have hproduct := product_lt_of_le hs hk
    have hv : v < 17976931348623156225 * 10 ^ 289 :=
      calc v < (s + 1) * 10 ^ k := hlt
        _ ≤ UInt64.size * 10 ^ 288 :=
            Nat.mul_le_mul hs (Nat.pow_le_pow_right (by decide) hk)
        _ ≤ 17976931348623156225 * 10 ^ 289 := by decide +kernel
    constructor
    · rintro ⟨-, hlarge | hinf⟩
      · omega
      · exact absurd hinf (Nat.not_le.2 hproduct)
    · intro h
      exact absurd h (Nat.not_le.2 hv)
  · -- just as many: the leading digits decide, as what follows is less than one of theirs
    have hsv : 17976931348623156225 ≤ s ↔ 17976931348623156225 * 10 ^ 289 ≤ v := by
      constructor
      · intro h
        exact (Nat.mul_le_mul_right _ h).trans hle
      · intro h
        have hsucc : 17976931348623156225 < s + 1 :=
          Nat.lt_of_mul_lt_mul_right (h.trans_lt hlt)
        omega
    rw [infinity_le_product_iff, hsv]
    constructor
    · rintro ⟨-, hlarge | hv⟩
      · omega
      · exact hv
    · intro hv
      exact ⟨nearest_ne_zero (by have := hfull (by decide); omega), .inr hv⟩
  · -- many digits: there are as many leading digits as fit, which is too much
    have hs' : 1844674407370955161 ≤ s := hfull (by omega)
    have hv : 17976931348623156225 * 10 ^ 289 ≤ v :=
      calc 17976931348623156225 * 10 ^ 289 ≤ 1844674407370955161 * 10 ^ 290 := by decide +kernel
        _ ≤ s * 10 ^ k := Nat.mul_le_mul hs' (Nat.pow_le_pow_right (by decide) hk)
        _ ≤ v := hle
    constructor
    · intro _
      exact hv
    · intro _
      exact ⟨nearest_ne_zero (by omega), .inr (infinity_le_product_of_le hs' hk)⟩

/-- The literal of an integer is too large for the reader exactly from one integer on. -/
theorem stepwise?_eq_none_iff {n : Number} (hfraction : n.fraction = [])
    (hexponent : n.exponent = none) (hdigits : ∀ c ∈ n.whole, c.isDigit = true) :
    n.stepwise? = none ↔ overflow ≤ digitsValue n.whole := by
  obtain ⟨s, rest, hsplit⟩ : ∃ s rest, appendDigits 0 n.whole = (s, rest) := ⟨_, _, rfl⟩
  obtain ⟨hs, hsuffix, hvalue, hfull⟩ := appendDigits_spec hsplit (by decide)
  have hstepwise : n.stepwise? = scale? (Grid.double.nearest s 1) (rest.length : Int) := by
    simp [stepwise?, hsplit, hfraction, hexponent, appendDigits]
  have hrest : ∀ c ∈ rest, c.isDigit = true := fun c hc => hdigits c (hsuffix.subset hc)
  rw [hstepwise, digitsValue, hvalue]
  refine scale?_eq_none_iff_overflow_le hs (fun hk => ?_) (le_ofDigitChars rest s)
    (ofDigitChars_lt hrest s)
  -- a digit is left over only if one more would not fit, so those taken make a great number
  obtain ⟨c, cs, rfl⟩ := List.exists_cons_of_ne_nil (List.ne_nil_of_length_pos hk)
  have hc := digit_lt_ten (hrest c List.mem_cons_self)
  have hsize := hfull c rfl
  have hvalue : UInt64.size = 18446744073709551616 := rfl
  omega

end Json.Number

end Tabula
