import ScriptMachine.Binary32
import Mathlib.Algebra.Order.Field.Power
import Mathlib.Data.Rat.Floor
import Mathlib.Tactic.Linarith
import Mathlib.Tactic.NormNum
import Mathlib.Tactic.Positivity
import Mathlib.Tactic.Ring

/-!
# Rounding to the nearest number

A finite number denotes a rational (`value`), and the rationals that are denoted have a significand
of twenty-four bits (`HasDigits`). To round is to give the nearest of these and, of two that are
equally near, the one with the even significand (`Rounds`). That says what the result of an
operation is without saying how it is computed; the bits come from a quotient of naturals.

* `round_rounds`: a quotient is rounded to the nearest number.
* `add_rounds`: so is the sum of two numbers.
* `floor_eq`: the floor of a number is that of the rational.

All this is about results that are small enough to be finite.
-/

namespace ScriptMachine.Binary32

/-! ## Numbers as rationals -/

/-- The factor of a sign. -/
def signFactor (negative : Bool) : ℚ := if negative then -1 else 1

/-- The rational that a finite number denotes. -/
def value (x : Binary32) : ℚ := signFactor x.negative * (x.significand * 2 ^ x.exponent)

/-- Neither infinite nor not a number. -/
def Finite (x : Binary32) : Prop := x.magnitude < infinityMagnitude

instance (x : Binary32) : Decidable x.Finite := inferInstanceAs (Decidable (_ < _))

/-- The rationals with a significand of twenty-four bits and an exponent that is not too small. -/
def HasDigits (z : ℚ) : Prop := ∃ k e : ℤ, |k| < 16777216 ∧ -149 ≤ e ∧ z = k * 2 ^ e

/-- The number is the rational, rounded: no other is nearer, and if another one is as near, it has
    the even significand. -/
structure Rounds (x : Binary32) (v : ℚ) : Prop where
  finite : x.Finite
  nearest : ∀ z, HasDigits z → |x.value - v| ≤ |z - v|
  even : ∀ z, HasDigits z → z ≠ x.value → |z - v| = |x.value - v| → Even x.significand

variable {x y : Binary32}

theorem significand_lt (x : Binary32) : x.significand < 16777216 := by
  rw [significand]
  split <;> simp only [exponentUnit] at * <;> omega

theorem le_exponent (x : Binary32) : -149 ≤ x.exponent := by
  rw [exponent]
  split <;> simp only [exponentUnit] at * <;> omega

theorem signFactor_signFactor (negative : Bool) (z : ℚ) :
    signFactor negative * (signFactor negative * z) = z := by
  cases negative <;> simp [signFactor]

theorem abs_signFactor_sub (negative : Bool) (a b : ℚ) :
    |signFactor negative * a - signFactor negative * b| = |a - b| := by
  rw [← mul_sub, abs_mul]
  cases negative <;> simp [signFactor]

theorem HasDigits.signed {z : ℚ} (h : HasDigits z) (negative : Bool) :
    HasDigits (signFactor negative * z) := by
  obtain ⟨k, e, hk, he, rfl⟩ := h
  cases negative with
  | false => exact ⟨k, e, hk, he, by simp [signFactor]⟩
  | true => exact ⟨-k, e, by rwa [abs_neg], he, by simp [signFactor]⟩

theorem hasDigits_value (x : Binary32) : HasDigits x.value := by
  have hdigits : HasDigits (x.significand * 2 ^ x.exponent) := by
    refine ⟨x.significand, x.exponent, ?_, x.le_exponent, by simp⟩
    rw [abs_of_nonneg (by omega)]
    exact_mod_cast x.significand_lt
  exact hdigits.signed x.negative

theorem Finite.isNaN_eq (h : x.Finite) : x.isNaN = false := by
  have h' : x.magnitude < infinityMagnitude := h
  simp only [isNaN, decide_eq_false_iff_not]
  omega

theorem Finite.isInfinite_eq (h : x.Finite) : x.isInfinite = false := by
  have h' : x.magnitude < infinityMagnitude := h
  simp only [isInfinite, beq_eq_false_iff_ne]
  omega

/-! ## Numbers by their magnitude -/

theorem negative_ofMagnitude (negative : Bool) {m : Nat} (hm : m < signUnit) :
    (ofMagnitude negative m).negative = negative := by
  simp only [signUnit] at hm
  cases negative <;>
    simp [ofMagnitude, Binary32.negative, BitVec.msb_eq_decide, signUnit] <;> omega

theorem magnitude_ofMagnitude (negative : Bool) {m : Nat} (hm : m < signUnit) :
    (ofMagnitude negative m).magnitude = m := by
  simp only [signUnit] at hm
  cases negative <;> simp [ofMagnitude, magnitude, signUnit] <;> omega

/-- A significand of twenty-four bits, or the next power of two, and the exponent that it counts
    from the least one. -/
theorem value_ofMagnitude (negative : Bool) {e m : Nat} (hm : m ≤ 16777216)
    (hnormal : 8388608 ≤ m ∨ e = 0) (hfinite : e * exponentUnit + m < infinityMagnitude) :
    (ofMagnitude negative (e * exponentUnit + m)).value =
        signFactor negative * (m * 2 ^ ((e : ℤ) - 149)) ∧
      (ofMagnitude negative (e * exponentUnit + m)).significand % 2 = m % 2 := by
  have hunit : exponentUnit = 8388608 := rfl
  have hlt : e * exponentUnit + m < signUnit := hfinite.trans (by decide)
  rw [value, significand, exponent, negative_ofMagnitude negative hlt,
    magnitude_ofMagnitude negative hlt]
  rcases Nat.lt_or_ge m exponentUnit with hsmall | hbig
  · obtain rfl : e = 0 := by omega
    rw [Nat.zero_mul, Nat.zero_add, if_pos hsmall, if_pos hsmall]
    exact ⟨rfl, rfl⟩
  · have hge : ¬e * exponentUnit + m < exponentUnit := by omega
    rw [if_neg hge, if_neg hge]
    rcases Nat.lt_or_eq_of_le hm with hlt | rfl
    · have hdiv : (e * exponentUnit + m) / exponentUnit = e + 1 := by
        rw [hunit] at hbig ⊢
        omega
      have hmod : (e * exponentUnit + m) % exponentUnit + exponentUnit = m := by
        rw [hunit] at hbig ⊢
        omega
      rw [hdiv, hmod, Nat.cast_add_one, show ((e : ℤ) + 1 - 150) = e - 149 by ring]
      exact ⟨rfl, rfl⟩
    · -- The significand has one bit too many: the exponent is one larger.
      have hdiv : (e * exponentUnit + 16777216) / exponentUnit = e + 2 := by
        rw [hunit]
        omega
      have hmod : (e * exponentUnit + 16777216) % exponentUnit = 0 := by
        rw [hunit]
        omega
      rw [hdiv, hmod, hunit]
      refine ⟨?_, rfl⟩
      rw [show (((e + 2 : ℕ) : ℤ) - 150) = (e - 149) + 1 by push_cast; ring,
        zpow_add_one₀ two_ne_zero]
      push_cast
      ring

theorem value_zero (negative : Bool) : (zero negative).value = 0 := by
  have h := (value_ofMagnitude negative (e := 0) (m := 0) (by decide) (.inr rfl) (by decide)).1
  simpa [zero] using h

theorem finite_zero (negative : Bool) : (zero negative).Finite := by
  rw [Finite, zero, magnitude_ofMagnitude negative (by decide)]
  decide

/-! ## Quotients -/

/-- Powers of two as quotients of naturals. -/
theorem zpow_eq_div (e : ℤ) : (2 : ℚ) ^ e = 2 ^ e.toNat / 2 ^ (-e).toNat := by
  have he : e = (e.toNat : ℤ) - ((-e).toNat : ℤ) := by omega
  conv_lhs => rw [he]
  rw [zpow_sub₀ two_ne_zero, zpow_natCast, zpow_natCast]

theorem shifted_quotient (num den : ℕ) (e : ℤ) :
    ((num <<< e.toNat : ℕ) : ℚ) / ((den <<< (-e).toNat : ℕ) : ℚ) = num / den * 2 ^ e := by
  rw [Nat.shiftLeft_eq, Nat.shiftLeft_eq, zpow_eq_div]
  push_cast
  rw [mul_div_mul_comm]

theorem nearestQuotient_spec (num : ℕ) {den : ℕ} (hden : 0 < den) :
    |(nearestQuotient num den : ℚ) - num / den| ≤ 1 / 2 ∧
      (|(nearestQuotient num den : ℚ) - num / den| = 1 / 2 → Even (nearestQuotient num den)) := by
  have hpos : (0 : ℚ) < den := by exact_mod_cast hden
  have hsplit : (num : ℚ) / den = (num / den : ℕ) + (num % den : ℕ) / den := by
    rw [div_eq_iff hpos.ne', add_mul, div_mul_cancel₀ _ hpos.ne']
    exact_mod_cast (Nat.div_add_mod' num den).symm
  have hrest : (0 : ℚ) ≤ (num % den : ℕ) / den := by positivity
  simp only [nearestQuotient]
  rw [hsplit]
  split_ifs with hless hmore
  · have ht : ((num % den : ℕ) : ℚ) / den < 1 / 2 := by
      rw [div_lt_div_iff₀ hpos two_pos]
      exact_mod_cast (by omega : num % den * 2 < 1 * den)
    have habs : |((num / den : ℕ) : ℚ) - ((num / den : ℕ) + (num % den : ℕ) / den)| =
        (num % den : ℕ) / den := by
      rw [sub_add_cancel_left, abs_neg, abs_of_nonneg hrest]
    rw [habs]
    exact ⟨ht.le, fun h => absurd h ht.ne⟩
  · have ht : 1 / 2 < ((num % den : ℕ) : ℚ) / den := by
      rw [div_lt_div_iff₀ two_pos hpos]
      exact_mod_cast (by omega : 1 * den < num % den * 2)
    have ht' : ((num % den : ℕ) : ℚ) / den < 1 := by
      rw [div_lt_one hpos]
      exact_mod_cast Nat.mod_lt num hden
    have habs : |((num / den + 1 : ℕ) : ℚ) - ((num / den : ℕ) + (num % den : ℕ) / den)| =
        1 - (num % den : ℕ) / den := by
      rw [Nat.cast_add_one, add_sub_add_left_eq_sub, abs_of_nonneg (by linarith)]
    rw [habs]
    exact ⟨by linarith, fun h => absurd h (by linarith)⟩
  · have ht : ((num % den : ℕ) : ℚ) / den = 1 / 2 := by
      rw [div_eq_div_iff hpos.ne' two_ne_zero]
      exact_mod_cast (by omega : num % den * 2 = 1 * den)
    rw [ht]
    refine ⟨?_, fun _ => Nat.even_iff.2 (by omega)⟩
    rcases Nat.mod_two_eq_zero_or_one (num / den) with h | h <;> rw [h] <;> push_cast <;>
      rw [abs_le] <;> constructor <;> linarith

theorem floorLog2_spec {num den : ℕ} (hnum : num ≠ 0) (hden : den ≠ 0) :
    (2 : ℚ) ^ floorLog2 num den ≤ num / den ∧ (num / den : ℚ) < 2 ^ (floorLog2 num den + 1) := by
  have hden' : (0 : ℚ) < den := by exact_mod_cast Nat.pos_of_ne_zero hden
  have hnumLow : (2 : ℚ) ^ num.log2 ≤ num := by exact_mod_cast Nat.log2_self_le hnum
  have hnumHigh : (num : ℚ) < 2 ^ (num.log2 + 1) := by exact_mod_cast Nat.lt_log2_self
  have hdenLow : (2 : ℚ) ^ den.log2 ≤ den := by exact_mod_cast Nat.log2_self_le hden
  have hdenHigh : (den : ℚ) < 2 ^ (den.log2 + 1) := by exact_mod_cast Nat.lt_log2_self
  have hpow (k : ℤ) : (2 : ℚ) ^ ((num.log2 : ℤ) - den.log2 + k) =
      2 ^ num.log2 / 2 ^ den.log2 * 2 ^ k := by
    rw [zpow_add₀ two_ne_zero, zpow_sub₀ two_ne_zero, zpow_natCast, zpow_natCast]
  have htest : den <<< ((num.log2 : ℤ) - den.log2).toNat ≤
      num <<< (-((num.log2 : ℤ) - den.log2)).toNat ↔
        (2 : ℚ) ^ ((num.log2 : ℤ) - den.log2) ≤ num / den := by
    rw [zpow_eq_div, div_le_div_iff₀ (by positivity) hden', Nat.shiftLeft_eq, Nat.shiftLeft_eq,
      mul_comm den]
    exact_mod_cast Iff.rfl
  simp only [floorLog2]
  split_ifs with h
  · refine ⟨htest.1 h, ?_⟩
    rw [hpow, zpow_one, div_mul_eq_mul_div, div_lt_div_iff₀ hden' (by positivity), ← pow_succ]
    exact mul_lt_mul hnumHigh hdenLow (by positivity) (by positivity)
  · -- The leading bits alone promised one bit too many.
    rw [sub_add_cancel]
    refine ⟨?_, not_le.1 (mt htest.2 h)⟩
    rw [sub_eq_add_neg, hpow, zpow_neg_one, ← div_eq_mul_inv, div_div, ← pow_succ,
      div_le_div_iff₀ (by positivity) hden']
    exact mul_le_mul hnumLow hdenHigh.le hden'.le (by positivity)

/-! ## The nearest number -/

/-- An integer within one half is the nearest one. -/
theorem nearest_int {m w : ℚ} (hm : ∃ i : ℤ, m = i) (hw : |m - w| ≤ 1 / 2) (k : ℤ) :
    |m - w| ≤ |k - w| ∧ ((k : ℚ) ≠ m → |k - w| = |m - w| → |m - w| = 1 / 2) := by
  obtain ⟨i, rfl⟩ := hm
  by_cases hk : k = i
  · subst hk
    exact ⟨le_refl _, fun h => absurd rfl h⟩
  · have hone : (1 : ℚ) ≤ |(k : ℚ) - i| := by
      exact_mod_cast Int.one_le_abs (sub_ne_zero.2 hk)
    have htriangle := abs_sub_le (k : ℚ) w i
    rw [abs_sub_comm w] at htriangle
    exact ⟨by linarith, fun _ heq => by linarith⟩

/-- A multiple of a power of two within one half of it is nearest among all that have the digits,
    if it has enough of them itself. -/
theorem nearest_multiple {v : ℚ} {q : ℤ} {m : ℕ} (hm : |(m : ℚ) - v / 2 ^ q| ≤ 1 / 2)
    (hnormal : 8388608 * 2 ^ q ≤ v ∨ q = -149) {z : ℚ} (hz : HasDigits z) :
    |m * 2 ^ q - v| ≤ |z - v| ∧
      (z ≠ m * 2 ^ q → |z - v| = |m * 2 ^ q - v| → |(m : ℚ) - v / 2 ^ q| = 1 / 2) := by
  have hq : (0 : ℚ) < 2 ^ q := by positivity
  have hscale (a : ℚ) : |a * 2 ^ q - v| = |a - v / 2 ^ q| * 2 ^ q := by
    rw [← abs_of_pos hq, ← abs_mul, abs_of_pos hq, sub_mul, div_mul_cancel₀ _ hq.ne']
  have hint (k : ℤ) := nearest_int ⟨(m : ℤ), by simp⟩ hm k
  obtain ⟨k, e, hk, he, rfl⟩ := hz
  by_cases hqe : q ≤ e
  · -- A multiple of the same power of two.
    have hmultiple : (k : ℚ) * 2 ^ e = (k * 2 ^ (e - q).toNat : ℤ) * 2 ^ q := by
      push_cast
      rw [mul_assoc, ← zpow_natCast, ← zpow_add₀ two_ne_zero]
      congr 2
      omega
    rw [hmultiple, hscale, hscale]
    refine ⟨mul_le_mul_of_nonneg_right (hint _).1 hq.le, fun hne heq => ?_⟩
    exact (hint _).2 (fun h => hne (by rw [h])) (mul_right_cancel₀ hq.ne' heq)
  · -- With a smaller exponent there are too few digits to reach the power below `v`.
    have hlarge : 8388608 * 2 ^ q ≤ v := hnormal.resolve_right (by omega)
    have hless : (k : ℚ) * 2 ^ e < 8388608 * 2 ^ q := by
      have hpow : (2 : ℚ) ^ e ≤ 2 ^ (q - 1) := zpow_le_zpow_right₀ (by norm_num) (by omega)
      have hk' : (k : ℚ) < 16777216 := by exact_mod_cast (abs_lt.1 hk).2
      calc (k : ℚ) * 2 ^ e < 16777216 * 2 ^ e := mul_lt_mul_of_pos_right hk' (by positivity)
        _ ≤ 16777216 * 2 ^ (q - 1) := mul_le_mul_of_nonneg_left hpow (by norm_num)
        _ = 8388608 * 2 ^ q := by rw [zpow_sub_one₀ two_ne_zero]; ring
    have hbound : |m * 2 ^ q - v| ≤ v - 8388608 * 2 ^ q := by
      have h := mul_le_mul_of_nonneg_right (hint 8388608).1 hq.le
      rw [← hscale, ← hscale] at h
      push_cast at h
      rwa [abs_sub_comm (8388608 * 2 ^ q), abs_of_nonneg (sub_nonneg.2 hlarge)] at h
    have hz : |(k : ℚ) * 2 ^ e - v| = v - k * 2 ^ e := by
      rw [abs_sub_comm, abs_of_nonneg (by linarith)]
    rw [hz]
    exact ⟨by linarith, fun _ heq => by linarith⟩

/-- A natural within one half is not above a natural bound. -/
theorem le_of_near {m k : ℕ} {w : ℚ} (hm : |(m : ℚ) - w| ≤ 1 / 2) (hw : w ≤ k) : m ≤ k := by
  have hless : (m : ℚ) < (k + 1 : ℕ) := by
    push_cast
    linarith [(abs_le.1 hm).2]
  exact Nat.lt_succ_iff.1 (by exact_mod_cast hless)

/-- Nor is it below one. -/
theorem ge_of_near {m k : ℕ} {w : ℚ} (hm : |(m : ℚ) - w| ≤ 1 / 2) (hw : k ≤ w) : k ≤ m := by
  have hless : (k : ℚ) < (m + 1 : ℕ) := by
    push_cast
    linarith [(abs_le.1 hm).1]
  exact Nat.lt_succ_iff.1 (by exact_mod_cast hless)

/-- Counted in the power of two that is chosen for it, a quotient has at most twenty-four bits, and
    not less unless the power is the least one. -/
theorem scale_spec {num den : ℕ} (hnum : num ≠ 0) (hden : den ≠ 0) :
    (num / den : ℚ) < 16777216 * 2 ^ max (-149) (floorLog2 num den - 23) ∧
      (8388608 * 2 ^ max (-149) (floorLog2 num den - 23) ≤ (num / den : ℚ) ∨
        max (-149) (floorLog2 num den - 23) = -149) := by
  obtain ⟨hlow, hhigh⟩ := floorLog2_spec hnum hden
  constructor
  · refine hhigh.trans_le ?_
    rw [show (16777216 : ℚ) = 2 ^ (24 : ℤ) by norm_num, ← zpow_add₀ two_ne_zero]
    exact zpow_le_zpow_right₀ one_le_two (by omega)
  · rcases le_total (-149) (floorLog2 num den - 23) with h | h
    · left
      rw [max_eq_right h, show (8388608 : ℚ) = 2 ^ (23 : ℤ) by norm_num,
        ← zpow_add₀ two_ne_zero, add_sub_cancel]
      exact hlow
    · exact .inr (max_eq_left h)

/-- **Quotients are rounded to the nearest number.** -/
theorem round_rounds (negative : Bool) {num den : ℕ} (hnum : num ≠ 0) (hden : den ≠ 0)
    (hrange : (num / den : ℚ) < 2 ^ (127 : ℤ)) :
    (round negative num den).Rounds (signFactor negative * (num / den)) := by
  obtain ⟨habove, hnormal⟩ := scale_spec hnum hden
  have hlog : floorLog2 num den < 127 :=
    (zpow_lt_zpow_iff_right₀ one_lt_two).1 ((floorLog2_spec hnum hden).1.trans_lt hrange)
  set v : ℚ := num / den
  set q : ℤ := max (-149) (floorLog2 num den - 23) with hq
  set m := nearestQuotient (num <<< (-q).toNat) (den <<< q.toNat)
  have hqpos : (0 : ℚ) < 2 ^ q := by positivity
  have hquotient : ((num <<< (-q).toNat : ℕ) : ℚ) / ((den <<< q.toNat : ℕ) : ℚ) = v / 2 ^ q := by
    have h := shifted_quotient num den (-q)
    rwa [neg_neg, zpow_neg, ← div_eq_mul_inv] at h
  have hshift : 0 < den <<< q.toNat := by
    rw [Nat.shiftLeft_eq]
    exact Nat.mul_pos (Nat.pos_of_ne_zero hden) (by positivity)
  obtain ⟨herror, htie⟩ := nearestQuotient_spec (num <<< (-q).toNat) hshift
  rw [hquotient] at herror htie
  have hm : m ≤ 16777216 := le_of_near herror ((div_lt_iff₀ hqpos).2 habove).le
  have hm' : 8388608 ≤ m ∨ (q + 149).toNat = 0 :=
    hnormal.imp (fun h => ge_of_near herror ((le_div_iff₀ hqpos).2 h)) (fun h => by omega)
  have hfinite : (q + 149).toNat * exponentUnit + m < infinityMagnitude := by
    simp only [infinityMagnitude, exponentUnit]
    omega
  have hround : round negative num den =
      ofMagnitude negative ((q + 149).toNat * exponentUnit + m) := by
    rw [round, if_neg hnum]
    exact congrArg (ofMagnitude negative) (min_eq_left hfinite.le)
  obtain ⟨hvalue, heven⟩ := value_ofMagnitude negative hm hm' hfinite
  rw [show (((q + 149).toNat : ℕ) : ℤ) - 149 = q by omega] at hvalue
  -- The sign changes no distance, so all is said of magnitudes.
  rw [hround]
  refine ⟨?_, fun z hz => ?_, fun z hz hne heq => ?_⟩
  · rw [Finite, magnitude_ofMagnitude negative (hfinite.trans (by decide))]
    exact hfinite
  · rw [hvalue, abs_signFactor_sub, ← signFactor_signFactor negative z, abs_signFactor_sub]
    exact (nearest_multiple herror hnormal (hz.signed negative)).1
  · rw [hvalue] at hne heq
    rw [abs_signFactor_sub, ← signFactor_signFactor negative z, abs_signFactor_sub] at heq
    have hhalf := (nearest_multiple herror hnormal (hz.signed negative)).2
      (fun h => hne (by rw [← h, signFactor_signFactor])) heq
    rw [Nat.even_iff, heven, ← Nat.even_iff]
    exact htie hhalf

/-! ## Sums -/

theorem signedAt_eq {e : ℤ} (h : e ≤ x.exponent) : (x.signedAt e : ℚ) * 2 ^ e = x.value := by
  have hshift : ((x.significand <<< (x.exponent - e).toNat : ℕ) : ℚ) * 2 ^ e =
      x.significand * 2 ^ x.exponent := by
    rw [Nat.shiftLeft_eq]
    push_cast
    rw [mul_assoc, ← zpow_natCast, ← zpow_add₀ two_ne_zero]
    congr 2
    omega
  rw [value, ← hshift, signedAt]
  generalize x.significand <<< (x.exponent - e).toNat = n
  cases x.negative <;> simp [signFactor]

/-- **Sums are rounded to the nearest number.** -/
theorem add_rounds (hx : x.Finite) (hy : y.Finite)
    (hrange : |x.value + y.value| < 2 ^ (127 : ℤ)) : (x.add y).Rounds (x.value + y.value) := by
  have hleft := signedAt_eq (min_le_left x.exponent y.exponent)
  have hright := signedAt_eq (min_le_right x.exponent y.exponent)
  simp only [add, hx.isNaN_eq, hy.isNaN_eq, hx.isInfinite_eq, hy.isInfinite_eq, Bool.or_self,
    Bool.false_eq_true, if_false]
  generalize min x.exponent y.exponent = e at hleft hright ⊢
  have hsum : ((x.signedAt e + y.signedAt e : ℤ) : ℚ) * 2 ^ e = x.value + y.value := by
    rw [Int.cast_add, add_mul, hleft, hright]
  generalize x.signedAt e + y.signedAt e = s at hsum ⊢
  rw [← hsum] at hrange ⊢
  split_ifs with hs
  · subst hs
    have hzero := value_zero (x.negative && y.negative)
    refine ⟨finite_zero _, fun z _ => ?_, fun z _ hne heq => ?_⟩
    · rw [hzero]
      simp
    · rw [hzero] at hne heq
      exact absurd (by simpa using heq) hne
  · have hquotient : ((s.natAbs <<< e.toNat : ℕ) : ℚ) / ((1 <<< (-e).toNat : ℕ) : ℚ) =
        |(s : ℚ)| * 2 ^ e := by
      rw [shifted_quotient, Nat.cast_one, div_one, Nat.cast_natAbs, Int.cast_abs]
    have hsign : signFactor (decide (s < 0)) * (|(s : ℚ)| * 2 ^ e) = s * 2 ^ e := by
      rcases lt_or_ge s 0 with h | h
      · have h' : (s : ℚ) < 0 := by exact_mod_cast h
        simp [signFactor, h, abs_of_neg h']
      · have h' : (0 : ℚ) ≤ s := by exact_mod_cast h
        simp [signFactor, not_lt.2 h, abs_of_nonneg h']
    have hnum : s.natAbs <<< e.toNat ≠ 0 := by
      rw [Nat.shiftLeft_eq]
      exact mul_ne_zero (Int.natAbs_ne_zero.2 hs) (by positivity)
    have hden : 1 <<< (-e).toNat ≠ 0 := by
      rw [Nat.shiftLeft_eq]
      positivity
    rw [abs_mul, abs_of_pos (by positivity : (0 : ℚ) < 2 ^ e), ← hquotient] at hrange
    have hrounds := round_rounds (decide (s < 0)) hnum hden hrange
    rwa [hquotient, hsign] at hrounds

/-! ## Floors -/

theorem floor_eq (x : Binary32) : x.floor = ⌊x.value⌋ := by
  rw [floor, ← signedAt_eq (min_le_left x.exponent 0)]
  rcases le_total 0 x.exponent with h | h
  · rw [min_eq_right h, show (-x.exponent).toNat = 0 by omega]
    simp
  · rw [min_eq_left h, Nat.shiftLeft_eq, one_mul, ← Rat.floor_intCast_div_natCast, zpow_eq_div,
      show x.exponent.toNat = 0 by omega]
    push_cast
    rw [pow_zero, one_div, div_eq_mul_inv]

end ScriptMachine.Binary32
