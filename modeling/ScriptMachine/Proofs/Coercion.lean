import ScriptMachine.Proofs.Nearest
import ScriptMachine.Value.Arithmetic
import Mathlib.Algebra.Ring.Int.Parity

/-!
# Integral numbers next to integers

A number with a fraction that meets an integer on its left is rounded: one half is added and the
floor is taken. Let the number be an integer already. The sum is then halfway between two integers,
and whether the floor gives the integer back depends on how the sum was rounded. Below `2 ^ 23` it
has digits enough and is exact. Above `2 ^ 24` the integers that have digits are even, and the sum
is rounded back to the one it came from. In between, every integer has digits but no half does: of
the two neighbours the even one is taken, and an odd integer becomes the next larger one
(`coerced`).

* `integral_coerced`: the integer that counts in sums, differences, products and comparisons.
* `odd_misread`: the least positive integer that is not taken for itself.
-/

namespace ScriptMachine

namespace Binary32

variable {x r : Binary32} {n : ℤ}

/-! ## Large numbers -/

theorem abs_value (x : Binary32) : |x.value| = x.significand * 2 ^ x.exponent := by
  have hnonneg : (0 : ℚ) ≤ x.significand * 2 ^ x.exponent := by positivity
  rw [value, abs_mul, abs_of_nonneg hnonneg]
  cases x.negative <;> simp [signFactor]

/-- A significand has twenty-four bits only, so that a large number has a large exponent. -/
theorem le_exponent_of_le {j : ℤ} (h : 8388608 * 2 ^ j ≤ |x.value|) : j ≤ x.exponent := by
  have hlt : (x.significand : ℚ) < 16777216 := by exact_mod_cast x.significand_lt
  have hless : (8388608 : ℚ) * 2 ^ j < 8388608 * 2 ^ (x.exponent + 1) :=
    calc (8388608 : ℚ) * 2 ^ j ≤ x.significand * 2 ^ x.exponent := h.trans_eq x.abs_value
      _ < 16777216 * 2 ^ x.exponent := mul_lt_mul_of_pos_right hlt (by positivity)
      _ = 8388608 * 2 ^ (x.exponent + 1) := by rw [zpow_add_one₀ two_ne_zero]; ring
  have hpow := lt_of_mul_lt_mul_left hless (by norm_num)
  exact Int.lt_add_one_iff.1 ((zpow_lt_zpow_iff_right₀ one_lt_two).1 hpow)

theorem value_eq_signedAt (h : 0 ≤ x.exponent) : x.value = x.signedAt 0 := by
  rw [← signedAt_eq h, zpow_zero, mul_one]

theorem even_signedAt (h : Even x.significand ∨ 0 < x.exponent) : Even (x.signedAt 0) := by
  have heven : Even (x.significand <<< (x.exponent - 0).toNat) := by
    rw [Nat.shiftLeft_eq, Nat.even_mul]
    exact h.imp_right fun hpos => even_two.pow_of_ne_zero (by omega)
  have hcast : Even ((x.significand <<< (x.exponent - 0).toNat : ℕ) : ℤ) :=
    (Int.even_coe_nat _).2 heven
  rw [signedAt]
  cases x.negative with
  | false => exact hcast
  | true => exact hcast.neg

/-- The integers beyond twenty-four bits that are numbers are even. -/
theorem even_of_large (hx : x.value = n) (hn : 16777216 ≤ |n|) : Even n := by
  have hlarge : (8388608 : ℚ) * 2 ^ (1 : ℤ) ≤ |x.value| := by
    have hn' : (16777216 : ℚ) ≤ |(n : ℚ)| := by exact_mod_cast hn
    rw [hx, zpow_one]
    linarith
  have hexponent := le_exponent_of_le hlarge
  have hsigned : n = x.signedAt 0 := by
    exact_mod_cast hx.symm.trans (value_eq_signedAt (by omega))
  rw [hsigned]
  exact even_signedAt (.inr (by omega))

/-! ## Halfway between two integers -/

theorem half_value : half.value = 1 / 2 := by
  have h := (value_ofMagnitude false (e := 125) (m := 8388608) (by decide) (.inl (le_refl _))
    (by decide)).1
  rw [show half = ofMagnitude false (125 * exponentUnit + 8388608) from rfl, h]
  norm_num [signFactor]

theorem half_finite : half.Finite := by decide

/-- The rounded half is not outside of the two integers. -/
theorem Rounds.between (hr : r.Rounds (n + 1 / 2)) (hn : HasDigits n) :
    (n : ℚ) ≤ r.value ∧ r.value ≤ n + 1 := by
  have h := hr.nearest n hn
  rw [sub_add_cancel_left, abs_neg, abs_of_pos (by norm_num : (0 : ℚ) < 1 / 2), abs_le] at h
  constructor <;> linarith [h.1, h.2]

/-- If the larger one is taken, the significand is even. -/
theorem Rounds.even_above (hr : r.Rounds (n + 1 / 2)) (hn : HasDigits n)
    (h : r.value = n + 1) : Even r.significand := by
  refine hr.even n hn (by rw [h]; linarith) ?_
  rw [h, abs_sub_comm]
  congr 1
  ring

/-- If the smaller one is taken although the larger one has digits, the significand is even. -/
theorem Rounds.even_below (hr : r.Rounds (n + 1 / 2)) (hn : HasDigits (n + 1))
    (h : r.value = n) : Even r.significand := by
  refine hr.even (n + 1) hn (by rw [h]; linarith) ?_
  rw [h, abs_sub_comm]
  congr 1
  ring

/-- A half of less than twenty-four bits is exact. -/
theorem Rounds.exact_half (hr : r.Rounds (n + 1 / 2)) (hlow : -8388608 ≤ n) (hhigh : n < 8388608) :
    r.value = n + 1 / 2 := by
  have hdigits : HasDigits (n + 1 / 2) := by
    refine ⟨2 * n + 1, -1, ?_, by decide, ?_⟩
    · rw [abs_lt]
      omega
    · push_cast
      rw [zpow_neg_one]
      ring
  have h := hr.nearest _ hdigits
  rw [sub_self, abs_zero] at h
  exact sub_eq_zero.1 (abs_eq_zero.1 (le_antisymm h (abs_nonneg _)))

/-- Beyond that it is rounded to an integer. -/
theorem Rounds.exists_int (hr : r.Rounds (n + 1 / 2)) (hn : HasDigits n)
    (hlarge : 8388608 ≤ n ∨ n < -8388608) :
    r.value = r.signedAt 0 ∧ (r.signedAt 0 = n ∨ r.signedAt 0 = n + 1) := by
  obtain ⟨hlow, hhigh⟩ := hr.between hn
  have habs : (8388608 : ℚ) * 2 ^ (0 : ℤ) ≤ |r.value| := by
    rw [zpow_zero, mul_one, le_abs]
    refine hlarge.imp (fun h => ?_) (fun h => ?_)
    · exact le_trans (by exact_mod_cast h) hlow
    · have h' : (n : ℚ) + 1 ≤ -8388608 := by exact_mod_cast h
      linarith
  have hvalue := value_eq_signedAt (le_exponent_of_le habs)
  rw [hvalue] at hlow hhigh
  have hlow' : n ≤ r.signedAt 0 := by exact_mod_cast hlow
  have hhigh' : r.signedAt 0 ≤ n + 1 := by exact_mod_cast hhigh
  exact ⟨hvalue, by omega⟩

/-- The integer that an integral number becomes next to an integer: itself, or the next one if it is
    odd and has exactly twenty-four bits. -/
def coerced (n : ℤ) : ℤ := if n % 2 = 1 ∧ 8388608 < |n| ∧ |n| < 16777216 then n + 1 else n

/-- The larger of the two integers is taken for odd ones of twenty-four bits only. -/
theorem Rounds.above_iff (hx : x.value = n) (hr : r.Rounds (n + 1 / 2)) :
    r.value = n + 1 ↔ n % 2 = 1 ∧ 8388608 < |n| ∧ |n| < 16777216 := by
  have hn : HasDigits n := hx ▸ x.hasDigits_value
  constructor
  · intro h
    -- The sum was not exact.
    have hlarge : 8388608 ≤ n ∨ n < -8388608 := by
      by_contra hsmall
      have := hr.exact_half (by omega) (by omega)
      linarith
    have hodd : n % 2 = 1 := by
      have hsigned : r.signedAt 0 = n + 1 := by
        exact_mod_cast (hr.exists_int hn hlarge).1.symm.trans h
      have heven := Int.even_iff.1 (even_signedAt (.inl (hr.even_above hn h)))
      omega
    -- Larger integers are even, this one is odd.
    have hfew : |n| < 16777216 := by
      by_contra hmany
      have := Int.even_iff.1 (even_of_large hx (not_lt.1 hmany))
      omega
    refine ⟨hodd, ?_, hfew⟩
    rw [lt_abs]
    omega
  · rintro ⟨hodd, hmany, hfew⟩
    rw [lt_abs] at hmany
    rw [abs_lt] at hfew
    obtain ⟨hvalue, hbelow | habove⟩ := hr.exists_int hn (by omega)
    · -- The smaller one is odd, and the larger one is as near.
      have hdigits : HasDigits (n + 1) := by
        refine ⟨(n + 1) / 2, 1, by rw [abs_lt]; omega, by decide, ?_⟩
        rw [zpow_one]
        exact_mod_cast (by omega : n + 1 = (n + 1) / 2 * 2)
      have heven := even_signedAt (.inl (hr.even_below hdigits (by rw [hvalue, hbelow])))
      rw [hbelow, Int.even_iff] at heven
      omega
    · rw [hvalue, habove]
      push_cast
      rfl

theorem Rounds.floor_half (hx : x.value = n) (hr : r.Rounds (n + 1 / 2)) : r.floor = coerced n := by
  have hiff := hr.above_iff hx
  obtain ⟨hlow, hhigh⟩ := hr.between (hx ▸ x.hasDigits_value)
  rw [floor_eq, coerced]
  split_ifs with h
  · rw [hiff.2 h]
    exact_mod_cast Int.floor_intCast (n + 1)
  · exact Int.floor_eq_iff.2 ⟨hlow, lt_of_le_of_ne hhigh (mt hiff.1 h)⟩

/-- No integer leaves the range of words. -/
theorem coerced_range (hlow : -2147483648 ≤ n) (hhigh : n < 2147483648) :
    -2147483648 ≤ coerced n ∧ coerced n < 2147483648 := by
  rw [coerced]
  split_ifs with h
  · have := (abs_lt.1 h.2.2).2
    omega
  · exact ⟨hlow, hhigh⟩

end Binary32

namespace Value

open Binary32

variable {x : Binary32} {n : ℤ}

/-! ## Operations -/

theorem roundToInt_integral (hx : x.Finite) (hn : x.value = n) (hlow : -2147483648 ≤ n)
    (hhigh : n < 2147483648) : roundToInt x = .ok (.ofInt (coerced n)) := by
  have hsum : |x.value + half.value| < 2 ^ (127 : ℤ) := by
    have hlow' : (-2147483648 : ℚ) ≤ n := by exact_mod_cast hlow
    have hhigh' : (n : ℚ) < 2147483648 := by exact_mod_cast hhigh
    have hpow : (2147483649 : ℚ) < 2 ^ (127 : ℤ) := by norm_num
    rw [hn, half_value, abs_lt]
    constructor <;> linarith
  have hr := add_rounds hx half_finite hsum
  rw [hn, half_value] at hr
  have hclamp : max (-2147483648) (min 2147483647 (coerced n)) = coerced n := by
    have := coerced_range hlow hhigh
    omega
  rw [roundToInt, hx.isNaN_eq, floorToWord, hr.finite.isNaN_eq, hr.finite.isInfinite_eq,
    hr.floor_half hn, hclamp]
  rfl

/-- **Integral numbers next to integers.** An integral number in the range of words, on the right of
    an integer, is taken as itself in sums, differences, products and comparisons, or as the next
    integer if it is odd and has exactly twenty-four bits. -/
theorem integral_coerced (a : Int32) {x : Binary32} {n : ℤ} (hx : x.Finite) (hn : x.value = n)
    (hlow : -2147483648 ≤ n) (hhigh : n < 2147483648) :
    add (int a) (float x) = .ok (int (.ofInt (a.toInt + coerced n))) ∧
      sub (int a) (float x) = .ok (int (.ofInt (a.toInt - coerced n))) ∧
      mul (int a) (float x) = .ok (int (.ofInt (a.toInt * coerced n))) ∧
      ∀ c, compare c (int a) (float x) = .ok (boolean (c.onInts a.toInt (coerced n))) := by
  have hround := roundToInt_integral hx hn hlow hhigh
  have hrange := coerced_range hlow hhigh
  refine ⟨?_, ?_, ?_, fun c => ?_⟩
  · rw [Int32.ofInt_add, Int32.ofInt_toInt]
    simp only [add, arithmetic, hround]
    rfl
  · rw [Int32.ofInt_sub, Int32.ofInt_toInt]
    simp only [sub, arithmetic, hround]
    rfl
  · rw [Int32.ofInt_mul, Int32.ofInt_toInt]
    simp only [mul, arithmetic, hround]
    rfl
  · have hword : (Int32.ofInt (coerced n)).toInt = coerced n :=
      Int32.toInt_ofInt_of_le hrange.1 hrange.2
    simp only [compare, hround]
    conv_rhs => rw [← hword]
    rfl

/-- The largest integral number in the range of words is taken as itself. -/
theorem integral_coerced_largest :
    (⟨0x4EFFFFFF⟩ : Binary32).Finite ∧ (⟨0x4EFFFFFF⟩ : Binary32).value = (2147483520 : ℤ) ∧
      add (int 1) (float ⟨0x4EFFFFFF⟩) = .ok (int 2147483521) := by
  have hfinite : (⟨0x4EFFFFFF⟩ : Binary32).Finite := by decide
  have hvalue : (⟨0x4EFFFFFF⟩ : Binary32).value = (2147483520 : ℤ) := by
    rw [value, show (⟨0x4EFFFFFF⟩ : Binary32).significand = 16777215 by decide,
      show (⟨0x4EFFFFFF⟩ : Binary32).exponent = 7 by decide,
      show (⟨0x4EFFFFFF⟩ : Binary32).negative = false by decide]
    norm_num [signFactor]
  exact ⟨hfinite, hvalue, (integral_coerced 1 hfinite hvalue (by decide) (by decide)).1⟩

/-- The least positive integer that is not taken as itself: it is added as the next one, and the
    same integer on the left is not at least as large. -/
theorem odd_misread :
    (⟨0x4B000001⟩ : Binary32).Finite ∧ (⟨0x4B000001⟩ : Binary32).value = (8388609 : ℤ) ∧
      add (int 1) (float ⟨0x4B000001⟩) = .ok (int 8388611) ∧
      compare .gte (int 8388609) (float ⟨0x4B000001⟩) = .ok (boolean false) := by
  have hvalue : (⟨0x4B000001⟩ : Binary32).value = (8388609 : ℤ) := by
    rw [value, show (⟨0x4B000001⟩ : Binary32).significand = 8388609 by decide,
      show (⟨0x4B000001⟩ : Binary32).exponent = 0 by decide,
      show (⟨0x4B000001⟩ : Binary32).negative = false by decide]
    norm_num [signFactor]
  exact ⟨by decide, hvalue, rfl, rfl⟩

end Value

end ScriptMachine
