import Mathlib.Algebra.Order.Field.Power
import Mathlib.Tactic.Linarith
import Mathlib.Tactic.Positivity
import Mathlib.Tactic.Ring

/-!
# Floating-point numbers of a base and a precision

A number is representable when it is an integer of bounded size times a power of the base that is not
too small. A nearby number, with an error that is small for the precision, rounds back to it. So a
decimal with enough digits tells the representable numbers apart.
-/

namespace FloatingPoint

variable {K : Type*} [Field K] [LinearOrder K] [IsStrictOrderedRing K]

/-- `precision` digits in that base, and a least exponent. -/
structure Format where
  base : ℕ
  precision : ℕ
  least : ℤ
  one_lt : 1 < base

variable (f : Format)

def Format.Representable (x : K) : Prop :=
  ∃ mantissa exponent : ℤ, |mantissa| < f.base ^ f.precision ∧ f.least ≤ exponent ∧
    x = mantissa * (f.base : K) ^ exponent

/-- The exponent of the last digit of `y`, where the rounding of `y` takes place. -/
structure Format.LastPlace (y : K) (exponent : ℤ) : Prop where
  least : f.least ≤ exponent
  normal : exponent = f.least ∨ (f.base : K) ^ (exponent + f.precision - 1) ≤ y
  below : y < (f.base : K) ^ (exponent + f.precision)

variable {f}

theorem Format.base_pos (f : Format) : (0 : K) < f.base := by
  exact_mod_cast Nat.zero_lt_of_lt f.one_lt

/-- Of two powers of the base, the one with the larger exponent is a multiple of the other. -/
theorem multiple_of_le (f : Format) (mantissa : ℤ) {e e' : ℤ} (le : e ≤ e') :
    ∃ k : ℤ, (mantissa : K) * (f.base : K) ^ e' = k * (f.base : K) ^ e := by
  obtain ⟨n, difference⟩ := Int.eq_ofNat_of_zero_le (Int.sub_nonneg.mpr le)
  refine ⟨mantissa * (f.base : ℤ) ^ n, ?_⟩
  have split : e' = n + e := by omega
  rw [split, zpow_add₀ (f.base_pos (K := K)).ne', zpow_natCast]
  push_cast
  ring

/-- A representable number is at least one unit below the next power of the base. -/
theorem add_unit_le {mantissa : ℤ} {e : ℤ} (small : |mantissa| < (f.base : ℤ) ^ f.precision) :
    (mantissa : K) * (f.base : K) ^ e + (f.base : K) ^ e ≤ (f.base : K) ^ (f.precision + e) := by
  have bound : mantissa + 1 ≤ (f.base : ℤ) ^ f.precision := (abs_lt.mp small).2
  have bound' : (mantissa : K) + 1 ≤ (f.base : K) ^ f.precision := by exact_mod_cast bound
  have unit : (0 : K) < (f.base : K) ^ e := zpow_pos f.base_pos e
  calc (mantissa : K) * (f.base : K) ^ e + (f.base : K) ^ e
      = (mantissa + 1) * (f.base : K) ^ e := by ring
    _ ≤ (f.base : K) ^ f.precision * (f.base : K) ^ e := mul_le_mul_of_nonneg_right bound' unit.le
    _ = (f.base : K) ^ (f.precision + e) := by
        rw [zpow_add₀ (f.base_pos (K := K)).ne', zpow_natCast]

section Near

variable {x y : K} {digits : ℕ} {exponent : ℤ}

/-- An error relative to `x` is less than half a unit in the last place of `y`. -/
theorem error_lt (place : f.LastPlace y exponent)
    (enough : f.base ^ f.precision < digits) (near : |y - x| ≤ x / digits / 2) :
    x / digits / 2 < (f.base : K) ^ exponent / 2 := by
  have unit : (0 : K) < (f.base : K) ^ exponent := zpow_pos f.base_pos exponent
  have many : (f.base : K) ^ f.precision + 1 ≤ digits := by exact_mod_cast enough
  have power : (0 : K) < (f.base : K) ^ f.precision := pow_pos f.base_pos _
  have positive_digits : (0 : K) < digits := by linarith
  have below : y < (f.base : K) ^ f.precision * (f.base : K) ^ exponent := by
    have place := place.below
    rwa [add_comm, zpow_add₀ (f.base_pos (K := K)).ne', zpow_natCast] at place
  have low : x - x / digits / 2 ≤ y := by
    have := (abs_le.mp near).1
    linarith
  have quotient : x / digits * digits = x := div_mul_cancel₀ x positive_digits.ne'
  by_contra large
  rw [not_lt] at large
  have large : (f.base : K) ^ exponent ≤ x / digits := by linarith
  -- `y` would be at least `digits - 1/2` units, and is less than `digits - 1`.
  have whole : (x / digits) * (digits - 1 / 2) ≤ y := by
    have : (x / digits) * (digits - 1 / 2) = x - x / digits / 2 := by rw [mul_sub, quotient]; ring
    rw [this]
    exact low
  have more : (f.base : K) ^ exponent * (digits - 1 / 2) ≤ (x / digits) * (digits - 1 / 2) :=
    mul_le_mul_of_nonneg_right large (by linarith)
  have less : (f.base : K) ^ f.precision * (f.base : K) ^ exponent ≤
      (f.base : K) ^ exponent * (digits - 1 / 2) := by
    rw [mul_comm]
    exact mul_le_mul_of_nonneg_left (by linarith) unit.le
  linarith

/-- A representable number is a whole number of units in the last place of a number near it. -/
theorem whole_of_near (representable : f.Representable x)
    (place : f.LastPlace y exponent) (enough : f.base ^ f.precision < digits)
    (near : |y - x| ≤ x / digits / 2) : ∃ k : ℤ, x = k * (f.base : K) ^ exponent := by
  obtain ⟨mantissa, e, small, least, rfl⟩ := representable
  rcases le_or_gt exponent e with le | lt
  · exact multiple_of_le f mantissa le
  · -- `x` would have a smaller unit, and be a unit below the power of the base that `y` is above.
    exfalso
    have unit : (0 : K) < (f.base : K) ^ e := zpow_pos f.base_pos e
    have above : (f.base : K) ^ (f.precision + e) ≤ y := by
      rcases place.normal with same | normal
      · omega
      · refine le_trans (zpow_le_zpow_right₀ ?_ (by omega)) normal
        exact_mod_cast f.one_lt.le
    have gap := add_unit_le (K := K) (e := e) small
    have many : (f.base : K) ^ f.precision ≤ digits := by exact_mod_cast enough.le
    have power : (0 : K) < (f.base : K) ^ f.precision := pow_pos f.base_pos _
    have error : mantissa * (f.base : K) ^ e / digits < (f.base : K) ^ e := by
      rw [div_lt_iff₀ (by linarith)]
      calc (mantissa : K) * (f.base : K) ^ e
          < mantissa * (f.base : K) ^ e + (f.base : K) ^ e := by linarith
        _ ≤ (f.base : K) ^ (f.precision + e) := gap
        _ = (f.base : K) ^ e * (f.base : K) ^ f.precision := by
            rw [zpow_add₀ (f.base_pos (K := K)).ne', zpow_natCast, mul_comm]
        _ ≤ (f.base : K) ^ e * digits := mul_le_mul_of_nonneg_left many unit.le
    have := (abs_le.mp near).2
    linarith

/-- A number near a representable one rounds to it in its own last place. -/
theorem recovers (representable : f.Representable x)
    (place : f.LastPlace y exponent) (enough : f.base ^ f.precision < digits)
    (near : |y - x| ≤ x / digits / 2) :
    ∃ k : ℤ, x = k * (f.base : K) ^ exponent ∧ |y / (f.base : K) ^ exponent - k| < 1 / 2 := by
  obtain ⟨k, whole⟩ := whole_of_near representable place enough near
  have unit : (0 : K) < (f.base : K) ^ exponent := zpow_pos f.base_pos exponent
  refine ⟨k, whole, ?_⟩
  have scaled : y / (f.base : K) ^ exponent - k = (y - x) / (f.base : K) ^ exponent := by
    rw [sub_div, whole, mul_div_cancel_right₀ _ unit.ne']
  rw [scaled, abs_div, abs_of_pos unit, div_lt_iff₀ unit]
  have := error_lt place enough near
  linarith

end Near

/-- There is one integer within less than a half, if another is within a half. -/
theorem nearest_unique {q : K} {r k : ℤ} (rounded : |q - r| ≤ 1 / 2) (close : |q - k| < 1 / 2) : r = k := by
  have distance : |((r - k : ℤ) : K)| < 1 := by
    have : ((r - k : ℤ) : K) = (q - k) - (q - r) := by push_cast; ring
    rw [this]
    have := abs_sub (q - (k : K)) (q - r)
    linarith
  have integral : |r - k| < 1 := by exact_mod_cast distance
  have := abs_lt.mp integral
  omega

end FloatingPoint
