import FourFunction.Proofs.ExactValues
import FourFunction.Proofs.ShownResult

/-!
# Significant digits

A rounded magnitude is the nearest multiple of a power of ten (`isRounded_rounded`).  With few
digits, rounding the rank read from it gives that rank again (`rankOf_rounded_rankOf`): either
decimals are sparser than magnitudes, or, below rank `2 ^ 52`, the rounded one is nearer.
-/

namespace FourFunction

namespace Decimal

variable {rank n : ℕ}

/-! ### The leading place -/

theorem ten_zpow_pos (place : ℤ) : (0 : ℚ) < 10 ^ place := by positivity

theorem ten_zpow_natCast_sub (k scale : ℕ) : (10 : ℚ) ^ (k - scale : ℤ) = 10 ^ k / 10 ^ scale := by
  rw [zpow_sub₀ (by norm_num), zpow_natCast, zpow_natCast]

theorem zpow_leadingPlace_le (hrank : rank ≠ 0) :
    (10 : ℚ) ^ leadingPlace rank ≤ Binary64.magnitude rank := by
  obtain ⟨scale, k, hlead, hunits⟩ := exists_pow_le_units hrank
  have hcast : (10 : ℚ) ^ k * Binary64.unitsPerOne ≤ Binary64.units rank * 10 ^ scale := by
    exact_mod_cast hunits
  rw [hlead, ten_zpow_natCast_sub, Binary64.magnitude,
    div_le_div_iff₀ (by positivity) Binary64.unitsPerOne_pos]
  exact hcast

theorem lt_pow_digitCount (n : ℕ) : n < 10 ^ digitCount n := by
  have hpos : 0 < digitCount n := List.length_pos_iff.2 Nat.toDigits_ne_nil
  exact (Nat.length_toDigits_le_iff (by decide) hpos).1 le_rfl

/-- The magnitude of a rank is below `10 ^ (leadingPlace + 1)`. -/
theorem exists_units_lt_pow (rank : ℕ) :
    ∃ scale k : ℕ, leadingPlace rank + 1 = k - scale ∧
      Binary64.units rank * 10 ^ scale < 10 ^ k * Binary64.unitsPerOne := by
  obtain ⟨scale, -, hplace⟩ := exists_leadingPlace_eq rank
  have hlt := lt_pow_digitCount (Binary64.units rank * 10 ^ scale / Binary64.unitsPerOne)
  rw [Nat.div_lt_iff_lt_mul unitsPerOne_pos] at hlt
  refine ⟨scale, _, ?_, hlt⟩
  rw [hplace]
  omega

theorem magnitude_lt_zpow (rank : ℕ) :
    Binary64.magnitude rank < 10 ^ (leadingPlace rank + 1) := by
  obtain ⟨scale, k, hlead, hunits⟩ := exists_units_lt_pow rank
  have hcast : (Binary64.units rank : ℚ) * 10 ^ scale < 10 ^ k * Binary64.unitsPerOne := by
    exact_mod_cast hunits
  rw [hlead, ten_zpow_natCast_sub, Binary64.magnitude,
    div_lt_div_iff₀ Binary64.unitsPerOne_pos (by positivity)]
  exact hcast

/-! ### Rounding to significant digits -/

theorem gridNum_div_gridDen (rank : ℕ) (place : ℤ) :
    (gridNum rank place / gridDen place : ℚ) = Binary64.magnitude rank / 10 ^ place := by
  have hnum : gridNum rank place = Binary64.units rank * 10 ^ (-place).toNat := rfl
  rw [hnum, gridDen_eq, ten_zpow_eq_div, Binary64.magnitude, div_div_div_eq]
  generalize Binary64.unitsPerOne = one
  push_cast
  rfl

theorem isRounded_rounded (rank n : ℕ) :
    IsRounded (Binary64.magnitude rank / 10 ^ lastPlace rank n) (rounded rank n).coefficient := by
  rw [← gridNum_div_gridDen, rounded]
  dsimp only
  exact isRounded_roundedQuotient _ (gridDen_pos _)

theorem magnitude_rounded (rank n : ℕ) :
    (rounded rank n).magnitude = (rounded rank n).coefficient * 10 ^ lastPlace rank n := rfl

theorem abs_magnitude_rounded_sub_le (rank n : ℕ) :
    |(rounded rank n).magnitude - Binary64.magnitude rank| ≤ 10 ^ lastPlace rank n / 2 :=
  (isRounded_rounded rank n).abs_mul_sub_le (ten_zpow_pos _)

theorem pow_mul_zpow_lastPlace (rank n : ℕ) :
    (10 : ℚ) ^ n * 10 ^ lastPlace rank n = 10 ^ (leadingPlace rank + 1) := by
  rw [← zpow_natCast, ← zpow_add₀ (by norm_num), lastPlace]
  congr 1
  omega

theorem pow_pred_mul_zpow_lastPlace (rank : ℕ) (hn : n ≠ 0) :
    (10 : ℚ) ^ (n - 1) * 10 ^ lastPlace rank n = 10 ^ leadingPlace rank := by
  rw [← zpow_natCast, ← zpow_add₀ (by norm_num), lastPlace]
  congr 1
  omega

theorem magnitude_rounded_le (rank n : ℕ) :
    (rounded rank n).magnitude ≤ 10 ^ (leadingPlace rank + 1) := by
  have hlt := magnitude_lt_zpow rank
  rw [← pow_mul_zpow_lastPlace rank n] at hlt ⊢
  have hnear := (isRounded_rounded rank n).abs_mul_sub_le_abs_mul_sub (ten_zpow_pos _) (10 ^ n)
  push_cast at hnear
  rw [← magnitude_rounded, abs_of_pos (sub_pos.2 hlt)] at hnear
  have hle := (abs_le.1 hnear).2
  linarith

/-! ### Rounding once more -/

/-- A decimal is a multiple of every finer place. -/
theorem exists_natCast_mul_zpow {d : Decimal} {place : ℤ} (hle : place ≤ d.exponent) :
    ∃ m : ℕ, d.magnitude = m * 10 ^ place := by
  obtain ⟨k, hk⟩ := Int.le.dest hle
  refine ⟨d.coefficient * 10 ^ k, ?_⟩
  rw [magnitude, ← hk, zpow_add₀ (by norm_num), zpow_natCast]
  push_cast
  ring

/-- The rank of a rounded magnitude is read from a decimal on its own last place too. -/
theorem exists_multiple_rankOf_eq (hn : n ≠ 0)
    (hrank : Binary64.rankOf (rounded rank n).magnitude ≠ 0) :
    ∃ m : ℕ,
      Binary64.rankOf (m * 10 ^ lastPlace (Binary64.rankOf (rounded rank n).magnitude) n) =
        Binary64.rankOf (rounded rank n).magnitude := by
  obtain ⟨r, hr⟩ : ∃ r, r = Binary64.rankOf (rounded rank n).magnitude := ⟨_, rfl⟩
  rw [← hr] at hrank ⊢
  by_cases hplace : lastPlace r n ≤ lastPlace rank n
  · obtain ⟨m, hm⟩ := exists_natCast_mul_zpow (d := rounded rank n) hplace
    exact ⟨m, by rw [← hm, hr]⟩
  · -- the decimal was rounded to a power of ten or below, and read as that power or above
    have hlead : leadingPlace rank + 1 ≤ leadingPlace r := by
      unfold lastPlace at hplace
      omega
    have hpower : (10 : ℚ) ^ (leadingPlace rank + 1) ≤ 10 ^ leadingPlace r :=
      zpow_le_zpow_right₀ (by norm_num) hlead
    have hbelow := (magnitude_rounded_le rank n).trans hpower
    have habove := zpow_leadingPlace_le hrank
    refine ⟨10 ^ (n - 1), ?_⟩
    have hmultiple : ((10 ^ (n - 1) : ℕ) : ℚ) * 10 ^ lastPlace r n = 10 ^ leadingPlace r := by
      rw [Nat.cast_pow, Nat.cast_ofNat, pow_pred_mul_zpow_lastPlace r hn]
    have hlow := Binary64.rankOf_mono (magnitude_nonneg _) hbelow
    have hhigh := Binary64.rankOf_mono (ten_zpow_pos _).le habove
    rw [Binary64.rankOf_magnitude] at hhigh
    rw [hmultiple]
    omega

/-- A rank that is read from a decimal on its last place is read from its rounded magnitude. -/
theorem rankOf_rounded_of_multiple (hn : 10 ^ n ≤ 2 ^ 52) {m : ℕ}
    (hm : Binary64.rankOf (m * 10 ^ lastPlace rank n) = rank) :
    Binary64.rankOf (rounded rank n).magnitude = rank := by
  have hgrid := ten_zpow_pos (lastPlace rank n)
  have hround := isRounded_rounded rank n
  have hnonneg : (0 : ℚ) ≤ m * 10 ^ lastPlace rank n := by positivity
  by_cases hsmall : rank < 2 ^ 52
  · -- the magnitude has the same distance to both its neighbours, so nearer decimals are read alike
    have hnear := hround.abs_mul_sub_le_abs_mul_sub hgrid m
    rw [← magnitude_rounded, abs_sub_comm, abs_sub_comm _ (Binary64.magnitude rank)] at hnear
    have hread := Binary64.rankOf_of_abs_sub_le hnonneg (magnitude_nonneg (rounded rank n))
    rw [hm] at hread
    exact hread hsmall hnear
  · -- the multiple is less than half a place away, so it is the rounded magnitude
    have hnear := Binary64.abs_magnitude_rankOf_sub_mul_le hnonneg (by omega)
    have hmagnitude := magnitude_lt_zpow rank
    have hdigits : (10 : ℚ) ^ n * 10 ^ lastPlace rank n ≤ 2 ^ 52 * 10 ^ lastPlace rank n :=
      mul_le_mul_of_nonneg_right (by exact_mod_cast hn) hgrid.le
    rw [hm, abs_sub_comm, abs_mul_sub hgrid] at hnear
    rw [← pow_mul_zpow_lastPlace rank n] at hmagnitude
    have hhalf : |m - Binary64.magnitude rank / 10 ^ lastPlace rank n| < 1 / 2 := by
      refine lt_of_mul_lt_mul_right ?_ hgrid.le
      linarith
    have hcoefficient : m = (rounded rank n).coefficient := IsRounded.eq (.inl hhalf) hround
    rw [magnitude_rounded, ← hcoefficient, hm]

theorem rankOf_rounded_rankOf (hn : n ≠ 0) (hpow : 10 ^ n ≤ 2 ^ 52)
    (hrank : Binary64.rankOf (rounded rank n).magnitude ≠ 0) :
    Binary64.rankOf (rounded (Binary64.rankOf (rounded rank n).magnitude) n).magnitude =
      Binary64.rankOf (rounded rank n).magnitude := by
  obtain ⟨m, hm⟩ := exists_multiple_rankOf_eq hn hrank
  exact rankOf_rounded_of_multiple hpow hm

end Decimal
end FourFunction
