import FourFunction.Proofs.SignificantDigits

/-!
# The digits of the shortest decimal

Reading keeps the order, so one of the two candidates of `n` digits is read as a rank if any decimal
on that place is, and the shortest decimal has no more digits (`exists_shortestAt?_eq_shortest`).
-/

namespace FourFunction

namespace Decimal

variable {tie : TieRule} {rank n : ℕ} {d : Decimal}

/-! ### Candidates -/

def lowerCoefficient (rank n : ℕ) : ℕ :=
  gridNum rank (lastPlace rank n) / gridDen (lastPlace rank n)

theorem lowerCoefficient_eq_floor (rank n : ℕ) :
    lowerCoefficient rank n = ⌊Binary64.magnitude rank / 10 ^ lastPlace rank n⌋₊ := by
  rw [lowerCoefficient, ← gridNum_div_gridDen, Nat.floor_div_eq_div]

theorem lowerCoefficient_mul_le (rank n : ℕ) :
    lowerCoefficient rank n * 10 ^ lastPlace rank n ≤ Binary64.magnitude rank := by
  have hgrid := ten_zpow_pos (lastPlace rank n)
  rw [lowerCoefficient_eq_floor, ← le_div_iff₀ hgrid]
  exact Nat.floor_le (div_nonneg (Binary64.magnitude_nonneg rank) hgrid.le)

theorem lt_lowerCoefficient_succ_mul (rank n : ℕ) :
    Binary64.magnitude rank < (lowerCoefficient rank n + 1 : ℕ) * 10 ^ lastPlace rank n := by
  have hgrid := ten_zpow_pos (lastPlace rank n)
  rw [lowerCoefficient_eq_floor, ← div_lt_iff₀ hgrid, Nat.cast_succ]
  exact Nat.lt_floor_add_one _

theorem isSome_shortestAt?_iff :
    (shortestAt? tie rank n).isSome = true ↔
      (⟨lowerCoefficient rank n, lastPlace rank n⟩ : Decimal).nearestRank = rank ∨
        (⟨lowerCoefficient rank n + 1, lastPlace rank n⟩ : Decimal).nearestRank = rank := by
  simp only [shortestAt?, lowerCoefficient]
  split_ifs <;> simp_all

theorem eq_candidate_of_shortestAt? (h : shortestAt? tie rank n = some d) :
    d.exponent = lastPlace rank n ∧
      (d.coefficient = lowerCoefficient rank n ∨ d.coefficient = lowerCoefficient rank n + 1) := by
  simp only [shortestAt?] at h
  split_ifs at h
  · exact Option.some.inj h ▸ ⟨rfl, .inr rfl⟩
  · exact Option.some.inj h ▸ ⟨rfl, .inl rfl⟩
  · exact Option.some.inj h ▸ ⟨rfl, .inr rfl⟩

/-- A rank that is read from any decimal on its last place is read from a candidate. -/
theorem isSome_shortestAt? (tie : TieRule) (hlt : rank < Binary64.ranks) {m : ℕ}
    (hm : Binary64.rankOf (m * 10 ^ lastPlace rank n) = rank) :
    (shortestAt? tie rank n).isSome = true := by
  have hgrid := ten_zpow_pos (lastPlace rank n)
  have hself := Binary64.rankOf_magnitude rank
  rw [isSome_shortestAt?_iff, nearestRank_eq_iff hlt, nearestRank_eq_iff hlt, magnitude, magnitude]
  -- the candidate on the side of `m` is between it and the magnitude
  by_cases hside : m ≤ lowerCoefficient rank n
  · left
    have hbelow : (m * 10 ^ lastPlace rank n : ℚ) ≤
        lowerCoefficient rank n * 10 ^ lastPlace rank n :=
      mul_le_mul_of_nonneg_right (by exact_mod_cast hside) hgrid.le
    have hge := Binary64.rankOf_mono (by positivity) hbelow
    have hle := Binary64.rankOf_mono (by positivity) (lowerCoefficient_mul_le rank n)
    dsimp only
    omega
  · right
    have habove : ((lowerCoefficient rank n + 1 : ℕ) * 10 ^ lastPlace rank n : ℚ) ≤
        m * 10 ^ lastPlace rank n :=
      mul_le_mul_of_nonneg_right (by exact_mod_cast not_le.1 hside) hgrid.le
    have hge := Binary64.rankOf_mono (by positivity) habove
    have hle := Binary64.rankOf_mono (Binary64.magnitude_nonneg rank)
      (lt_lowerCoefficient_succ_mul rank n).le
    dsimp only
    omega

/-- A candidate of `n` digits has `n` digits, or is the power of ten above them. -/
theorem coefficient_bounds_of_shortestAt? (hrank : rank ≠ 0) (hn : n ≠ 0)
    (h : shortestAt? tie rank n = some d) :
    10 ^ (n - 1) ≤ d.coefficient ∧ d.coefficient ≤ 10 ^ n := by
  have hlow : 10 ^ (n - 1) ≤ lowerCoefficient rank n :=
    (Nat.le_div_iff_mul_le (gridDen_pos _)).2 (pow_mul_gridDen_le hrank hn)
  have hhigh : lowerCoefficient rank n < 10 ^ n := by
    have hlt := (lowerCoefficient_mul_le rank n).trans_lt (magnitude_lt_zpow rank)
    rw [← pow_mul_zpow_lastPlace rank n] at hlt
    exact_mod_cast lt_of_mul_lt_mul_right hlt (ten_zpow_pos (lastPlace rank n)).le
  obtain ⟨-, hcandidate⟩ := eq_candidate_of_shortestAt? h
  omega

/-! ### Digits and places -/

theorem toDigits_ten_pow (n : ℕ) : Nat.toDigits 10 (10 ^ n) = '1' :: List.replicate n '0' := by
  induction n with
  | zero => rfl
  | succ n ih =>
    have hpos : 0 < 10 ^ n := Nat.pow_pos (by decide)
    have hle : 10 ≤ 10 ^ (n + 1) := by omega
    have hdiv : 10 ^ (n + 1) / 10 = 10 ^ n := by omega
    have hmod : 10 ^ (n + 1) % 10 = 0 := by omega
    rw [Nat.toDigits_of_base_le (by decide) hle, hdiv, hmod, ih, List.replicate_succ']
    rfl

theorem significantDigits_ten_pow {d : Decimal} (hcoefficient : d.coefficient = 10 ^ n) :
    d.significantDigits = ['1'] := by
  rw [significantDigits, hcoefficient, toDigits_ten_pow, List.reverse_cons, List.reverse_replicate,
    List.dropWhile_append_of_pos (by simp)]
  rfl

theorem length_significantDigits_le (hn : n ≠ 0) (hle : d.coefficient ≤ 10 ^ n) :
    d.significantDigits.length ≤ n := by
  rcases hle.lt_or_eq with hlt | heq
  · have hcount : (Nat.toDigits 10 d.coefficient).length ≤ n :=
      (Nat.length_toDigits_le_iff (by decide) (Nat.pos_of_ne_zero hn)).2 hlt
    obtain ⟨k, hk⟩ := d.toDigits_coefficient
    rw [hk, List.length_append] at hcount
    omega
  · rw [significantDigits_ten_pow heq]
    exact Nat.one_le_iff_ne_zero.2 hn

/-- The leading digit of a decimal stands at its scientific exponent. -/
theorem zpow_scientificExponent_le (hcoefficient : d.coefficient ≠ 0) :
    (10 : ℚ) ^ d.scientificExponent ≤ d.magnitude := by
  have hpos : 0 < digitCount d.coefficient := List.length_pos_iff.2 Nat.toDigits_ne_nil
  have hexponent : d.scientificExponent = (digitCount d.coefficient - 1 : ℕ) + d.exponent := by
    rw [scientificExponent]
    omega
  rw [hexponent, zpow_add₀ (by norm_num), zpow_natCast, magnitude]
  exact mul_le_mul_of_nonneg_right (by exact_mod_cast pow_digitCount_le hcoefficient)
    (ten_zpow_pos _).le

theorem magnitude_lt_zpow_scientificExponent (d : Decimal) :
    d.magnitude < 10 ^ (d.scientificExponent + 1) := by
  have hexponent : d.scientificExponent + 1 = (digitCount d.coefficient : ℕ) + d.exponent := by
    rw [scientificExponent]
    omega
  rw [hexponent, zpow_add₀ (by norm_num), zpow_natCast, magnitude]
  exact mul_lt_mul_of_pos_right (by exact_mod_cast lt_pow_digitCount d.coefficient)
    (ten_zpow_pos _)

/-! ### The shortest decimal -/

/-- The shortest decimal has no more digits than any decimal that is read as the rank. -/
theorem exists_shortestAt?_eq_shortest (hn : n ≠ 0) (hle : n ≤ 17)
    (h : (shortestAt? tie rank n).isSome = true) :
    ∃ k, k ≠ 0 ∧ k ≤ n ∧ shortestAt? tie rank k = some (shortest tie rank) := by
  have hsplit : List.range' 1 17 = List.range' 1 n ++ List.range' (1 + n) (17 - n) := by
    rw [List.range'_append_1]
    congr 1
    omega
  have hfound : ((List.range' 1 n).findSome? (shortestAt? tie rank)).isSome = true :=
    List.findSome?_isSome_iff.2 ⟨n, by rw [List.mem_range'_1]; omega, h⟩
  obtain ⟨d, hd⟩ := Option.isSome_iff_exists.1 hfound
  obtain ⟨k, hk, hread⟩ := List.exists_of_findSome?_eq_some hd
  have hshortest : shortest tie rank = d := by
    rw [shortest, hsplit, List.findSome?_append, hd, Option.some_or, Option.getD_some]
  rw [List.mem_range'_1] at hk
  exact ⟨k, by omega, by omega, hshortest ▸ hread⟩

section

variable (hrank : rank ≠ 0) (hn : n ≠ 0) (hle : n ≤ 17)
  (h : (shortestAt? tie rank n).isSome = true)

include hrank hn hle h

theorem length_significantDigits_shortest_le :
    (shortest tie rank).significantDigits.length ≤ n := by
  obtain ⟨k, hk, hkn, hread⟩ := exists_shortestAt?_eq_shortest hn hle h
  obtain ⟨-, hhigh⟩ := coefficient_bounds_of_shortestAt? hrank hk hread
  exact (length_significantDigits_le hk hhigh).trans hkn

theorem leadingPlace_le_scientificExponent :
    leadingPlace rank ≤ (shortest tie rank).scientificExponent := by
  obtain ⟨k, hk, -, hread⟩ := exists_shortestAt?_eq_shortest hn hle h
  obtain ⟨hlow, -⟩ := coefficient_bounds_of_shortestAt? hrank hk hread
  obtain ⟨hexponent, -⟩ := eq_candidate_of_shortestAt? hread
  have hpower : (10 : ℚ) ^ leadingPlace rank ≤ (shortest tie rank).magnitude := by
    rw [← pow_pred_mul_zpow_lastPlace rank hk, magnitude, hexponent]
    exact mul_le_mul_of_nonneg_right (by exact_mod_cast hlow) (ten_zpow_pos _).le
  have hlt := hpower.trans_lt (magnitude_lt_zpow_scientificExponent _)
  rw [zpow_lt_zpow_iff_right₀ (by norm_num)] at hlt
  omega

end

end Decimal

end FourFunction
