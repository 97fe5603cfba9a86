import FourFunction.Proofs.Rounding

/-!
# Exact values

The magnitudes of ranks and decimals as rational numbers, and rounding between them.  No magnitude
is nearer to a number than that of its rank (`abs_magnitude_rankOf_sub_le`).
-/

namespace FourFunction

/-! ### Whole numbers -/

/-- Whether `m` is the whole number nearest `x`, half to even. -/
def IsRounded (x : ℚ) (m : ℕ) : Prop :=
  |m - x| < 1 / 2 ∨ |m - x| = 1 / 2 ∧ m % 2 = 0

section IsRounded

variable {x y : ℚ} {m n : ℕ}

theorem isRounded_div_iff {num den : ℕ} (hden : 0 < den) :
    IsRounded (num / den) m ↔
      2 * (m * den - num : ℤ).natAbs < den ∨
        2 * (m * den - num : ℤ).natAbs = den ∧ m % 2 = 0 := by
  have hpos : (0 : ℚ) < den := by exact_mod_cast hden
  have habs : |(m : ℚ) - num / den| = (m * den - num : ℤ).natAbs / den := by
    rw [Nat.cast_natAbs, Int.cast_abs, sub_div' hpos.ne', abs_div, abs_of_pos hpos]
    push_cast
    rfl
  rw [IsRounded, habs, div_lt_div_iff₀ hpos two_pos, div_eq_div_iff hpos.ne' two_ne_zero, one_mul,
    mul_comm _ 2]
  norm_cast

theorem isRounded_roundedQuotient (num : ℕ) {den : ℕ} (hden : 0 < den) :
    IsRounded (num / den) (roundedQuotient num den) := by
  have hdiv := Nat.div_add_mod num den
  have hmod := Nat.mod_lt num hden
  rw [isRounded_div_iff hden]
  unfold roundedQuotient
  dsimp only
  generalize num / den = quotient at hdiv ⊢
  generalize num % den = remainder at hdiv hmod ⊢
  have hlow : (quotient * den - num : ℤ) = -remainder := by
    rw [← hdiv]
    push_cast
    ring
  have hhigh : ((quotient + 1 : ℕ) * den - num : ℤ) = den - remainder := by
    rw [← hdiv]
    push_cast
    ring
  split_ifs
  · rw [hlow]
    omega
  · rw [hhigh]
    omega
  · rw [hlow]
    omega
  · rw [hhigh]
    omega

theorem one_le_abs_sub_add_abs_sub (x : ℚ) {m n : ℕ} (hne : m ≠ n) :
    1 ≤ |(m : ℚ) - x| + |(n : ℚ) - x| := by
  have hstep : (1 : ℚ) ≤ |(m : ℚ) - n| := by
    exact_mod_cast Int.one_le_abs (show (m : ℤ) - n ≠ 0 by omega)
  have htriangle := abs_sub_le (m : ℚ) x n
  rw [abs_sub_comm x] at htriangle
  exact hstep.trans htriangle

theorem IsRounded.le_half (h : IsRounded x m) : |m - x| ≤ 1 / 2 := by
  rcases h with hlt | ⟨heq, -⟩
  · exact hlt.le
  · exact heq.le

theorem IsRounded.le_abs_sub (h : IsRounded x m) (n : ℕ) : |m - x| ≤ |n - x| := by
  by_cases hne : m = n
  · rw [hne]
  · have hone := one_le_abs_sub_add_abs_sub x hne
    have hhalf := h.le_half
    linarith

theorem IsRounded.eq (hm : IsRounded x m) (hn : IsRounded x n) : m = n := by
  by_contra hne
  have hone := one_le_abs_sub_add_abs_sub x hne
  have hmhalf := hm.le_half
  have hnhalf := hn.le_half
  rcases hm with hlt | ⟨-, hmeven⟩
  · linarith
  · rcases hn with hlt | ⟨-, hneven⟩
    · linarith
    · -- both are half a unit away, but two even numbers are two units apart
      have htriangle := abs_sub_le (m : ℚ) x n
      rw [abs_sub_comm x] at htriangle
      have hstep : (2 : ℚ) ≤ |(m : ℚ) - n| := by
        have hint : (2 : ℤ) ≤ |(m : ℤ) - n| := by
          rw [le_abs]
          omega
        exact_mod_cast hint
      linarith

/-- What is not farther from `m` than `x` is rounded as `x` is. -/
theorem IsRounded.of_abs_sub_le (h : IsRounded x m) (hle : |m - y| ≤ |m - x|) : IsRounded y m := by
  rcases hle.lt_or_eq with hlt | heq
  · exact .inl (hlt.trans_le h.le_half)
  · rwa [IsRounded, heq]

theorem IsRounded.le_of_lt (h : IsRounded x m) (hlt : x < n + 1 / 2) : m ≤ n := by
  by_contra hgt
  have hstep : (n + 1 : ℚ) ≤ m := by exact_mod_cast not_le.1 hgt
  have hhalf := (abs_le.1 h.le_half).2
  linarith

theorem IsRounded.lt_of_odd (h : IsRounded x m) (hodd : n % 2 = 1) (hle : n + 1 / 2 ≤ x) :
    n < m := by
  by_contra hnot
  have hm : (m : ℚ) ≤ n := by exact_mod_cast not_lt.1 hnot
  rcases h with hlt | ⟨heq, heven⟩
  · have hhalf := (abs_lt.1 hlt).1
    linarith
  · have hhalf := (abs_le.1 heq.le).1
    have hn : (n : ℚ) ≤ m := by linarith
    have hmn : m = n := by exact_mod_cast hm.antisymm hn
    omega

/-! On the multiples of a grid. -/

theorem abs_mul_sub {grid : ℚ} (hgrid : 0 < grid) (a x : ℚ) :
    |a * grid - x| = |a - x / grid| * grid := by
  rw [sub_div' hgrid.ne', abs_div, abs_of_pos hgrid, div_mul_cancel₀ _ hgrid.ne']

theorem IsRounded.abs_mul_sub_le {grid : ℚ} (hgrid : 0 < grid) (h : IsRounded (x / grid) m) :
    |m * grid - x| ≤ grid / 2 := by
  have hhalf := mul_le_mul_of_nonneg_right h.le_half hgrid.le
  rw [abs_mul_sub hgrid]
  linarith

theorem IsRounded.abs_mul_sub_le_abs_mul_sub {grid : ℚ} (hgrid : 0 < grid)
    (h : IsRounded (x / grid) m) (n : ℕ) : |m * grid - x| ≤ |n * grid - x| := by
  rw [abs_mul_sub hgrid, abs_mul_sub hgrid]
  exact mul_le_mul_of_nonneg_right (h.le_abs_sub n) hgrid.le

end IsRounded

namespace Binary64

/-! ### Magnitudes -/

def magnitude (r : ℕ) : ℚ := units r / unitsPerOne

theorem unitsPerOne_pos : (0 : ℚ) < unitsPerOne := by
  obtain ⟨n, -, hone⟩ := Decimal.exists_unitsPerOne
  rw [hone]
  positivity

theorem magnitude_nonneg (r : ℕ) : 0 ≤ magnitude r :=
  div_nonneg (Nat.cast_nonneg _) unitsPerOne_pos.le

/-- The rank nearest the magnitude `x`, half to even. -/
def rankOf (x : ℚ) : ℕ := nearestRank (x.num.toNat * unitsPerOne) x.den

theorem natCast_toNat_num {x : ℚ} (hx : 0 ≤ x) : (x.num.toNat : ℚ) = x.num := by
  exact_mod_cast Int.toNat_of_nonneg (Rat.num_nonneg.2 hx)

theorem nearestRank_eq_rankOf (num : ℕ) {den : ℕ} (hden : 0 < den) :
    nearestRank num den = rankOf (num / den / unitsPerOne) := by
  have hpos : (0 : ℚ) < den := by exact_mod_cast hden
  have hone := unitsPerOne_pos
  rw [rankOf]
  generalize unitsPerOne = one at hone ⊢
  generalize hx : (num / den / one : ℚ) = x
  have hnonneg : 0 ≤ x := hx ▸ by positivity
  refine nearestRank_congr hden x.den_pos ?_
  have hvalue : (num : ℚ) = x * den * one := by
    rw [← hx]
    field_simp
  have hcross : (num * x.den : ℚ) = x.num.toNat * one * den := by
    rw [natCast_toNat_num hnonneg, ← Rat.mul_den_eq_num, hvalue]
    ring
  exact_mod_cast hcross

theorem exists_units_div {x : ℚ} (hx : 0 ≤ x) :
    ∃ num den : ℕ, 0 < den ∧ x = num / den / unitsPerOne := by
  refine ⟨x.num.toNat * unitsPerOne, x.den, x.den_pos, ?_⟩
  rw [Nat.cast_mul, natCast_toNat_num hx, mul_div_right_comm, Rat.num_div_den,
    mul_div_cancel_right₀ _ unitsPerOne_pos.ne']

theorem rankOf_magnitude (r : ℕ) : rankOf (magnitude r) = r := by
  have hunits := nearestRank_eq_rankOf (units r) Nat.one_pos
  rw [nearestRank_units, Nat.cast_one, div_one] at hunits
  exact hunits.symm

theorem rankOf_mono {x y : ℚ} (hx : 0 ≤ x) (h : x ≤ y) : rankOf x ≤ rankOf y := by
  obtain ⟨a, b, hb, rfl⟩ := exists_units_div hx
  obtain ⟨c, d, hd, rfl⟩ := exists_units_div (hx.trans h)
  have hle : a * d ≤ c * b := by
    rw [div_le_div_iff_of_pos_right unitsPerOne_pos,
      div_le_div_iff₀ (by exact_mod_cast hb) (by exact_mod_cast hd)] at h
    exact_mod_cast h
  rw [← nearestRank_eq_rankOf a hb, ← nearestRank_eq_rankOf c hd]
  calc nearestRank a b = nearestRank (a * d) (b * d) := (nearestRank_mul_mul hd).symm
    _ ≤ nearestRank (c * b) (b * d) := nearestRank_mono (Nat.mul_pos hb hd) hle
    _ = nearestRank c d := by rw [Nat.mul_comm b d, nearestRank_mul_mul hb]

theorem magnitude_strictMono : StrictMono magnitude := by
  intro r s hlt
  by_contra hle
  have hmono := rankOf_mono (magnitude_nonneg s) (not_lt.1 hle)
  rw [rankOf_magnitude, rankOf_magnitude] at hmono
  exact absurd hlt (Nat.not_lt.2 hmono)

/-! ### How near the nearest magnitude is -/

/-- The magnitude of `2 ^ k` units. -/
def step (k : ℕ) : ℚ := 2 ^ k / unitsPerOne

theorem step_pos (k : ℕ) : 0 < step k := div_pos (by positivity) unitsPerOne_pos

theorem step_add (k j : ℕ) : step (k + j) = 2 ^ j * step k := by
  rw [step, step, pow_add, mul_comm (2 ^ k), mul_div_assoc]

theorem step_le_step {j k : ℕ} (h : j ≤ k) : step j ≤ step k :=
  div_le_div_of_nonneg_right (pow_le_pow_right₀ one_le_two h) unitsPerOne_pos.le

/-- The magnitude of a rank as a multiple of the spacing around it. -/
theorem magnitude_eq_mul_step (r : ℕ) :
    magnitude r = (r - spacing r * 2 ^ 52 : ℕ) * step (spacing r) := by
  rw [magnitude, units_eq, step, Nat.cast_mul, Nat.cast_pow, Nat.cast_ofNat, mul_div_assoc]

/-- The upper bound for `m` counts twice: it is the first multiple of the next spacing too. -/
theorem magnitude_mul_add {k m : ℕ} (hle : m ≤ 2 ^ 53) (hge : k ≠ 0 → 2 ^ 52 ≤ m) :
    magnitude (k * 2 ^ 52 + m) = m * step k := by
  rw [magnitude_eq_mul_step]
  by_cases hm : m = 2 ^ 53
  · have hspacing : spacing (k * 2 ^ 52 + m) = k + 1 := by
      rw [spacing_eq]
      omega
    have hsignificand : k * 2 ^ 52 + m - (k + 1) * 2 ^ 52 = 2 ^ 52 := by omega
    rw [hspacing, hsignificand, hm, step_add]
    push_cast
    ring
  · have hspacing : spacing (k * 2 ^ 52 + m) = k := by
      rw [spacing_eq]
      omega
    rw [hspacing, Nat.add_sub_cancel_left]

theorem magnitude_of_le {r : ℕ} (hr : r ≤ 2 ^ 53) : magnitude r = r * step 0 := by
  have hmul := magnitude_mul_add (k := 0) hr (absurd rfl)
  rwa [Nat.zero_mul, Nat.zero_add] at hmul

theorem magnitude_zero : magnitude 0 = 0 := by
  rw [magnitude_of_le (Nat.zero_le _), Nat.cast_zero, zero_mul]

theorem magnitude_pos {r : ℕ} (hr : r ≠ 0) : 0 < magnitude r := by
  rw [← magnitude_zero]
  exact magnitude_strictMono (Nat.pos_of_ne_zero hr)

theorem exists_isRounded_rankOf {x : ℚ} (hx : 0 ≤ x) :
    ∃ k m : ℕ, rankOf x = k * 2 ^ 52 + m ∧ magnitude (rankOf x) = m * step k ∧
      IsRounded (x / step k) m ∧ (k ≠ 0 → (2 : ℚ) ^ 52 ≤ x / step k ∧ 2 ^ 52 ≤ m) := by
  obtain ⟨num, den, hden, rfl⟩ := exists_units_div hx
  obtain ⟨hlt, hge⟩ := quotient_bounds num den
  replace hge : (num / den).log2 - 52 ≠ 0 → _ := fun hspacing => hge (by omega)
  rw [← nearestRank_eq_rankOf num hden, nearestRank_eq]
  generalize (num / den).log2 - 52 = k at hlt hge ⊢
  have hscaled : (num / den / unitsPerOne / step k : ℚ) = num / (den * 2 ^ k : ℕ) := by
    rw [step, div_div_div_cancel_right₀ unitsPerOne_pos.ne', div_div, Nat.cast_mul, Nat.cast_pow,
      Nat.cast_ofNat]
  have hlow := le_roundedQuotient num (den * 2 ^ k)
  have hhigh := roundedQuotient_le num (den * 2 ^ k)
  refine ⟨k, _, rfl, magnitude_mul_add (by omega) fun hk => (hge hk).trans hlow, ?_, fun hk => ?_⟩
  · rw [hscaled]
    exact isRounded_roundedQuotient num (Nat.mul_pos hden (Nat.two_pow_pos k))
  · rw [hscaled]
    refine ⟨le_trans ?_ Nat.cast_div_le, (hge hk).trans hlow⟩
    exact_mod_cast hge hk

/-- No magnitude is nearer to `x` than that of its rank. -/
theorem abs_magnitude_rankOf_sub_le {x : ℚ} (hx : 0 ≤ x) (s : ℕ) :
    |magnitude (rankOf x) - x| ≤ |magnitude s - x| := by
  obtain ⟨k, m, -, hmagnitude, hround, hge⟩ := exists_isRounded_rankOf hx
  obtain ⟨-, hsignificand, -⟩ := significand_bounds s
  rw [hmagnitude, magnitude_eq_mul_step]
  generalize s - spacing s * 2 ^ 52 = significand at hsignificand ⊢
  by_cases hspacing : k ≤ spacing s
  · -- the magnitude is a multiple of the spacing around `x`
    obtain ⟨j, hj⟩ := Nat.exists_eq_add_of_le hspacing
    have hmultiple : (significand * step (spacing s) : ℚ) = (significand * 2 ^ j : ℕ) * step k := by
      rw [hj, step_add]
      push_cast
      ring
    rw [hmultiple]
    exact hround.abs_mul_sub_le_abs_mul_sub (step_pos k) _
  · -- the magnitude is below those with the spacing around `x`
    obtain ⟨hle, -⟩ := hge (by omega)
    rw [le_div_iff₀ (step_pos k)] at hle
    have hbelow : significand * step (spacing s) ≤ 2 ^ 52 * step k :=
      calc (significand * step (spacing s) : ℚ) ≤ 2 ^ 53 * step (spacing s) :=
            mul_le_mul_of_nonneg_right (by exact_mod_cast hsignificand.le) (step_pos _).le
        _ = 2 ^ 52 * step (spacing s + 1) := by
            rw [step_add]
            ring
        _ ≤ 2 ^ 52 * step k :=
            mul_le_mul_of_nonneg_left (step_le_step (by omega)) (by positivity)
    have hnear := hround.abs_mul_sub_le_abs_mul_sub (step_pos k) (2 ^ 52)
    push_cast at hnear
    refine hnear.trans ?_
    rw [abs_of_nonpos (by linarith), abs_of_nonpos (by linarith)]
    linarith

/-- From `2 ^ 52` ranks on, a magnitude is off by at most one part in `2 ^ 53`. -/
theorem abs_magnitude_rankOf_sub_mul_le {x : ℚ} (hx : 0 ≤ x) (hrank : 2 ^ 52 ≤ rankOf x) :
    |magnitude (rankOf x) - x| * 2 ^ 53 ≤ magnitude (rankOf x) := by
  obtain ⟨k, m, hr, hmagnitude, hround, hge⟩ := exists_isRounded_rankOf hx
  have hm : 2 ^ 52 ≤ m := by
    by_cases hk : k = 0
    · rw [hr, hk] at hrank
      omega
    · exact (hge hk).2
  have hnear := hround.abs_mul_sub_le (step_pos k)
  rw [hmagnitude]
  calc |m * step k - x| * 2 ^ 53 ≤ step k / 2 * 2 ^ 53 :=
        mul_le_mul_of_nonneg_right hnear (by positivity)
    _ = 2 ^ 52 * step k := by ring
    _ ≤ m * step k := mul_le_mul_of_nonneg_right (by exact_mod_cast hm) (step_pos k).le

/-- Below `2 ^ 52` ranks a magnitude is rounded to whole units. -/
theorem rankOf_eq_iff_isRounded {x : ℚ} (hx : 0 ≤ x) {r : ℕ} (hr : r < 2 ^ 52) :
    rankOf x = r ↔ IsRounded (x / step 0) r := by
  obtain ⟨k, m, hrank, -, hround, hge⟩ := exists_isRounded_rankOf hx
  constructor
  · rintro rfl
    obtain rfl : k = 0 := by omega
    rwa [hrank, Nat.zero_mul, Nat.zero_add]
  · intro h
    by_cases hk : k = 0
    · subst hk
      rw [hrank, Nat.zero_mul, Nat.zero_add, hround.eq h]
    · -- a wider spacing starts at `2 ^ 53` units
      obtain ⟨hle, -⟩ := hge hk
      rw [le_div_iff₀ (step_pos k)] at hle
      have hstep : step (0 + 1) ≤ step k := step_le_step (by omega)
      rw [step_add] at hstep
      have hnear := (abs_le.1 (h.abs_mul_sub_le (step_pos 0))).1
      have hrank : (r : ℚ) * step 0 ≤ 2 ^ 52 * step 0 :=
        mul_le_mul_of_nonneg_right (by exact_mod_cast hr.le) (step_pos 0).le
      have hpos := step_pos 0
      linarith

/-- Below `2 ^ 52` ranks, what is not farther from the rank of `x` than `x` has that rank too. -/
theorem rankOf_of_abs_sub_le {x y : ℚ} (hx : 0 ≤ x) (hy : 0 ≤ y) (hrank : rankOf x < 2 ^ 52)
    (h : |magnitude (rankOf x) - y| ≤ |magnitude (rankOf x) - x|) : rankOf y = rankOf x := by
  rw [magnitude_of_le (by omega), abs_mul_sub (step_pos 0), abs_mul_sub (step_pos 0),
    mul_le_mul_iff_of_pos_right (step_pos 0)] at h
  rw [rankOf_eq_iff_isRounded hy hrank]
  exact ((rankOf_eq_iff_isRounded hx hrank).1 rfl).of_abs_sub_le h

theorem ofRank_eq_iff (negative : Bool) {r s : ℕ} (hs : s < ranks) :
    ofRank negative r = ofRank negative s ↔ r = s := by
  constructor
  · intro h
    have hr : r < ranks := by
      rw [← isFinite_ofRank (s := negative), h, isFinite_ofRank]
      exact hs
    simpa [ofRank, hr, hs] using h
  · exact congrArg _

end Binary64

/-! ### Decimals -/

theorem ten_zpow_eq_div (e : ℤ) : (10 : ℚ) ^ e = 10 ^ e.toNat / 10 ^ (-e).toNat := by
  obtain ⟨n, rfl | rfl⟩ := e.eq_nat_or_neg
  · simp
  · simp

namespace Decimal

def magnitude (d : Decimal) : ℚ := d.coefficient * 10 ^ d.exponent

theorem magnitude_nonneg (d : Decimal) : 0 ≤ d.magnitude := by
  unfold magnitude
  positivity

theorem unitsNum_div_unitsDen (d : Decimal) :
    (d.unitsNum / d.unitsDen / Binary64.unitsPerOne : ℚ) = d.magnitude := by
  rw [unitsNum, unitsDen, magnitude, ten_zpow_eq_div, Nat.cast_mul, mul_div_right_comm,
    mul_div_cancel_right₀ _ Binary64.unitsPerOne_pos.ne']
  push_cast
  rw [mul_div_assoc]

/-- A decimal is read as the rank nearest the number it stands for. -/
theorem toBinary64_eq_ofRank (negative : Bool) (d : Decimal) :
    d.toBinary64 negative = Binary64.ofRank negative (Binary64.rankOf d.magnitude) := by
  rw [toBinary64_eq_nearest, Binary64.nearest, Binary64.nearestRank_eq_rankOf _ d.unitsDen_pos,
    unitsNum_div_unitsDen]

theorem nearestRank_eq_iff {d : Decimal} {r : ℕ} (hr : r < Binary64.ranks) :
    d.nearestRank = r ↔ Binary64.rankOf d.magnitude = r := by
  have hread := d.toBinary64_eq_ofRank false
  rw [toBinary64] at hread
  rw [← Binary64.ofRank_eq_iff false hr, hread, Binary64.ofRank_eq_iff false hr]

theorem nearestRank_lt_ranks_iff {d : Decimal} :
    d.nearestRank < Binary64.ranks ↔ Binary64.rankOf d.magnitude < Binary64.ranks := by
  rw [← Binary64.isFinite_ofRank (s := false), ← Binary64.isFinite_ofRank (s := false),
    ← toBinary64_eq_ofRank, toBinary64]

end Decimal

end FourFunction
