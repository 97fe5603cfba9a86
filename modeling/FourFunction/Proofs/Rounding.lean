import FourFunction.Decimal.Text
import Mathlib.Tactic

/-!
# Rounding

`Binary64.nearestRank` depends on the quotient alone, keeps the order and gives a rank back from its
own magnitude.  `Decimal.toBinary64` rounds a decimal in this way (`toBinary64_eq_nearest`), so the
shortest decimal of a rank is read as that rank (`toBinary64_shortest`).
-/

namespace FourFunction

/-! ### Rounded quotients -/

theorem roundedQuotient_mul_mul {num den k : Nat} (hk : 0 < k) :
    roundedQuotient (num * k) (den * k) = roundedQuotient num den := by
  have hlt : 2 * (num % den * k) < den * k ↔ 2 * (num % den) < den := by
    rw [← Nat.mul_assoc, Nat.mul_lt_mul_right hk]
  have hgt : den * k < 2 * (num % den * k) ↔ den < 2 * (num % den) := by
    rw [← Nat.mul_assoc, Nat.mul_lt_mul_right hk]
  simp only [roundedQuotient, Nat.mul_div_mul_right _ _ hk, Nat.mul_mod_mul_right, hlt, hgt]

theorem roundedQuotient_mul_left {m den : Nat} (hden : 0 < den) :
    roundedQuotient (m * den) den = m := by
  simp [roundedQuotient, Nat.mul_div_cancel _ hden, hden]

theorem le_roundedQuotient (num den : Nat) : num / den ≤ roundedQuotient num den := by
  unfold roundedQuotient
  dsimp only
  split_ifs <;> omega

theorem roundedQuotient_le (num den : Nat) : roundedQuotient num den ≤ num / den + 1 := by
  unfold roundedQuotient
  dsimp only
  split_ifs <;> omega

theorem roundedQuotient_eq_zero {num den : Nat} (h : 2 * num < den) :
    roundedQuotient num den = 0 := by
  have hlt : num < den := by omega
  simp [roundedQuotient, Nat.div_eq_of_lt hlt, Nat.mod_eq_of_lt hlt, h]

theorem roundedQuotient_mono {num num' : Nat} (den : Nat) (h : num ≤ num') :
    roundedQuotient num den ≤ roundedQuotient num' den := by
  have hle : num / den ≤ num' / den := Nat.div_le_div_right h
  rcases hle.lt_or_eq with hlt | heq
  · exact (roundedQuotient_le num den).trans (Nat.le_trans hlt (le_roundedQuotient num' den))
  · have hnum := Nat.div_add_mod num den
    have hnum' := Nat.div_add_mod num' den
    rw [heq] at hnum
    unfold roundedQuotient
    dsimp only
    rw [heq]
    split_ifs <;> omega

namespace Binary64

/-! ### The nearest rank -/

theorem ranks_eq : ranks = 2047 * 2 ^ 52 := rfl

theorem spacing_eq (r : Nat) : spacing r = r / 2 ^ 52 - 1 := rfl

theorem units_eq (r : Nat) : units r = (r - spacing r * 2 ^ 52) * 2 ^ spacing r := rfl

theorem nearestRank_eq (num den : Nat) : nearestRank num den =
    ((num / den).log2 - 52) * 2 ^ 52 +
      roundedQuotient num (den * 2 ^ ((num / den).log2 - 52)) := rfl

theorem nearestRank_mul_mul {num den k : Nat} (hk : 0 < k) :
    nearestRank (num * k) (den * k) = nearestRank num den := by
  rw [nearestRank_eq, nearestRank_eq, Nat.mul_div_mul_right _ _ hk, Nat.mul_right_comm,
    roundedQuotient_mul_mul hk]

theorem nearestRank_congr {num den num' den' : Nat} (hden : 0 < den) (hden' : 0 < den')
    (h : num * den' = num' * den) : nearestRank num den = nearestRank num' den' := by
  rw [← nearestRank_mul_mul hden', h, Nat.mul_comm den den', nearestRank_mul_mul hden]

/-- The magnitude of a rank in multiples of the spacing around it. -/
theorem significand_bounds (r : Nat) :
    spacing r * 2 ^ 52 ≤ r ∧ r - spacing r * 2 ^ 52 < 2 ^ 53 ∧
      (spacing r ≠ 0 → 2 ^ 52 ≤ r - spacing r * 2 ^ 52) := by
  have hdiv := Nat.div_add_mod r (2 ^ 52)
  have hmod := Nat.mod_lt r (Nat.two_pow_pos 52)
  rw [spacing_eq]
  refine ⟨?_, ?_, fun hne => ?_⟩ <;> omega

theorem log2_units (r : Nat) : (units r).log2 - 52 = spacing r := by
  obtain ⟨-, hlt, hle⟩ := significand_bounds r
  rw [units_eq]
  generalize r - spacing r * 2 ^ 52 = significand at hlt hle ⊢
  by_cases hspacing : spacing r = 0
  · have hlog : significand.log2 ≤ 52 := by
      by_cases hzero : significand = 0
      · simp [hzero]
      · have hlog := (Nat.log2_lt hzero).2 hlt
        omega
    rw [hspacing, pow_zero, Nat.mul_one]
    omega
  · have hge : 2 ^ (52 + spacing r) ≤ significand * 2 ^ spacing r := by
      rw [pow_add]
      exact Nat.mul_le_mul_right _ (hle hspacing)
    have hltTop : significand * 2 ^ spacing r < 2 ^ (52 + spacing r + 1) := by
      rw [Nat.add_right_comm, pow_add]
      exact Nat.mul_lt_mul_of_pos_right hlt (Nat.two_pow_pos _)
    have hne : significand * 2 ^ spacing r ≠ 0 := by
      have hpos := Nat.two_pow_pos (52 + spacing r)
      omega
    have hlog := (Nat.log2_eq_iff hne).2 ⟨hge, hltTop⟩
    omega

theorem nearestRank_units (r : Nat) : nearestRank (units r) 1 = r := by
  obtain ⟨hle, -⟩ := significand_bounds r
  rw [nearestRank_eq, Nat.div_one, log2_units, Nat.one_mul, units_eq,
    roundedQuotient_mul_left (Nat.two_pow_pos _)]
  omega

/-- In the spacing its rounding uses, a wide quotient has exactly `53` bits. -/
theorem quotient_bounds (num den : Nat) :
    num / (den * 2 ^ ((num / den).log2 - 52)) < 2 ^ 53 ∧
      (52 ≤ (num / den).log2 → 2 ^ 52 ≤ num / (den * 2 ^ ((num / den).log2 - 52))) := by
  rw [← Nat.div_div_eq_div_mul]
  generalize num / den = quotient
  constructor
  · refine Nat.div_lt_of_lt_mul ?_
    rw [← pow_add]
    refine Nat.lt_of_lt_of_le Nat.lt_log2_self (Nat.pow_le_pow_right (by decide) ?_)
    omega
  · intro hlog
    have hne : quotient ≠ 0 := by
      rintro rfl
      exact absurd hlog (by decide)
    rw [Nat.le_div_iff_mul_le (Nat.two_pow_pos _), ← pow_add, ← Nat.le_log2 hne]
    omega

theorem le_nearestRank {num den k : Nat} (hden : 0 < den) (h : den * 2 ^ (k + 52) ≤ num) :
    (k + 1) * 2 ^ 52 ≤ nearestRank num den := by
  have hquotient : 2 ^ (k + 52) ≤ num / den := (Nat.le_div_iff_mul_le hden).2 (by linarith)
  have hne : num / den ≠ 0 := by
    have hpos := Nat.two_pow_pos (k + 52)
    omega
  have hlog : k + 52 ≤ (num / den).log2 := (Nat.le_log2 hne).2 hquotient
  have hsignificand := (quotient_bounds num den).2 (by omega)
  have hspacing : k ≤ (num / den).log2 - 52 := by omega
  have hround := le_roundedQuotient num (den * 2 ^ ((num / den).log2 - 52))
  rw [nearestRank_eq, Nat.add_mul]
  exact Nat.add_le_add (Nat.mul_le_mul_right _ hspacing)
    ((Nat.one_mul _).le.trans (hsignificand.trans hround))

theorem nearestRank_le {num den k : Nat} (h : num < den * 2 ^ (k + 53)) :
    nearestRank num den ≤ (k + 2) * 2 ^ 52 := by
  have hquotient : num / den < 2 ^ (k + 53) := Nat.div_lt_of_lt_mul h
  have hspacing : (num / den).log2 - 52 ≤ k := by
    by_cases hzero : num / den = 0
    · simp [hzero]
    · have hlog := (Nat.log2_lt hzero).2 hquotient
      omega
  have hsignificand := (quotient_bounds num den).1
  have hround := roundedQuotient_le num (den * 2 ^ ((num / den).log2 - 52))
  rw [nearestRank_eq, Nat.add_mul]
  exact Nat.add_le_add (Nat.mul_le_mul_right _ hspacing) (hround.trans hsignificand)

theorem nearestRank_eq_zero {num den : Nat} (h : 2 * num < den) : nearestRank num den = 0 := by
  have hlt : num < den := by omega
  simp [nearestRank_eq, Nat.div_eq_of_lt hlt, roundedQuotient_eq_zero h]

theorem nearestRank_mono {num num' : Nat} {den : Nat} (hden : 0 < den) (h : num ≤ num') :
    nearestRank num den ≤ nearestRank num' den := by
  have hquotient : num / den ≤ num' / den := Nat.div_le_div_right h
  have hlog : (num / den).log2 ≤ (num' / den).log2 := by
    by_cases hzero : num / den = 0
    · simp [hzero]
    · have hzero' : num' / den ≠ 0 := Nat.ne_of_gt ((Nat.pos_of_ne_zero hzero).trans_le hquotient)
      exact (Nat.le_log2 hzero').2 ((Nat.log2_self_le hzero).trans hquotient)
  rcases (Nat.sub_le_sub_right hlog 52).lt_or_eq with hlt | heq
  · -- the spacing grows past a power of two, on whose two sides the magnitudes are
    have hbelow : num < den * 2 ^ ((num / den).log2 - 52 + 53) := by
      rw [Nat.mul_comm, ← Nat.div_lt_iff_lt_mul hden]
      exact Nat.lt_log2_self.trans_le (Nat.pow_le_pow_right (by decide) (by omega))
    have habove : den * 2 ^ ((num' / den).log2 - 52 + 52) ≤ num' := by
      rw [Nat.mul_comm, ← Nat.le_div_iff_mul_le hden]
      have hne : num' / den ≠ 0 := by
        rintro hzero
        simp [hzero] at hlt
      rw [← Nat.le_log2 hne]
      omega
    refine (nearestRank_le hbelow).trans (le_trans ?_ (le_nearestRank hden habove))
    exact Nat.mul_le_mul_right _ (by omega)
  · rw [nearestRank_eq, nearestRank_eq, heq]
    exact Nat.add_le_add_left (roundedQuotient_mono _ h) _

theorem nearestRank_pos {num den : Nat} (h : den < 2 * num) : 0 < nearestRank num den := by
  by_cases hspacing : (num / den).log2 - 52 = 0
  · rw [nearestRank_eq, hspacing, pow_zero, Nat.mul_one, Nat.zero_mul, Nat.zero_add]
    by_cases hquotient : num / den = 0
    · have hremainder : num % den = num := by
        have hdiv := Nat.div_add_mod num den
        rwa [hquotient, Nat.mul_zero, Nat.zero_add] at hdiv
      have hnot : ¬ 2 * num < den := by omega
      simp [roundedQuotient, hquotient, hremainder, h, hnot]
    · exact (Nat.pos_of_ne_zero hquotient).trans_le (le_roundedQuotient num den)
  · rw [nearestRank_eq]
    exact Nat.add_pos_left (Nat.mul_pos (Nat.pos_of_ne_zero hspacing) (Nat.two_pow_pos 52)) _

end Binary64

namespace Decimal

/-! ### Reading a decimal -/

/-- The decimal is `unitsNum / unitsDen` units. -/
def unitsNum (d : Decimal) : Nat := d.coefficient * 10 ^ d.exponent.toNat * Binary64.unitsPerOne

def unitsDen (d : Decimal) : Nat := 10 ^ (-d.exponent).toNat

theorem unitsDen_pos (d : Decimal) : 0 < d.unitsDen := Nat.pow_pos (by decide)

/-- A power with a variable exponent, which nothing evaluates. -/
theorem exists_unitsPerOne : ∃ n, n = 1074 ∧ Binary64.unitsPerOne = 2 ^ n := by
  unfold Binary64.unitsPerOne
  generalize 1074 = n
  exact ⟨n, rfl, Nat.pow_eq⟩

theorem ranks_le_of_huge {d : Decimal} (hzero : d.coefficient ≠ 0) (h : 309 ≤ d.exponent) :
    Binary64.ranks ≤ Binary64.nearestRank d.unitsNum d.unitsDen := by
  have hden : d.unitsDen = 1 := by
    have hneg : (-d.exponent).toNat = 0 := by omega
    rw [unitsDen, hneg, pow_zero]
  have hexponent : 309 ≤ d.exponent.toNat := by omega
  have hnum : 2 ^ 1026 ≤ d.coefficient * 10 ^ d.exponent.toNat :=
    calc 2 ^ 1026 ≤ 10 ^ 309 := by decide +kernel
      _ ≤ 10 ^ d.exponent.toNat := Nat.pow_le_pow_right (by decide) hexponent
      _ ≤ d.coefficient * 10 ^ d.exponent.toNat :=
        Nat.le_mul_of_pos_left _ (Nat.pos_of_ne_zero hzero)
  obtain ⟨n, hn, hone⟩ := exists_unitsPerOne
  obtain ⟨k, hk⟩ : ∃ k, k = 2046 := ⟨_, rfl⟩
  have hunits : d.unitsDen * 2 ^ (k + 52) ≤ d.unitsNum :=
    calc d.unitsDen * 2 ^ (k + 52) = 2 ^ (k + 52) := by rw [hden, Nat.one_mul]
      _ ≤ 2 ^ (1026 + n) := Nat.pow_le_pow_right (by decide) (by omega)
      _ = 2 ^ 1026 * 2 ^ n := pow_add 2 1026 n
      _ ≤ d.unitsNum := by
        rw [unitsNum, hone]
        exact Nat.mul_le_mul_right _ hnum
  have hle := Binary64.le_nearestRank d.unitsDen_pos hunits
  rwa [hk] at hle

/-- A decimal below `2 ^ (-1076)` is nearest to zero. -/
theorem nearestRank_of_tiny {d : Decimal} (h : d.coefficient.log2 + 1077 < 3 * -d.exponent) :
    Binary64.nearestRank d.unitsNum d.unitsDen = 0 := by
  -- a decimal place is worth more than three bits
  refine Binary64.nearestRank_eq_zero ?_
  have hexponent : d.exponent.toNat = 0 := by omega
  obtain ⟨n, hn, hone⟩ := exists_unitsPerOne
  have hle : d.coefficient.log2 + 1 + (n + 1) ≤ 3 * (-d.exponent).toNat := by omega
  calc 2 * d.unitsNum = d.coefficient * 2 ^ (n + 1) := by
        rw [unitsNum, hexponent, hone, pow_zero]
        ring
    _ < 2 ^ (d.coefficient.log2 + 1) * 2 ^ (n + 1) :=
      Nat.mul_lt_mul_of_pos_right Nat.lt_log2_self (Nat.two_pow_pos _)
    _ = 2 ^ (d.coefficient.log2 + 1 + (n + 1)) := (pow_add 2 _ _).symm
    _ ≤ 2 ^ (3 * (-d.exponent).toNat) := Nat.pow_le_pow_right (by decide) hle
    _ = 8 ^ (-d.exponent).toNat := pow_mul 2 3 _
    _ ≤ d.unitsDen := Nat.pow_le_pow_left (by decide) _

theorem toBinary64_eq_nearest (negative : Bool) (d : Decimal) :
    d.toBinary64 negative = Binary64.nearest negative d.unitsNum d.unitsDen := by
  unfold toBinary64 nearestRank Binary64.nearest
  split_ifs with hzero hhuge htiny
  · have hnum : d.unitsNum = 0 := by rw [unitsNum, hzero, Nat.zero_mul, Nat.zero_mul]
    have hden := d.unitsDen_pos
    rw [Binary64.nearestRank_eq_zero (by omega)]
  · have hle := ranks_le_of_huge hzero hhuge
    simp [Binary64.ofRank, Nat.not_lt.2 hle]
  · rw [nearestRank_of_tiny htiny]
  · simp only [unitsNum, unitsDen]
    generalize Binary64.unitsPerOne = one
    rfl

/-- The natural numbers of 64 bits are well inside the finite range. -/
theorem isFinite_toBinary64_of_lt (negative : Bool) {n : Nat} (hn : n < 2 ^ 64) :
    ((⟨n, 0⟩ : Decimal).toBinary64 negative).isFinite = true := by
  obtain ⟨k, hk, hone⟩ := exists_unitsPerOne
  have hnum : (⟨n, 0⟩ : Decimal).unitsNum = n * 2 ^ k := by
    rw [unitsNum, hone, Int.toNat_zero, pow_zero, Nat.mul_one]
  have hden : (⟨n, 0⟩ : Decimal).unitsDen = 1 := rfl
  have hlt : n * 2 ^ k < 1 * 2 ^ (11 + k + 53) := by
    have hexponent : 11 + k + 53 = 64 + k := by omega
    rw [Nat.one_mul, hexponent, pow_add]
    exact Nat.mul_lt_mul_of_pos_right hn (Nat.two_pow_pos k)
  have hle := Binary64.nearestRank_le hlt
  rw [toBinary64_eq_nearest, Binary64.nearest, Binary64.isFinite_ofRank, hnum, hden,
    Binary64.ranks_eq]
  omega

theorem toBinary64_scale (negative : Bool) (coefficient k : Nat) (exponent : Int) :
    (⟨coefficient * 10 ^ k, exponent⟩ : Decimal).toBinary64 negative =
      (⟨coefficient, exponent + k⟩ : Decimal).toBinary64 negative := by
  have hpow : 10 ^ k * 10 ^ exponent.toNat * 10 ^ (-(exponent + k)).toNat =
      10 ^ (exponent + k).toNat * 10 ^ (-exponent).toNat := by
    simp only [← pow_add]
    congr 1
    omega
  -- the two quotients are equal, on whichever side of the fraction the powers of ten stand
  rw [toBinary64_eq_nearest, toBinary64_eq_nearest, Binary64.nearest, Binary64.nearest]
  refine congrArg _ (Binary64.nearestRank_congr (unitsDen_pos _) (unitsDen_pos _) ?_)
  simp only [unitsNum, unitsDen]
  generalize Binary64.unitsPerOne = one
  calc coefficient * 10 ^ k * 10 ^ exponent.toNat * one * 10 ^ (-(exponent + k)).toNat
      = coefficient * one * (10 ^ k * 10 ^ exponent.toNat * 10 ^ (-(exponent + k)).toNat) := by
        ring
    _ = coefficient * one * (10 ^ (exponent + k).toNat * 10 ^ (-exponent).toNat) := by rw [hpow]
    _ = coefficient * 10 ^ (exponent + k).toNat * one * 10 ^ (-exponent).toNat := by ring

/-- A decimal of a smaller coefficient is finite if the greater one is. -/
theorem isFinite_of_coefficient_le {negative : Bool} {coefficient coefficient' : Nat}
    {exponent : Int} (hle : coefficient ≤ coefficient')
    (h : ((⟨coefficient', exponent⟩ : Decimal).toBinary64 negative).isFinite = true) :
    ((⟨coefficient, exponent⟩ : Decimal).toBinary64 negative).isFinite = true := by
  rw [toBinary64_eq_nearest, Binary64.nearest, Binary64.isFinite_ofRank] at h ⊢
  refine (Binary64.nearestRank_mono (unitsDen_pos _) ?_).trans_lt h
  exact Nat.mul_le_mul_right _ (Nat.mul_le_mul_right _ hle)

theorem isFinite_of_exponent_le {negative : Bool} {coefficient : Nat} {exponent exponent' : Int}
    (hle : exponent ≤ exponent')
    (h : ((⟨coefficient, exponent'⟩ : Decimal).toBinary64 negative).isFinite = true) :
    ((⟨coefficient, exponent⟩ : Decimal).toBinary64 negative).isFinite = true := by
  obtain ⟨k, rfl⟩ := Int.le.dest hle
  rw [← toBinary64_scale] at h
  exact isFinite_of_coefficient_le (Nat.le_mul_of_pos_right _ (Nat.pow_pos (by decide))) h

/-! ### Decimals that read back -/

theorem exists_exact_eq (rank : Nat) :
    ∃ n : Nat, n = 1074 ∧ exact rank = ⟨Binary64.units rank * 5 ^ n, -n⟩ := by
  have hexponent : (-1074 : Int) = -((1074 : Nat) : Int) := rfl
  unfold exact
  rw [hexponent]
  generalize 1074 = n
  exact ⟨n, rfl, rfl⟩

theorem toBinary64_exact (negative : Bool) (rank : Nat) :
    (exact rank).toBinary64 negative = Binary64.ofRank negative rank := by
  have hnum : (exact rank).unitsNum * 1 = Binary64.units rank * (exact rank).unitsDen := by
    obtain ⟨_, rfl, hone⟩ := exists_unitsPerOne
    obtain ⟨n, hn, hexact⟩ := exists_exact_eq rank
    rw [← hn] at hone
    rw [hexact, unitsNum, unitsDen, hone, Int.toNat_neg_natCast, neg_neg, Int.toNat_natCast,
      pow_zero, Nat.mul_one, Nat.mul_one, Nat.mul_assoc, ← Nat.mul_pow]
  rw [toBinary64_eq_nearest, Binary64.nearest,
    Binary64.nearestRank_congr (unitsDen_pos _) Nat.one_pos hnum, Binary64.nearestRank_units]

theorem nearestRank_of_shortestAt? {tie : TieRule} {rank n : Nat} {d : Decimal}
    (h : shortestAt? tie rank n = some d) : d.nearestRank = rank := by
  unfold shortestAt? at h
  dsimp only at h
  split_ifs at h with hlower hupper hupper'
  · exact Option.some.inj h ▸ hupper.1
  · exact Option.some.inj h ▸ hlower
  · exact Option.some.inj h ▸ hupper'

theorem toBinary64_shortest (negative : Bool) (tie : TieRule) (rank : Nat) :
    (shortest tie rank).toBinary64 negative = Binary64.ofRank negative rank := by
  unfold shortest
  cases hfound : (List.range' 1 17).findSome? (shortestAt? tie rank) with
  | none => exact toBinary64_exact negative rank
  | some d =>
    obtain ⟨n, -, hn⟩ := List.exists_of_findSome?_eq_some hfound
    rw [Option.getD_some, toBinary64, nearestRank_of_shortestAt? hn]

end Decimal

end FourFunction
