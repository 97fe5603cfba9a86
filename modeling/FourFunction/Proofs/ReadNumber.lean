import FourFunction.Proofs.ExactValues
import FourFunction.Proofs.WrittenNumeral

/-!
# Numbers read in rounded steps

The reader of JSON numbers may be off by the rounding of its steps, but the text of a finite number
is read as a finite number again (`Json.isFinite_toBinary64`).
-/

namespace FourFunction

namespace Binary64

theorem eq_of_ofRank_eq {s t : Bool} {r : ℕ} {rank : Fin ranks}
    (h : ofRank s r = .finite t rank) : r = rank := by
  unfold ofRank at h
  split_ifs at h
  cases h
  rfl

/-! ### Products and quotients of magnitudes -/

theorem mul_ofRank {a b : ℕ} (ha : a < ranks) (hb : b < ranks) :
    (ofRank false a).mul (ofRank false b) = ofRank false (rankOf (magnitude a * magnitude b)) := by
  have hunits : ((units a * units b : ℕ) / unitsPerOne / unitsPerOne : ℚ) =
      magnitude a * magnitude b := by
    rw [magnitude, magnitude, Nat.cast_mul]
    ring
  have hone : 0 < unitsPerOne := by exact_mod_cast unitsPerOne_pos
  have hrank := nearestRank_eq_rankOf (units a * units b) hone
  rw [hunits] at hrank
  simp only [ofRank, ha, hb, dif_pos, mul, nearest, bne_self_eq_false, hrank]

/-- A quotient by one or more is not greater. -/
theorem isFinite_div {x : Binary64} (hx : x.isFinite = true) {b : ℕ} (hb : b < ranks)
    (hone : 1 ≤ magnitude b) : (x.div (ofRank false b)).isFinite = true := by
  obtain ⟨s, a, rfl⟩ := isFinite_iff.1 hx
  have hmagnitude : magnitude b ≠ 0 := by linarith
  have hunits : units b ≠ 0 := by
    intro hzero
    rw [magnitude, hzero, Nat.cast_zero, zero_div] at hmagnitude
    exact hmagnitude rfl
  have hzero : b ≠ 0 := by
    rintro rfl
    exact hunits (Nat.zero_mul _)
  have hquotient : ((units a * unitsPerOne : ℕ) / units b / unitsPerOne : ℚ) =
      magnitude a / magnitude b := by
    have hone := unitsPerOne_pos
    rw [magnitude, magnitude, Nat.cast_mul]
    generalize unitsPerOne = one at hone ⊢
    field_simp
  have hrank := nearestRank_eq_rankOf (units a * unitsPerOne) (Nat.pos_of_ne_zero hunits)
  rw [hquotient] at hrank
  have hle : rankOf (magnitude a / magnitude b) ≤ a := by
    have hle := div_le_self (magnitude_nonneg a) hone
    have hmono := rankOf_mono (div_nonneg (magnitude_nonneg a) (magnitude_nonneg b)) hle
    rwa [rankOf_magnitude] at hmono
  simp only [ofRank, hb, dif_pos, div, hzero, if_false, nearest, hrank]
  exact isFinite_ofRank.2 (hle.trans_lt a.isLt)

theorem magnitude_one : magnitude (1023 * 2 ^ 52) = 1 := by
  have hunits : units (1023 * 2 ^ 52) = unitsPerOne := by decide +kernel
  rw [magnitude, hunits, div_self unitsPerOne_pos.ne']

theorem natCast_lt_magnitude {n : ℕ} (hn : n < UInt64.size) :
    (n : ℚ) < magnitude (ranks - 3) := by
  have hsize : magnitude (1087 * 2 ^ 52) = UInt64.size := by
    have hunits : units (1087 * 2 ^ 52) = UInt64.size * unitsPerOne := by decide +kernel
    rw [magnitude, hunits, Nat.cast_mul, mul_div_cancel_right₀ _ unitsPerOne_pos.ne']
  calc
    (n : ℚ) < UInt64.size := by exact_mod_cast hn
    _ = magnitude (1087 * 2 ^ 52) := hsize.symm
    _ < magnitude (ranks - 3) := magnitude_strictMono (by decide)

theorem le_rankOf {x : ℚ} (hx : 1 ≤ x) : 1023 * 2 ^ 52 ≤ rankOf x := by
  have hmono := rankOf_mono zero_le_one hx
  rwa [← magnitude_one, rankOf_magnitude] at hmono

theorem one_le_magnitude_rankOf {x : ℚ} (hx : 1 ≤ x) : 1 ≤ magnitude (rankOf x) := by
  rw [← magnitude_one]
  exact magnitude_strictMono.monotone (le_rankOf hx)

theorem magnitude_rankOf_mul_le {x : ℚ} (hx : 1 ≤ x) :
    magnitude (rankOf x) * (1 - 1 / 2 ^ 53) ≤ x := by
  have hrank : 2 ^ 52 ≤ rankOf x := le_trans (by decide) (le_rankOf hx)
  have herror := abs_magnitude_rankOf_sub_mul_le (zero_le_one.trans hx) hrank
  have habs := le_abs_self (magnitude (rankOf x) - x)
  linarith

/-- Three roundings lead at most two ranks up. -/
theorem isFinite_mul_rankOf {x y : ℚ} (hx : 1 ≤ x) (hy : 1 ≤ y) (hxrank : rankOf x < ranks)
    (hyrank : rankOf y < ranks) (hxy : x * y < magnitude (ranks - 3)) :
    ((ofRank false (rankOf x)).mul (ofRank false (rankOf y))).isFinite = true := by
  have hlast : magnitude (ranks - 1) = (2 ^ 53 - 1) * step 2045 := by
    have hrank : ranks - 1 = 2045 * 2 ^ 52 + (2 ^ 53 - 1) := by decide
    rw [hrank, magnitude_mul_add (by decide) fun _ => by decide]
    norm_num
  have hthird : magnitude (ranks - 3) = (2 ^ 53 - 3) * step 2045 := by
    have hrank : ranks - 3 = 2045 * 2 ^ 52 + (2 ^ 53 - 3) := by decide
    rw [hrank, magnitude_mul_add (by decide) fun _ => by decide]
    norm_num
  have hle : magnitude (rankOf x) * magnitude (rankOf y) ≤ magnitude (ranks - 1) := by
    have hpos := step_pos 2045
    have hxle := magnitude_rankOf_mul_le hx
    have hyle := magnitude_rankOf_mul_le hy
    have hprod := mul_le_mul hxle hyle (mul_nonneg (magnitude_nonneg _) (by norm_num)) (by linarith)
    rw [hthird] at hxy
    rw [hlast]
    generalize step 2045 = unit at *
    nlinarith
  rw [mul_ofRank hxrank hyrank, isFinite_ofRank]
  have hmono := rankOf_mono (mul_nonneg (magnitude_nonneg _) (magnitude_nonneg _)) hle
  rw [rankOf_magnitude] at hmono
  exact hmono.trans_lt (by decide)

end Binary64

namespace Decimal

open Binary64

/-! ### Powers of ten -/

theorem magnitude_natCast (c k : ℕ) : (⟨c, k⟩ : Decimal).magnitude = c * 10 ^ k := by
  rw [magnitude, zpow_natCast]

theorem powerOfTen_eq (k : ℕ) : powerOfTen k = ofRank false (rankOf (10 ^ k)) := by
  rw [powerOfTen, toBinary64_eq_ofRank, magnitude_natCast, Nat.cast_one, one_mul]

theorem rankOf_pow_lt {k : ℕ} (hk : k ≤ 308) : rankOf (10 ^ k) < ranks := by
  have hlast : rankOf (10 ^ 308) < ranks := by
    rw [← isFinite_ofRank (s := false), ← powerOfTen_eq]
    decide +kernel
  exact (rankOf_mono (by positivity) (pow_le_pow_right₀ (by norm_num) hk)).trans_lt hlast

theorem one_le_magnitude (k : ℕ) : 1 ≤ Binary64.magnitude (rankOf (10 ^ k)) := by
  exact one_le_magnitude_rankOf (one_le_pow₀ (by norm_num))

theorem isFinite_div_powerOfTen {x : Binary64} (hx : x.isFinite = true) {k : ℕ} (hk : k ≤ 308) :
    (x.div (powerOfTen k)).isFinite = true := by
  rw [powerOfTen_eq]
  exact isFinite_div hx (rankOf_pow_lt hk) (one_le_magnitude k)

theorem isFinite_divideDown {x : Binary64} (hx : x.isFinite = true) (n : ℕ) :
    (divideDown n x).isFinite = true := by
  induction n generalizing x with
  | zero => exact hx
  | succ n ih =>
    rw [divideDown]
    split_ifs
    · exact hx
    · exact ih (isFinite_div_powerOfTen hx le_rfl)

/-! ### Scaled decimals -/

theorem exponent_lt {d : Decimal} (hd : d.magnitude < Binary64.magnitude (ranks - 3))
    (hzero : d.coefficient ≠ 0) : d.exponent < 309 := by
  by_contra hnot
  have hhuge := ranks_le_of_huge hzero (not_lt.1 hnot)
  rw [nearestRank_eq_rankOf _ d.unitsDen_pos, unitsNum_div_unitsDen] at hhuge
  have hmono := rankOf_mono d.magnitude_nonneg hd.le
  rw [rankOf_magnitude] at hmono
  exact absurd (hhuge.trans hmono) (by decide)

section

variable {d : Decimal} (hcoefficient : d.coefficient < UInt64.size)
  (hd : d.magnitude < Binary64.magnitude (ranks - 3))

include hcoefficient hd

theorem isFinite_mul_powerOfTen (hneg : ¬d.exponent < 0) (hplaces : d.exponent.natAbs ≤ 308) :
    (((⟨d.coefficient, 0⟩ : Decimal).toBinary64 false).mul
      (powerOfTen d.exponent.natAbs)).isFinite = true := by
  have hrank := rankOf_pow_lt hplaces
  have hfinite := isFinite_toBinary64_of_lt false hcoefficient
  have hmagnitude : d.magnitude = d.coefficient * 10 ^ d.exponent.natAbs := by
    have hexponent : (d.exponent.natAbs : ℤ) = d.exponent := by omega
    rw [magnitude, ← zpow_natCast, hexponent]
  have hvalue : (⟨d.coefficient, (0 : ℕ)⟩ : Decimal).magnitude = d.coefficient := by
    rw [magnitude_natCast, pow_zero, mul_one]
  have hread : (⟨d.coefficient, 0⟩ : Decimal).toBinary64 false =
      ofRank false (rankOf d.coefficient) := by
    rw [← hvalue]
    exact toBinary64_eq_ofRank false _
  rw [hread, isFinite_ofRank] at hfinite
  rw [hread, powerOfTen_eq]
  by_cases hzero : d.coefficient = 0
  · have hnone : Binary64.magnitude 0 = 0 := by
      rw [magnitude_of_le (Nat.zero_le _), Nat.cast_zero, zero_mul]
    have hrankZero : rankOf 0 = 0 := by
      rw [← hnone, rankOf_magnitude]
    rw [mul_ofRank hfinite hrank, hzero, Nat.cast_zero, hrankZero, hnone, zero_mul, hrankZero]
    exact isFinite_ofRank.2 (by decide)
  · have hone : (1 : ℚ) ≤ d.coefficient := by exact_mod_cast Nat.pos_of_ne_zero hzero
    exact isFinite_mul_rankOf hone (one_le_pow₀ (by norm_num)) hfinite hrank (hmagnitude ▸ hd)

/-- Below the last three magnitudes no rounding leads past the finite range. -/
theorem isFinite_scaled : d.scaled.isFinite = true := by
  have hfinite := isFinite_toBinary64_of_lt false hcoefficient
  unfold scaled
  dsimp only
  split_ifs with hneg hplaces hzero
  · exact isFinite_div_powerOfTen (isFinite_divideDown hfinite _) (by omega)
  · exact isFinite_mul_powerOfTen hcoefficient hd hneg hplaces
  · exact hfinite
  · have hne : d.coefficient ≠ 0 := by
      intro hc
      rw [hc] at hzero
      exact hzero rfl
    have hlt := exponent_lt hd hne
    omega

end

end Decimal

namespace Json

open Binary64

/-! ### The digits that are kept -/

namespace Numeral

theorem exists_absorb_eq {n : ℕ} (hn : n < UInt64.size) (digits : List Char) :
    ∃ front, digits = front ++ (absorb n digits).2 ∧
      (absorb n digits).1 = Nat.ofDigitChars 10 front n ∧ (absorb n digits).1 < UInt64.size := by
  induction digits generalizing n with
  | nil => exact ⟨[], rfl, rfl, hn⟩
  | cons c digits ih =>
    rw [absorb]
    split_ifs with hlt
    · obtain ⟨front, hdigits, hvalue, hle⟩ := ih hlt
      exact ⟨c :: front, congrArg (c :: ·) hdigits, hvalue, hle⟩
    · exact ⟨[], rfl, rfl, hn⟩

theorem absorb_of_lt {n : ℕ} {digits : List Char}
    (h : Nat.ofDigitChars 10 digits n < UInt64.size) :
    absorb n digits = (Nat.ofDigitChars 10 digits n, []) := by
  induction digits generalizing n with
  | nil => rfl
  | cons c digits ih =>
    rw [Nat.ofDigitChars_cons] at h ⊢
    have hle := mul_pow_le_ofDigitChars digits (10 * n + (c.toNat - '0'.toNat))
    have hnext := (Nat.le_mul_of_pos_right _ (Nat.pow_pos (by decide))).trans hle
    rw [absorb, if_pos (hnext.trans_lt h), ih h]

section

variable {n : Numeral} (hwhole : Nat.ofDigitChars 10 n.whole 0 < UInt64.size)

include hwhole

/-- What is kept has 64 bits, and is not greater than the numeral. -/
theorem kept_le : n.kept.coefficient < UInt64.size ∧
    n.kept.magnitude ≤ (Decimal.ofParts n.whole n.fraction (n.exponent.getD 0)).magnitude := by
  obtain ⟨front, hfraction, hvalue, hlt⟩ := exists_absorb_eq hwhole n.fraction
  simp only [kept, absorb_of_lt hwhole]
  refine ⟨hlt, ?_⟩
  generalize (absorb (Nat.ofDigitChars 10 n.whole 0) n.fraction).1 = c at hvalue ⊢
  generalize (absorb (Nat.ofDigitChars 10 n.whole 0) n.fraction).2 = dropped at hfraction ⊢
  have hdigits : c * 10 ^ dropped.length ≤ Nat.ofDigitChars 10 (n.whole ++ n.fraction) 0 := by
    rw [hfraction, ← List.append_assoc, Nat.ofDigitChars_append, Nat.ofDigitChars_append, ← hvalue]
    exact mul_pow_le_ofDigitChars dropped c
  have hexponent : n.exponent.getD 0 + ([] : List Char).length -
      (n.fraction.length - dropped.length : ℕ) =
        dropped.length + (n.exponent.getD 0 - n.fraction.length) := by
    rw [hfraction, List.length_append, List.length_nil]
    omega
  rw [hexponent, Decimal.ofParts, Decimal.magnitude, Decimal.magnitude, zpow_add₀ (by norm_num),
    zpow_natCast, ← mul_assoc]
  exact mul_le_mul_of_nonneg_right (by exact_mod_cast hdigits) (by positivity)

theorem isFinite_toBinary64_of_lt
    (hvalue : (Decimal.ofParts n.whole n.fraction (n.exponent.getD 0)).magnitude <
      Binary64.magnitude (ranks - 3)) : n.toBinary64.isFinite = true := by
  obtain ⟨hcoefficient, hle⟩ := kept_le hwhole
  have hscaled := Decimal.isFinite_scaled hcoefficient (hle.trans_lt hvalue)
  rw [toBinary64]
  split_ifs
  · obtain ⟨s, r, hfinite⟩ := isFinite_iff.1 hscaled
    rw [hfinite]
    rfl
  · exact hscaled

end

end Numeral

/-- The texts of the three largest numbers. -/
def largest : List Decimal :=
  [⟨17976931348623153, 292⟩, ⟨17976931348623155, 292⟩, ⟨17976931348623157, 292⟩]

theorem exists_shortest_eq_of_le {rank : Fin ranks} (hrank : ranks - 3 ≤ rank.val) :
    ∃ d ∈ largest, Decimal.shortest .even rank = d := by
  have hmem : rank.val ∈ [ranks - 3, ranks - 2, ranks - 1] := by
    have hlt := rank.isLt
    simp only [List.mem_cons, List.not_mem_nil, or_false]
    omega
  revert hmem
  generalize rank.val = r
  revert r
  decide +kernel

theorem numeral_largest : ∀ negative, ∀ d ∈ largest,
    (numeral (signed negative (magnitude d))).map (fun read => read.1.toBinary64.isFinite) =
      .ok true := by
  decide +kernel

/-- The text of a finite number is read as a finite number, if not always as the same one. -/
theorem isFinite_toBinary64 {n : Numeral} (hn : n.WellFormed) (hlength : n.whole.length ≤ 16)
    {negative : Bool} {rank : Fin ranks} (hvalue : n.value = .finite negative rank)
    (htext : n.text = signed negative (magnitude (.shortest .even rank))) :
    n.toBinary64.isFinite = true := by
  by_cases hrank : rank.val < ranks - 3
  · have hwhole : Nat.ofDigitChars 10 n.whole 0 < UInt64.size :=
      (ofDigitChars_lt_pow hn.isDigit_whole).trans_le
        ((Nat.pow_le_pow_right (by decide) hlength).trans (by decide))
    refine Numeral.isFinite_toBinary64_of_lt hwhole ?_
    by_contra hnot
    have hmono := rankOf_mono (magnitude_nonneg _) (not_lt.1 hnot)
    rw [Numeral.value, Decimal.toBinary64_eq_ofRank] at hvalue
    rw [rankOf_magnitude, eq_of_ofRank_eq hvalue] at hmono
    exact absurd hrank (Nat.not_lt.2 hmono)
  · -- the steps happen to keep the last three numbers inside the range
    obtain ⟨d, hd, hshortest⟩ := exists_shortest_eq_of_le (not_lt.1 hrank)
    have hread := numeral_largest negative d hd
    rw [← hshortest, ← htext, ← List.append_nil n.text, numeral_text hn (by simp [Ends]),
      map_ok] at hread
    exact Except.ok.inj hread

end Json

end FourFunction
