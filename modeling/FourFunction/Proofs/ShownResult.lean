import FourFunction.Decimal.Text
import FourFunction.Proofs.WrittenNumeral
import Mathlib.Tactic

/-!
# The text of a result

A result is shown as a numeral of finite value, or as the word for infinity
(`Binary64.resultText_cases`).  A result other than zero is never rounded away
(`shownRank_ne_zero`).
-/

namespace FourFunction

namespace Decimal

/-! ### The leading place -/

theorem pow_digitCount_le {n : Nat} (hn : n ≠ 0) : 10 ^ (digitCount n - 1) ≤ n := by
  by_cases hone : digitCount n - 1 = 0
  · rw [hone, pow_zero]
    exact Nat.pos_of_ne_zero hn
  · have hlt : ¬ (Nat.toDigits 10 n).length ≤ digitCount n - 1 := by
      unfold digitCount at hone ⊢
      omega
    rw [Nat.length_toDigits_le_iff (by decide) (Nat.pos_of_ne_zero hone)] at hlt
    exact Nat.not_lt.1 hlt

theorem units_ne_zero {rank : Nat} (hrank : rank ≠ 0) : Binary64.units rank ≠ 0 := by
  intro hzero
  have hnearest := Binary64.nearestRank_units rank
  rw [hzero, Binary64.nearestRank_eq_zero (by decide)] at hnearest
  exact hrank hnearest.symm

theorem unitsPerOne_pos : 0 < Binary64.unitsPerOne := by
  obtain ⟨n, -, hone⟩ := exists_unitsPerOne
  rw [hone]
  exact Nat.two_pow_pos n

/-- The leading place with a variable scale, which nothing evaluates. -/
theorem exists_leadingPlace_eq (rank : Nat) :
    ∃ scale : Nat, scale = 324 ∧ leadingPlace rank =
      digitCount (Binary64.units rank * 10 ^ scale / Binary64.unitsPerOne) - (scale + 1 : Int) := by
  have hplace : (325 : Int) = (324 : Nat) + 1 := rfl
  unfold leadingPlace
  rw [hplace]
  generalize 324 = scale
  exact ⟨scale, rfl, rfl⟩

theorem unitsPerOne_le : ∀ scale, scale = 324 → Binary64.unitsPerOne ≤ 10 ^ scale := by
  rintro _ rfl
  decide +kernel

theorem exists_pow_le_units {rank : Nat} (hrank : rank ≠ 0) :
    ∃ scale k : Nat, leadingPlace rank = k - scale ∧
      10 ^ k * Binary64.unitsPerOne ≤ Binary64.units rank * 10 ^ scale := by
  obtain ⟨scale, hscale, hplace⟩ := exists_leadingPlace_eq rank
  have hscaled : Binary64.units rank * 10 ^ scale / Binary64.unitsPerOne ≠ 0 := by
    have hle : 10 ^ scale ≤ Binary64.units rank * 10 ^ scale :=
      Nat.le_mul_of_pos_left _ (Nat.pos_of_ne_zero (units_ne_zero hrank))
    exact (Nat.div_pos ((unitsPerOne_le scale hscale).trans hle) unitsPerOne_pos).ne'
  have hcount := pow_digitCount_le hscaled
  have hpos : 0 < digitCount (Binary64.units rank * 10 ^ scale / Binary64.unitsPerOne) :=
    List.length_pos_iff.2 Nat.toDigits_ne_nil
  rw [Nat.le_div_iff_mul_le unitsPerOne_pos] at hcount
  refine ⟨scale, _, ?_, hcount⟩
  rw [hplace]
  omega

theorem gridDen_eq (place : Int) : gridDen place = Binary64.unitsPerOne * 10 ^ place.toNat := rfl

theorem gridDen_pos (place : Int) : 0 < gridDen place :=
  Nat.mul_pos unitsPerOne_pos (Nat.pow_pos (by decide))

/-- Counted in units of its last place of `n` digits, a magnitude has `n` digits at least. -/
theorem pow_mul_gridDen_le {rank n : Nat} (hrank : rank ≠ 0) (hn : n ≠ 0) :
    10 ^ (n - 1) * gridDen (lastPlace rank n) ≤ gridNum rank (lastPlace rank n) := by
  obtain ⟨scale, k, hlead, hunits⟩ := exists_pow_le_units hrank
  have hplace : lastPlace rank n = k - scale + 1 - n := by rw [lastPlace, hlead]
  -- the powers of ten on both sides differ by the scale
  have hscale : ∀ (place : Int) (one units : Nat), place = k - scale + 1 - n →
      10 ^ k * one ≤ units * 10 ^ scale →
      10 ^ (n - 1) * (one * 10 ^ place.toNat) ≤ units * 10 ^ (-place).toNat := by
    intro place one units hplace hunits
    have hexponent : n - 1 + place.toNat + scale = k + (-place).toNat := by omega
    refine Nat.le_of_mul_le_mul_right ?_ (Nat.pow_pos (by decide) : 0 < 10 ^ scale)
    calc 10 ^ (n - 1) * (one * 10 ^ place.toNat) * 10 ^ scale
        = one * 10 ^ (n - 1 + place.toNat + scale) := by
          rw [pow_add, pow_add]
          ring
      _ = 10 ^ k * one * 10 ^ (-place).toNat := by
          rw [hexponent, pow_add]
          ring
      _ ≤ units * 10 ^ scale * 10 ^ (-place).toNat := Nat.mul_le_mul_right _ hunits
      _ = units * 10 ^ (-place).toNat * 10 ^ scale := Nat.mul_right_comm _ _ _
  exact hscale _ _ _ hplace hunits

/-- A decimal is not read as zero if it is more than half a unit. -/
theorem nearestRank_ne_zero {d : Decimal} (h : d.unitsDen < 2 * d.unitsNum) :
    d.nearestRank ≠ 0 := by
  have hpos := Binary64.nearestRank_pos h
  unfold nearestRank
  split_ifs with hzero hhuge htiny
  · have hnum : d.unitsNum = 0 := by rw [unitsNum, hzero, Nat.zero_mul, Nat.zero_mul]
    omega
  · decide
  · rw [nearestRank_of_tiny htiny] at hpos
    exact absurd hpos (Nat.lt_irrefl 0)
  · exact hpos.ne'

/-- A positive magnitude rounded to significant digits is not read as zero. -/
theorem nearestRank_rounded_ne_zero {rank n : Nat} (hrank : rank ≠ 0) (hn : n ≠ 0) :
    (rounded rank n).nearestRank ≠ 0 := by
  have hunits := Nat.pos_of_ne_zero (units_ne_zero hrank)
  have hgrid := pow_mul_gridDen_le hrank hn
  have hden := gridDen_pos (lastPlace rank n)
  have hle : gridDen (lastPlace rank n) ≤ gridNum rank (lastPlace rank n) :=
    (Nat.le_mul_of_pos_left _ (Nat.pow_pos (by decide))).trans hgrid
  have hquotient := Nat.div_pos hle hden
  have hround := le_roundedQuotient (gridNum rank (lastPlace rank n)) (gridDen (lastPlace rank n))
  refine nearestRank_ne_zero ?_
  calc (rounded rank n).unitsDen ≤ gridNum rank (lastPlace rank n) :=
        Nat.le_mul_of_pos_left _ hunits
    _ < gridDen (lastPlace rank n) *
          (gridNum rank (lastPlace rank n) / gridDen (lastPlace rank n) + 1) :=
      Nat.lt_mul_div_succ _ hden
    _ ≤ gridDen (lastPlace rank n) * (2 * (rounded rank n).coefficient) :=
      Nat.mul_le_mul_left _ (by rw [rounded]; dsimp only; omega)
    _ = 2 * (rounded rank n).unitsNum := by
      rw [gridDen_eq, unitsNum, rounded]
      ring

theorem coefficient_shortest_ne_zero (tie : TieRule) {rank : Nat} (hrank : rank ≠ 0)
    (hlt : rank < Binary64.ranks) : (shortest tie rank).coefficient ≠ 0 := by
  intro hzero
  have hread := toBinary64_shortest false tie rank
  rw [toBinary64_of_coefficient_eq_zero false hzero] at hread
  simp only [Binary64.ofRank, dif_pos hlt] at hread
  exact hrank (by simpa using hread.symm)

end Decimal

/-! ### Shown texts -/

theorem shownRank_ne_zero {rank : Nat} (hrank : rank ≠ 0) : shownRank rank ≠ 0 :=
  Decimal.nearestRank_rounded_ne_zero hrank (by decide)

def shownNumeral (negative : Bool) (rank : Nat) : Json.Numeral :=
  if plainFrom ≤ rank ∧ rank < plainBelow then (Decimal.shortest .up rank).plainNumeral negative
  else (Decimal.shortest .up rank).scientificNumeral negative

theorem value_shownNumeral (negative : Bool) {rank : Nat} (hrank : rank ≠ 0)
    (hlt : rank < Binary64.ranks) :
    (shownNumeral negative rank).value = Binary64.ofRank negative rank := by
  have hcoefficient := Decimal.coefficient_shortest_ne_zero .up hrank hlt
  rw [← Decimal.toBinary64_shortest negative .up rank, shownNumeral]
  split_ifs
  · exact Decimal.value_plainNumeral negative _
  · exact Decimal.value_scientificNumeral negative hcoefficient

theorem wellFormed_shownNumeral (negative : Bool) {rank : Nat} (hrank : rank ≠ 0)
    (hlt : rank < Binary64.ranks) : (shownNumeral negative rank).WellFormed := by
  have hcoefficient := Decimal.coefficient_shortest_ne_zero .up hrank hlt
  rw [shownNumeral]
  split_ifs
  · exact Decimal.wellFormed_plainNumeral negative hcoefficient
  · exact Decimal.wellFormed_scientificNumeral negative hcoefficient

theorem text_shownNumeral (negative : Bool) {rank : Nat} (hrank : rank ≠ 0)
    (hlt : rank < Binary64.ranks) :
    (shownNumeral negative rank).text = signed negative (shownText rank) := by
  have hcoefficient := Decimal.coefficient_shortest_ne_zero .up hrank hlt
  rw [shownNumeral, shownText, if_neg (Nat.not_le.2 hlt)]
  split_ifs
  · exact Decimal.text_plainNumeral negative hcoefficient
  · exact Decimal.text_scientificNumeral negative hcoefficient

theorem exists_numeral_shownText (negative : Bool) {rank : Nat} (hrank : rank ≠ 0)
    (hlt : rank < Binary64.ranks) :
    ∃ n : Json.Numeral, n.WellFormed ∧ n.text = signed negative (shownText rank) ∧
      n.value = Binary64.ofRank negative rank :=
  ⟨_, wellFormed_shownNumeral negative hrank hlt, text_shownNumeral negative hrank hlt,
    value_shownNumeral negative hrank hlt⟩

theorem Binary64.resultText_cases {x : Binary64} (hx : x.isFinite = true) :
    (∃ n : Json.Numeral, n.WellFormed ∧ n.value.isFinite = true ∧
      x.resultText = String.ofList n.text) ∨
    ∃ negative, x.resultText = String.ofList (signed negative ['i', 'n', 'f']) := by
  obtain ⟨negative, r, rfl⟩ := isFinite_iff.1 hx
  simp only [resultText]
  split_ifs with hzero
  · refine .inl ⟨⟨false, ['0'], [], none⟩, ⟨by simp, by simp, by simp, by simp⟩, ?_, rfl⟩
    have hvalue : (⟨false, ['0'], [], none⟩ : Json.Numeral).value = ofRank false 0 :=
      Decimal.toBinary64_of_coefficient_eq_zero false rfl
    rw [hvalue]
    exact isFinite_ofRank.2 (by decide)
  · by_cases hlt : shownRank r.val < ranks
    · obtain ⟨n, hn, htext, hvalue⟩ :=
        exists_numeral_shownText negative (shownRank_ne_zero hzero) hlt
      refine .inl ⟨n, hn, ?_, by rw [htext]⟩
      rw [hvalue]
      exact isFinite_ofRank.2 hlt
    · exact .inr ⟨negative, by rw [shownText, if_pos (Nat.not_lt.1 hlt)]⟩

theorem Binary64.resultText_ne_empty {x : Binary64} (hx : x.isFinite = true) :
    x.resultText ≠ "" := by
  rw [← String.toList_inj.ne]
  rcases resultText_cases hx with ⟨n, hn, -, htext⟩ | ⟨negative, htext⟩
  · rw [htext, String.toList_ofList, Json.Numeral.text]
    cases n.negative <;> simp [signed, hn.whole_ne_nil]
  · rw [htext, String.toList_ofList]
    cases negative <;> simp [signed]

end FourFunction
