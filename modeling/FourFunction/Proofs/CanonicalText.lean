import FourFunction.Proofs.ShortestDigits
import FourFunction.Proofs.ShownValue

/-!
# The canonical text of a result

The text of a result is a numeral of one of two shapes, positional (`Json.Numeral.IsPlain`) or with
an exponent (`Json.Numeral.IsScientific`), both without superfluous zeros.  Which one depends on the
number that the result is rounded to.
-/

namespace FourFunction

/-! ### Digits without the zeros around them -/

/-- Digits from the first to the last one that is not zero. -/
def trimZeros (digits : List Char) : List Char :=
  (digits.dropWhile (· == '0')).rdropWhile (· == '0')

theorem dropWhile_eq_self_of_head? {digits : List Char} (h : ∀ c ∈ digits.head?, c ≠ '0') :
    digits.dropWhile (· == '0') = digits := by
  cases digits with
  | nil => rfl
  | cons c rest => exact List.dropWhile_cons_of_neg (by simpa using h)

theorem trimZeros_zeros_append_zeros {digits : List Char} (hne : digits ≠ [])
    (hhead : ∀ c ∈ digits.head?, c ≠ '0') (hlast : ∀ c ∈ digits.getLast?, c ≠ '0') (j k : ℕ) :
    trimZeros (List.replicate j '0' ++ digits ++ List.replicate k '0') = digits := by
  have hfront : ∀ c ∈ (digits ++ List.replicate k '0').head?, c ≠ '0' := by
    rwa [List.head?_append_of_ne_nil _ hne]
  rw [← List.head?_reverse] at hlast
  rw [trimZeros, List.append_assoc, List.dropWhile_append_of_pos (by simp),
    dropWhile_eq_self_of_head? hfront, List.rdropWhile, List.reverse_append, List.reverse_replicate,
    List.dropWhile_append_of_pos (by simp), dropWhile_eq_self_of_head? hlast, List.reverse_reverse]

namespace Json.Numeral

def significantDigits (n : Numeral) : List Char := trimZeros (n.whole ++ n.fraction)

/-- No zero is in front of another digit of the whole part, or ends the fraction. -/
structure IsPlain (n : Numeral) : Prop extends n.WellFormed where
  exponent_eq : n.exponent = none
  getLast?_fraction : ∀ c ∈ n.fraction.getLast?, c ≠ '0'

/-- The digit in front of the point is not zero, nor is the last one behind it. -/
structure IsScientific (n : Numeral) : Prop extends n.WellFormed where
  length_whole_eq : n.whole.length = 1
  head?_whole : ∀ c ∈ n.whole.head?, c ≠ '0'
  getLast?_fraction : ∀ c ∈ n.fraction.getLast?, c ≠ '0'
  exponent_eq : ∃ e, n.exponent = some e ∧ (21 ≤ e ∨ e ≤ -7)

end Json.Numeral

namespace Decimal

open Json

variable {d : Decimal}

theorem getLast?_significantDigits_ne_zero (d : Decimal) :
    ∀ c ∈ d.significantDigits.getLast?, c ≠ '0' := by
  intro c hc
  rw [significantDigits, List.getLast?_reverse] at hc
  have hhead := List.head?_dropWhile_not (· == '0') (Nat.toDigits 10 d.coefficient).reverse
  rw [Option.mem_def.1 hc] at hhead
  simpa using hhead

theorem exists_zeros_wholeDigits_append (digits : List Char) (lead : ℤ) :
    ∃ j k, wholeDigits digits lead ++ fractionDigits digits lead =
      List.replicate j '0' ++ digits ++ List.replicate k '0' := by
  unfold wholeDigits fractionDigits
  split_ifs with hlead
  · refine ⟨(-lead - 1).toNat + 1, 0, ?_⟩
    simp [List.replicate_succ]
  · refine ⟨0, lead.toNat + 1 - digits.length, ?_⟩
    by_cases hlength : digits.length ≤ lead.toNat + 1
    · simp [List.take_of_length_le hlength, List.drop_of_length_le hlength]
    · have hpad : lead.toNat + 1 - digits.length = 0 := by omega
      simp [hpad]

theorem significantDigits_plainNumeral (negative : Bool) (hzero : d.coefficient ≠ 0) :
    (d.plainNumeral negative).significantDigits = d.significantDigits := by
  obtain ⟨j, k, hdigits⟩ := exists_zeros_wholeDigits_append d.significantDigits d.scientificExponent
  rw [Numeral.significantDigits, plainNumeral, hdigits]
  exact trimZeros_zeros_append_zeros (significantDigits_ne_nil hzero)
    (head?_significantDigits_ne_zero hzero) d.getLast?_significantDigits_ne_zero j k

theorem significantDigits_scientificNumeral (negative : Bool) (hzero : d.coefficient ≠ 0) :
    (d.scientificNumeral negative).significantDigits = d.significantDigits := by
  rw [Numeral.significantDigits, scientificNumeral, List.take_append_drop]
  simpa using trimZeros_zeros_append_zeros (significantDigits_ne_nil hzero)
    (head?_significantDigits_ne_zero hzero) d.getLast?_significantDigits_ne_zero 0 0

theorem isPlain_plainNumeral (negative : Bool) (hzero : d.coefficient ≠ 0) :
    (d.plainNumeral negative).IsPlain := by
  refine ⟨wellFormed_plainNumeral negative hzero, rfl, ?_⟩
  have hlast := d.getLast?_significantDigits_ne_zero
  have hne := significantDigits_ne_nil hzero
  simp only [plainNumeral, fractionDigits]
  split_ifs
  · rwa [List.getLast?_append_of_ne_nil _ hne]
  · rw [List.getLast?_drop]
    split_ifs
    · simp
    · exact hlast

theorem isScientific_scientificNumeral (negative : Bool) (hzero : d.coefficient ≠ 0)
    (hexponent : 21 ≤ d.scientificExponent ∨ d.scientificExponent ≤ -7) :
    (d.scientificNumeral negative).IsScientific := by
  have hhead := head?_significantDigits_ne_zero hzero
  have hlast := d.getLast?_significantDigits_ne_zero
  have hne := significantDigits_ne_nil hzero
  refine ⟨wellFormed_scientificNumeral negative hzero, ?_, ?_, ?_, _, rfl, hexponent⟩
  · rw [scientificNumeral, List.length_take]
    exact Nat.min_eq_left (List.length_pos_iff.2 hne)
  · rwa [scientificNumeral, List.head?_take, if_neg one_ne_zero]
  · rw [scientificNumeral, List.getLast?_drop]
    split_ifs
    · simp
    · exact hlast

/-! ### Rounding to digits -/

/-- The decimal is `x` rounded to `n` significant digits, half to even. -/
structure Rounds (d : Decimal) (n : ℕ) (x : ℚ) : Prop where
  zpow_le : (10 : ℚ) ^ (d.exponent + n - 1) ≤ x
  lt_zpow : x < 10 ^ (d.exponent + n)
  isRounded : IsRounded (x / 10 ^ d.exponent) d.coefficient

theorem Rounds.exponent_le {d' : Decimal} {n : ℕ} {x : ℚ} (h : d.Rounds n x)
    (h' : d'.Rounds n x) : d.exponent ≤ d'.exponent := by
  have hlt := h.zpow_le.trans_lt h'.lt_zpow
  rw [zpow_lt_zpow_iff_right₀ (by norm_num)] at hlt
  omega

theorem Rounds.eq {d' : Decimal} {n : ℕ} {x : ℚ} (h : d.Rounds n x) (h' : d'.Rounds n x) :
    d = d' := by
  obtain ⟨coefficient, exponent⟩ := d
  obtain ⟨coefficient', exponent'⟩ := d'
  obtain rfl : exponent = exponent' := (h.exponent_le h').antisymm (h'.exponent_le h)
  exact congrArg (Decimal.mk · exponent) (h.isRounded.eq h'.isRounded)

theorem rounds_rounded {rank : ℕ} (hrank : rank ≠ 0) (n : ℕ) :
    (rounded rank n).Rounds n (Binary64.magnitude rank) := by
  have hlead : (rounded rank n).exponent + n = leadingPlace rank + 1 := by
    rw [rounded]
    dsimp only
    rw [lastPlace]
    omega
  refine ⟨?_, ?_, isRounded_rounded rank n⟩
  · rw [hlead, add_sub_cancel_right]
    exact zpow_leadingPlace_le hrank
  · rw [hlead]
    exact magnitude_lt_zpow rank

end Decimal

/-! ### Shown ranks -/

theorem isSome_shortestAt?_shownRank (tie : TieRule) {rank : ℕ} (hrank : rank ≠ 0)
    (hlt : shownRank rank < Binary64.ranks) :
    (Decimal.shortestAt? tie (shownRank rank) resultDigits).isSome = true := by
  obtain ⟨m, hm⟩ := Decimal.exists_multiple_rankOf_eq (by decide) (rankOf_rounded_ne_zero hrank hlt)
  rw [shownRank_eq hlt] at hm
  exact Decimal.isSome_shortestAt? tie hlt hm

theorem length_significantDigits_shownRank_le (tie : TieRule) {rank : ℕ} (hrank : rank ≠ 0)
    (hlt : shownRank rank < Binary64.ranks) :
    (Decimal.shortest tie (shownRank rank)).significantDigits.length ≤ 15 :=
  Decimal.length_significantDigits_shortest_le (shownRank_ne_zero hrank) (by decide) (by decide)
    (isSome_shortestAt?_shownRank tie hrank hlt)

/-! ### The two thresholds -/

theorem plainFrom_lt_ranks : plainFrom < Binary64.ranks := by decide +kernel

theorem rankOf_zpow_neg_six : Binary64.rankOf (10 ^ (-6 : ℤ)) = plainFrom := by
  have hread := (Decimal.nearestRank_eq_iff (d := ⟨1, -6⟩) plainFrom_lt_ranks).1 rfl
  rwa [Decimal.magnitude, Nat.cast_one, one_mul] at hread

theorem toRat_plainFrom :
    ((⟨1, -6⟩ : Decimal).toBinary64 false).toRat = Binary64.magnitude plainFrom := by
  have hrank : (⟨1, -6⟩ : Decimal).nearestRank = plainFrom := rfl
  rw [Decimal.toBinary64, hrank, Binary64.ofRank, dif_pos plainFrom_lt_ranks, Binary64.toRat]

theorem magnitude_plainBelow : Binary64.magnitude plainBelow = 10 ^ 21 := by
  have hunits : Binary64.units plainBelow = 10 ^ 21 * Binary64.unitsPerOne := by decide +kernel
  rw [Binary64.magnitude, hunits, Nat.cast_mul,
    mul_div_cancel_right₀ _ Binary64.unitsPerOne_pos.ne']
  norm_num

/-- Whether the magnitude of a number is from `10 ^ (-6)`, as that is read, up to `10 ^ 21`. -/
def Binary64.InPlainRange (x : Binary64) : Prop :=
  ((⟨1, -6⟩ : Decimal).toBinary64 false).toRat ≤ |x.toRat| ∧ |x.toRat| < 10 ^ 21

theorem inPlainRange_iff (negative : Bool) (r : Fin Binary64.ranks) :
    (Binary64.finite negative r).InPlainRange ↔ plainFrom ≤ r.val ∧ r.val < plainBelow := by
  rw [Binary64.InPlainRange, Binary64.abs_toRat, toRat_plainFrom, ← magnitude_plainBelow,
    Binary64.magnitude_strictMono.le_iff_le, Binary64.magnitude_strictMono.lt_iff_lt]

/-- Outside of the thresholds the exponent of a shown rank is far from zero. -/
theorem scientificExponent_shownRank {rank : ℕ} (hrank : rank ≠ 0)
    (hlt : shownRank rank < Binary64.ranks)
    (hout : ¬(plainFrom ≤ shownRank rank ∧ shownRank rank < plainBelow)) :
    21 ≤ (Decimal.shortest .up (shownRank rank)).scientificExponent ∨
      (Decimal.shortest .up (shownRank rank)).scientificExponent ≤ -7 := by
  have hfound := isSome_shortestAt?_shownRank .up hrank hlt
  have hne := shownRank_ne_zero hrank
  generalize shownRank rank = shown at hlt hout hfound hne ⊢
  rcases not_and_or.1 hout with hsmall | hlarge
  · right
    have hcoefficient := Decimal.coefficient_shortest_ne_zero .up hne hlt
    have hread : Binary64.rankOf (Decimal.shortest .up shown).magnitude = shown := by
      rw [← Binary64.ofRank_eq_iff false hlt, ← Decimal.toBinary64_eq_ofRank,
        Decimal.toBinary64_shortest]
    have hbelow : (Decimal.shortest .up shown).magnitude < 10 ^ (-6 : ℤ) := by
      by_contra hge
      have hmono := Binary64.rankOf_mono (Decimal.ten_zpow_pos _).le (not_lt.1 hge)
      rw [rankOf_zpow_neg_six, hread] at hmono
      exact hsmall hmono
    have hpower := (Decimal.zpow_scientificExponent_le hcoefficient).trans_lt hbelow
    rw [zpow_lt_zpow_iff_right₀ (by norm_num)] at hpower
    omega
  · left
    have habove : Binary64.magnitude plainBelow ≤ Binary64.magnitude shown :=
      Binary64.magnitude_strictMono.monotone (not_lt.1 hlarge)
    rw [magnitude_plainBelow] at habove
    have hpower : (10 : ℚ) ^ (21 : ℤ) < 10 ^ (Decimal.leadingPlace shown + 1) := by
      exact_mod_cast habove.trans_lt (Decimal.magnitude_lt_zpow shown)
    rw [zpow_lt_zpow_iff_right₀ (by norm_num)] at hpower
    have hlead := Decimal.leadingPlace_le_scientificExponent hne (by decide) (by decide) hfound
    omega

theorem shape_shownNumeral (negative : Bool) {rank : ℕ} (hrank : rank ≠ 0)
    (hlt : shownRank rank < Binary64.ranks) :
    ((shownNumeral negative (shownRank rank)).IsPlain ↔
      plainFrom ≤ shownRank rank ∧ shownRank rank < plainBelow) ∧
    ((shownNumeral negative (shownRank rank)).IsScientific ↔
      ¬(plainFrom ≤ shownRank rank ∧ shownRank rank < plainBelow)) := by
  have hcoefficient := Decimal.coefficient_shortest_ne_zero .up (shownRank_ne_zero hrank) hlt
  rw [shownNumeral]
  split_ifs with hplain
  · refine ⟨iff_of_true (Decimal.isPlain_plainNumeral negative hcoefficient) hplain,
      iff_of_false (fun hshape => ?_) (not_not.2 hplain)⟩
    obtain ⟨e, he, -⟩ := hshape.exponent_eq
    cases he
  · have hexponent := scientificExponent_shownRank hrank hlt hplain
    refine ⟨iff_of_false (fun hshape => ?_) hplain,
      iff_of_true (Decimal.isScientific_scientificNumeral negative hcoefficient hexponent) hplain⟩
    cases hshape.exponent_eq

theorem length_significantDigits_shownNumeral_le (negative : Bool) {rank : ℕ} (hrank : rank ≠ 0)
    (hlt : shownRank rank < Binary64.ranks) :
    (shownNumeral negative (shownRank rank)).significantDigits.length ≤ 15 := by
  have hcoefficient := Decimal.coefficient_shortest_ne_zero .up (shownRank_ne_zero hrank) hlt
  have hdigits := length_significantDigits_shownRank_le .up hrank hlt
  rw [shownNumeral]
  split_ifs
  · rwa [Decimal.significantDigits_plainNumeral negative hcoefficient]
  · rwa [Decimal.significantDigits_scientificNumeral negative hcoefficient]

theorem negative_shownNumeral (negative : Bool) (rank : ℕ) :
    (shownNumeral negative rank).negative = negative := by
  rw [shownNumeral]
  split_ifs <;> rfl

/-! ### Texts of results -/

namespace Binary64

theorem toRat_lt_zero_iff (negative : Bool) {r : Fin ranks} (hrank : r.val ≠ 0) :
    (finite negative r).toRat < 0 ↔ negative = true := by
  have hpos := magnitude_pos hrank
  cases negative
  · simpa [toRat] using hpos.le
  · simpa [toRat] using hpos

variable {x : Binary64}

/-- The number that a result shows is read from the result rounded to 15 digits. -/
theorem exists_rounds_shown (hx : x.isFinite = true) (hzero : x.isZero = false) :
    ∃ d : Decimal, (∀ d' : Decimal, d'.Rounds 15 |x.toRat| ↔ d' = d) ∧
      d.toBinary64 (x.toRat < 0) = x.shown := by
  obtain ⟨negative, r, rfl⟩ := isFinite_iff.1 hx
  have hrank : r.val ≠ 0 := by simpa [isZero] using hzero
  have hrounds := Decimal.rounds_rounded hrank resultDigits
  simp only [abs_toRat, toRat_lt_zero_iff negative hrank, shown_of_ne_zero negative hrank,
    Bool.decide_eq_true]
  refine ⟨Decimal.rounded r resultDigits, fun d' => ⟨fun h => h.eq hrounds, ?_⟩, rfl⟩
  rintro rfl
  exact hrounds

theorem exists_numeral_of_shown (hx : x.isFinite = true) (hzero : x.isZero = false)
    (hshown : x.shown.isFinite = true) :
    ∃ n : Json.Numeral, x.resultText = String.ofList n.text ∧
      n.negative = decide (x.toRat < 0) ∧ n.significantDigits.length ≤ 15 ∧
      (n.IsPlain ↔ x.shown.InPlainRange) ∧ (n.IsScientific ↔ ¬x.shown.InPlainRange) := by
  obtain ⟨negative, r, rfl⟩ := isFinite_iff.1 hx
  have hrank : r.val ≠ 0 := by simpa [isZero] using hzero
  rw [shown_of_ne_zero negative hrank] at hshown ⊢
  have hlt := isFinite_ofRank.1 hshown
  simp only [ofRank, dif_pos hlt, inPlainRange_iff, resultText_of_ne_zero negative hrank,
    toRat_lt_zero_iff negative hrank, Bool.decide_eq_true,
    ← text_shownNumeral negative (shownRank_ne_zero hrank) hlt]
  exact ⟨_, rfl, negative_shownNumeral negative _,
    length_significantDigits_shownNumeral_le negative hrank hlt,
    shape_shownNumeral negative hrank hlt⟩

theorem resultText_neg (hx : x.isFinite = true) (hpos : 0 < x.toRat) :
    x.neg.resultText = "-" ++ x.resultText := by
  obtain ⟨negative, r, rfl⟩ := isFinite_iff.1 hx
  have hrank : r.val ≠ 0 := by
    intro hzero
    rw [← abs_of_pos hpos, abs_toRat, hzero, magnitude_zero] at hpos
    exact lt_irrefl 0 hpos
  have hsign : negative = false := by
    simpa using (toRat_lt_zero_iff negative hrank).not.1 hpos.not_gt
  rw [hsign, neg, resultText_of_ne_zero _ hrank, resultText_of_ne_zero _ hrank, ← String.toList_inj]
  simp [signed]

/-- With `r` for the number that is read from the result rounded to 15 digits, the text depends on
`r` only, is read as `r` and has at most 15 digits.  It has an exponent if `r` is outside of the
thresholds.  The text of a negative result has a minus sign more. -/
theorem resultText_canonical (hx : x.isFinite = true) (hzero : x.isZero = false)
    (hbelow : |x.toRat| < 1797693134862315 * 10 ^ (293 : ℤ)) :
    ∃ d : Decimal, (∀ d' : Decimal, d'.Rounds 15 |x.toRat| ↔ d' = d) ∧
      let r := d.toBinary64 (x.toRat < 0)
      r.isFinite = true ∧ ofText? x.resultText = some r ∧
      (∀ (y : Binary64) (d' : Decimal), y.isFinite = true → y.isZero = false →
        d'.Rounds 15 |y.toRat| → d'.toBinary64 (y.toRat < 0) = r → y.resultText = x.resultText) ∧
      (∃ n : Json.Numeral, x.resultText = String.ofList n.text ∧
        n.negative = decide (x.toRat < 0) ∧ n.significantDigits.length ≤ 15 ∧
        (n.IsPlain ↔ r.InPlainRange) ∧ (n.IsScientific ↔ ¬r.InPlainRange)) ∧
      (0 < x.toRat → x.neg.resultText = "-" ++ x.resultText) := by
  have hshown := (isFinite_shown_iff hx).2 hbelow
  obtain ⟨d, hrounds, hread⟩ := exists_rounds_shown hx hzero
  refine ⟨d, hrounds, ?_⟩
  rw [hread]
  refine ⟨hshown, ofText?_resultText hx, fun y d' hy hyzero hd' hsame => ?_,
    exists_numeral_of_shown hx hzero hshown, resultText_neg hx⟩
  obtain ⟨dy, hroundsy, hready⟩ := exists_rounds_shown hy hyzero
  rw [(hroundsy d').1 hd', hready] at hsame
  rw [← resultText_shown, hsame, resultText_shown]

/-- The greatest number below `10 ^ 21` is rounded to `10 ^ 21`, and written with an exponent. -/
theorem resultText_canonical_at_threshold :
    let x := ofBits 0x444b1ae4d6e2ef4f
    |x.toRat| < 10 ^ 21 ∧ x.resultText = "1e+21" ∧ x.neg.resultText = "-1e+21" ∧
      (∃ d : Decimal, d.Rounds 15 |x.toRat| ∧
        ofText? "1e+21" = some (d.toBinary64 (x.toRat < 0))) ∧
      ∃ n : Json.Numeral, "1e+21" = String.ofList n.text ∧ n.IsScientific := by
  intro x
  have hbits : x = .finite false ⟨plainBelow - 1, by decide +kernel⟩ := by decide +kernel
  have hrank : plainBelow - 1 ≠ 0 := by decide +kernel
  have hpos : 0 < x.toRat := by
    rw [hbits, toRat]
    exact magnitude_pos hrank
  have hlt : |x.toRat| < 10 ^ 21 := by
    rw [hbits, abs_toRat, ← magnitude_plainBelow]
    exact magnitude_strictMono (Nat.sub_one_lt (by decide +kernel))
  have htext : x.resultText = "1e+21" := by decide +kernel
  have hthreshold : ofText? "1e+21" = some (.finite false ⟨plainBelow, by decide +kernel⟩) := by
    decide +kernel
  have hx : x.isFinite = true := by decide +kernel
  obtain ⟨d, hrounds, -, hread, -, ⟨n, hn, -, -, -, hscientific⟩, hneg⟩ :=
    resultText_canonical hx (by decide +kernel) ((isFinite_shown_iff hx).1 (by decide +kernel))
  rw [htext] at hread hn hneg
  have hr := Option.some.inj (hread.symm.trans hthreshold)
  have hout : ¬(d.toBinary64 (x.toRat < 0)).InPlainRange := by
    rw [hr, inPlainRange_iff]
    exact fun hplain => lt_irrefl _ hplain.2
  exact ⟨hlt, htext, hneg hpos, ⟨d, (hrounds d).2 rfl, hread⟩, n, hn, hscientific.2 hout⟩

end Binary64

end FourFunction
