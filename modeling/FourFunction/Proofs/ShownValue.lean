import FourFunction.Proofs.PrintedTokens
import FourFunction.Proofs.SignificantDigits

/-!
# The number a text shows

The text of a result is read as the number it was rounded to (`ofText?_resultText`), which is off by
at most one part in `10 ^ 14` (`resultText_near`) and is shown by the same text
(`resultText_stable`).
-/

namespace FourFunction

/-! ### Shown ranks -/

theorem shownRank_eq {rank : ℕ} (hlt : shownRank rank < Binary64.ranks) :
    Binary64.rankOf (Decimal.rounded rank resultDigits).magnitude = shownRank rank :=
  (Decimal.nearestRank_eq_iff hlt).1 rfl

theorem rankOf_rounded_ne_zero {rank : ℕ} (hrank : rank ≠ 0)
    (hlt : shownRank rank < Binary64.ranks) :
    Binary64.rankOf (Decimal.rounded rank resultDigits).magnitude ≠ 0 := by
  rw [shownRank_eq hlt]
  exact shownRank_ne_zero hrank

theorem shownRank_shownRank {rank : ℕ} (hrank : rank ≠ 0) (hlt : shownRank rank < Binary64.ranks) :
    shownRank (shownRank rank) = shownRank rank := by
  have hagain := Decimal.rankOf_rounded_rankOf (by decide) (by decide)
    (rankOf_rounded_ne_zero hrank hlt)
  rw [shownRank_eq hlt] at hagain
  exact (Decimal.nearestRank_eq_iff hlt).2 hagain

/-! ### The shown magnitude -/

theorem abs_magnitude_shownRank_sub_le {rank : ℕ} (hrank : rank ≠ 0)
    (hlt : shownRank rank < Binary64.ranks) :
    |Binary64.magnitude (shownRank rank) - Binary64.magnitude rank| ≤
      Binary64.magnitude rank * 10 ^ (-14 : ℤ) := by
  have hdecimal := Decimal.abs_magnitude_rounded_sub_le rank resultDigits
  have hnearest := Binary64.abs_magnitude_rankOf_sub_le
    (Decimal.magnitude_nonneg (Decimal.rounded rank resultDigits)) rank
  rw [shownRank_eq hlt, abs_sub_comm (Binary64.magnitude rank)] at hnearest
  have hplace : (10 : ℚ) ^ Decimal.lastPlace rank resultDigits ≤
      Binary64.magnitude rank * 10 ^ (-14 : ℤ) := by
    have hlast : Decimal.lastPlace rank resultDigits = Decimal.leadingPlace rank + -14 := by
      rw [Decimal.lastPlace, resultDigits]
      omega
    rw [hlast, zpow_add₀ (by norm_num)]
    exact mul_le_mul_of_nonneg_right (Decimal.zpow_leadingPlace_le hrank) (by positivity)
  have htriangle := abs_sub_le (Binary64.magnitude (shownRank rank))
    (Decimal.rounded rank resultDigits).magnitude (Binary64.magnitude rank)
  linarith

theorem Decimal.leadingPlace_le_of_lt_ranks {rank : ℕ} (hrank : rank ≠ 0)
    (hlt : rank < Binary64.ranks) : leadingPlace rank ≤ 308 := by
  by_contra hlead
  have hpast : ¬Binary64.rankOf (⟨1, 309⟩ : Decimal).magnitude < Binary64.ranks :=
    nearestRank_lt_ranks_iff.not.1 (by simp [nearestRank])
  have hpow : (10 : ℚ) ^ (309 : ℤ) ≤ 10 ^ leadingPlace rank :=
    zpow_le_zpow_right₀ (by norm_num) (by omega)
  have hle : (⟨1, 309⟩ : Decimal).magnitude ≤ Binary64.magnitude rank := by
    rw [magnitude, Nat.cast_one, one_mul]
    exact hpow.trans (zpow_leadingPlace_le hrank)
  have hmono := Binary64.rankOf_mono (magnitude_nonneg _) hle
  rw [Binary64.rankOf_magnitude] at hmono
  exact hpast (hmono.trans_lt hlt)

theorem Decimal.exists_isRounded_of_leadingPlace_eq {rank : ℕ} (hlead : leadingPlace rank = 308) :
    ∃ m : ℕ, IsRounded (Binary64.magnitude rank / 10 ^ (294 : ℤ)) m ∧
      (rounded rank resultDigits).magnitude = m * 10 ^ (294 : ℤ) := by
  have hplace : lastPlace rank resultDigits = 294 := by
    rw [lastPlace, hlead]
    rfl
  have hround := isRounded_rounded rank resultDigits
  have hmagnitude := magnitude_rounded rank resultDigits
  rw [hplace] at hround hmagnitude
  exact ⟨_, hround, hmagnitude⟩

/-- Fifteen digits are past the finite range from half a place above the last ones that are not. -/
theorem shownRank_lt_ranks_iff {rank : ℕ} (hrank : rank ≠ 0) (hlt : rank < Binary64.ranks) :
    shownRank rank < Binary64.ranks ↔
      Binary64.magnitude rank < 1797693134862315 * 10 ^ (293 : ℤ) := by
  have hplace := Decimal.ten_zpow_pos 294
  have hhalf : (1797693134862315 * 10 ^ (293 : ℤ) : ℚ) =
      ((179769313486231 : ℕ) + 1 / 2) * 10 ^ (294 : ℤ) := by
    have hpow : (10 : ℚ) ^ (294 : ℤ) = 10 ^ (293 : ℤ) * 10 := zpow_add_one₀ (by norm_num) 293
    rw [hpow]
    generalize (10 : ℚ) ^ (293 : ℤ) = place
    push_cast
    ring
  have hpower : (10 : ℚ) ^ (308 : ℤ) = 10 ^ (14 : ℤ) * 10 ^ (294 : ℤ) :=
    zpow_add₀ (by norm_num) 14 294
  have hlead := Decimal.leadingPlace_le_of_lt_ranks hrank hlt
  rw [shownRank, Decimal.nearestRank_lt_ranks_iff, hhalf]
  constructor
  · intro hfinite
    by_contra hge
    have hpast : ¬Binary64.rankOf (⟨179769313486232, 294⟩ : Decimal).magnitude < Binary64.ranks :=
      Decimal.nearestRank_lt_ranks_iff.not.1 (by decide +kernel)
    refine hpast ((Binary64.rankOf_mono (Decimal.magnitude_nonneg _) ?_).trans_lt hfinite)
    have hlarge : (10 : ℚ) ^ (308 : ℤ) < 10 ^ (Decimal.leadingPlace rank + 1) := by
      refine lt_of_le_of_lt ?_ (Decimal.magnitude_lt_zpow rank)
      refine le_trans ?_ (not_lt.1 hge)
      rw [hpower]
      exact mul_le_mul_of_nonneg_right (by norm_num) hplace.le
    rw [zpow_lt_zpow_iff_right₀ (by norm_num)] at hlarge
    have heq : Decimal.leadingPlace rank = 308 := by omega
    obtain ⟨m, hround, hmagnitude⟩ := Decimal.exists_isRounded_of_leadingPlace_eq heq
    have hodd : 179769313486231 % 2 = 1 := by decide
    have hm := hround.lt_of_odd hodd ((le_div_iff₀ hplace).2 (not_lt.1 hge))
    rw [hmagnitude]
    exact mul_le_mul_of_nonneg_right (by exact_mod_cast hm) hplace.le
  · intro hbelow
    have hlast : Binary64.rankOf (⟨179769313486231, 294⟩ : Decimal).magnitude < Binary64.ranks :=
      Decimal.nearestRank_lt_ranks_iff.1 (by decide +kernel)
    refine (Binary64.rankOf_mono (Decimal.magnitude_nonneg _) ?_).trans_lt hlast
    by_cases heq : Decimal.leadingPlace rank = 308
    · obtain ⟨m, hround, hmagnitude⟩ := Decimal.exists_isRounded_of_leadingPlace_eq heq
      have hm := hround.le_of_lt ((div_lt_iff₀ hplace).2 hbelow)
      rw [hmagnitude]
      exact mul_le_mul_of_nonneg_right (by exact_mod_cast hm) hplace.le
    · refine (Decimal.magnitude_rounded_le rank resultDigits).trans ?_
      have hpow : (10 : ℚ) ^ (Decimal.leadingPlace rank + 1) ≤ 10 ^ (308 : ℤ) :=
        zpow_le_zpow_right₀ (by norm_num) (by omega)
      refine hpow.trans ?_
      rw [hpower, Decimal.magnitude]
      exact mul_le_mul_of_nonneg_right (by norm_num) hplace.le

/-! ### Shown numbers -/

namespace Binary64

def toRat : Binary64 → ℚ
  | .finite false r => magnitude r
  | .finite true r => -magnitude r
  | _ => 0

/-- The result rounded to 15 digits; zero loses its sign. -/
def shown : Binary64 → Binary64
  | .finite negative r => if r.val = 0 then .zero else ofRank negative (shownRank r)
  | x => x

theorem abs_toRat (negative : Bool) (r : Fin ranks) :
    |(finite negative r).toRat| = magnitude r := by
  have hnonneg := magnitude_nonneg r
  cases negative
  · rw [toRat, abs_of_nonneg hnonneg]
  · rw [toRat, abs_neg, abs_of_nonneg hnonneg]

theorem abs_toRat_sub (negative : Bool) (r s : Fin ranks) :
    |(finite negative r).toRat - (finite negative s).toRat| = |magnitude r - magnitude s| := by
  cases negative
  · rw [toRat, toRat]
  · rw [toRat, toRat, neg_sub_neg, abs_sub_comm]

/-- Half a place above the last 15 digits in the finite range is the threshold. -/
theorem isFinite_shown_iff {x : Binary64} (hx : x.isFinite = true) :
    x.shown.isFinite = true ↔ |x.toRat| < 1797693134862315 * 10 ^ (293 : ℤ) := by
  obtain ⟨negative, r, rfl⟩ := isFinite_iff.1 hx
  rw [abs_toRat, shown]
  by_cases hzero : r.val = 0
  · rw [if_pos hzero, hzero, magnitude_zero]
    exact iff_of_true rfl (by positivity)
  · rw [if_neg hzero, isFinite_ofRank, shownRank_lt_ranks_iff hzero r.isLt]

/-! ### Reading a shown text -/

theorem resultText_of_eq_zero (negative : Bool) {r : Fin ranks} (hzero : r.val = 0) :
    (finite negative r).resultText = "0" :=
  if_pos hzero

theorem resultText_of_ne_zero (negative : Bool) {r : Fin ranks} (hzero : r.val ≠ 0) :
    (finite negative r).resultText = String.ofList (signed negative (shownText (shownRank r))) :=
  if_neg hzero

theorem shown_of_ne_zero (negative : Bool) {r : Fin ranks} (hzero : r.val ≠ 0) :
    (finite negative r).shown = ofRank negative (shownRank r) :=
  if_neg hzero

theorem ofText?_infinity (negative : Bool) :
    ofText? (String.ofList (signed negative ['i', 'n', 'f'])) = some (.infinite negative) := by
  have hsplit : splitSign (signed negative ['i', 'n', 'f']) = (negative, ['i', 'n', 'f']) := by
    cases negative <;> rfl
  have hword : (String.ofList ['i', 'n', 'f']).toLower = "inf" := by
    rw [String.toLower, ← String.toList_inj, String.toList_map, String.toList_ofList]
    rfl
  rw [ofText?, String.toList_ofList, hsplit]
  dsimp only
  rw [hword]
  rfl

theorem ofText?_resultText {x : Binary64} (hx : x.isFinite = true) :
    ofText? x.resultText = some x.shown := by
  obtain ⟨negative, r, rfl⟩ := isFinite_iff.1 hx
  by_cases hzero : r.val = 0
  · have hnumeral : (⟨false, ['0'], [], none⟩ : Json.Numeral).WellFormed :=
      ⟨by simp, by simp, by simp, by simp⟩
    rw [resultText_of_eq_zero negative hzero, shown, if_pos hzero]
    refine (Json.Numeral.ofText?_text hnumeral).trans (congrArg some ?_)
    exact Decimal.toBinary64_of_coefficient_eq_zero false rfl
  · rw [resultText_of_ne_zero negative hzero, shown_of_ne_zero negative hzero]
    by_cases hlt : shownRank r.val < ranks
    · obtain ⟨n, hn, htext, hvalue⟩ :=
        exists_numeral_shownText negative (shownRank_ne_zero hzero) hlt
      rw [← htext, Json.Numeral.ofText?_text hn, hvalue]
    · rw [shownText, if_pos (Nat.not_lt.1 hlt), ofRank, dif_neg hlt, ofText?_infinity]

theorem resultText_shown (x : Binary64) : x.shown.resultText = x.resultText := by
  cases x with
  | nan => rfl
  | infinite negative => rfl
  | finite negative r =>
    by_cases hzero : r.val = 0
    · rw [shown, if_pos hzero, zero, resultText_of_eq_zero _ rfl, resultText_of_eq_zero _ hzero]
    · rw [shown_of_ne_zero negative hzero, resultText_of_ne_zero negative hzero]
      by_cases hlt : shownRank r.val < ranks
      · have hne := shownRank_ne_zero hzero
        have hagain := shownRank_shownRank hzero hlt
        generalize shownRank r.val = shown at hlt hne hagain ⊢
        rw [ofRank, dif_pos hlt, resultText_of_ne_zero negative hne, hagain]
      · rw [ofRank, dif_neg hlt, shownText, if_pos (Nat.not_lt.1 hlt)]
        rfl

theorem abs_toRat_shown_sub_le {x : Binary64} (hx : x.isFinite = true)
    (hshown : x.shown.isFinite = true) :
    |x.shown.toRat - x.toRat| ≤ |x.toRat| * 10 ^ (-14 : ℤ) := by
  obtain ⟨negative, r, rfl⟩ := isFinite_iff.1 hx
  by_cases hzero : r.val = 0
  · have hx : (finite negative r).toRat = 0 := by
      rw [← abs_eq_zero, abs_toRat, hzero, magnitude_zero]
    have hy : (finite negative r).shown.toRat = 0 := by
      rw [shown, if_pos hzero, zero, toRat, magnitude_zero]
    rw [hx, hy, sub_zero, abs_zero, zero_mul]
  · rw [shown_of_ne_zero negative hzero] at hshown ⊢
    have hlt := isFinite_ofRank.1 hshown
    have hnear := abs_magnitude_shownRank_sub_le hzero hlt
    rw [ofRank, dif_pos hlt, abs_toRat_sub, abs_toRat]
    dsimp only
    exact hnear

end Binary64

/-! ### The laws of shown texts -/

theorem evaluate_number {x : Binary64} (hx : x.isFinite = true) : evaluate [.number x] = .ok x := by
  have hlinks : ∀ link ∈ ([] : List Link), link.2.isFinite = true := by simp
  have hchain := evaluateWith_chainTokens Operator.apply hx hlinks
  rwa [readLinks_nil, ok_bind] at hchain

/-- Digits and at most one point are an expression. -/
theorem evaluateText_of_ofText? {text : String} {x : Binary64} (hx : x.isFinite = true)
    (hread : Binary64.ofText? text = some x)
    (hliteral : text.toList ∈ literals) : evaluateText text = .ok x := by
  have hmem : text.toList ∈ (Token.number x).texts := by
    refine ⟨hliteral, ?_, hx⟩
    rwa [String.ofList_toList]
  have htokens := tokenize_of_mem_texts hmem
  rw [String.ofList_toList] at htokens
  rw [evaluateText_of_tokenize_eq_ok htokens, evaluate_number hx]

/-- The characters of a numeral or of the word for infinity tell them apart. -/
theorem Binary64.resultText_mem_literals {x : Binary64} (hx : x.isFinite = true)
    (hchars : ∀ c ∈ x.resultText.toList, startsNumber c = true)
    (hpoints : x.resultText.toList.count '.' ≤ 1) :
    x.resultText.toList ∈ literals ∧ x.shown.isFinite = true := by
  have hread := ofText?_resultText hx
  rcases resultText_cases hx with ⟨n, hn, hfinite, htext⟩ | ⟨negative, htext⟩
  · rw [htext, Json.Numeral.ofText?_text hn] at hread
    obtain ⟨first, rest, hwhole⟩ := List.exists_cons_of_ne_nil hn.whole_ne_nil
    have hdigit := hn.isDigit_whole first (by simp [hwhole])
    refine ⟨mem_literals_iff_count.2 ⟨hchars, List.any_eq_true.2 ⟨first, ?_, hdigit⟩, hpoints⟩, ?_⟩
    · rw [htext, String.toList_ofList, Json.Numeral.text, hwhole]
      cases n.negative <;> simp [signed]
    · rw [← Option.some.inj hread, hfinite]
  · -- the word has letters
    have hletter := hchars 'i'
    rw [htext, String.toList_ofList] at hletter
    have hmem : 'i' ∈ signed negative ['i', 'n', 'f'] := by
      cases negative <;> simp [signed]
    exact absurd (hletter hmem) (by decide)

theorem Binary64.exists_numeral_resultText {x : Binary64} (hx : x.isFinite = true)
    (hshown : x.shown.isFinite = true) :
    ∃ n : Json.Numeral, n.WellFormed ∧ x.resultText = String.ofList n.text := by
  rcases resultText_cases hx with ⟨n, hn, -, htext⟩ | ⟨negative, htext⟩
  · exact ⟨n, hn, htext⟩
  · have hread := ofText?_resultText hx
    rw [htext, ofText?_infinity] at hread
    rw [← Option.some.inj hread] at hshown
    cases hshown

theorem Binary64.resultText_of_threshold_le {x : Binary64} (hx : x.isFinite = true)
    (hle : 1797693134862315 * 10 ^ (293 : ℤ) ≤ |x.toRat|) :
    x.resultText = if x.toRat < 0 then "-inf" else "inf" := by
  obtain ⟨negative, r, rfl⟩ := isFinite_iff.1 hx
  rw [abs_toRat] at hle
  have hpos : 0 < magnitude r := lt_of_lt_of_le (by positivity) hle
  have hzero : r.val ≠ 0 := by
    intro hzero
    rw [hzero, magnitude_zero] at hpos
    exact lt_irrefl 0 hpos
  have hpast : ranks ≤ shownRank r := by
    rw [← not_lt, shownRank_lt_ranks_iff hzero r.isLt, not_lt]
    exact hle
  rw [resultText_of_ne_zero negative hzero, shownText, if_pos hpast]
  cases negative
  · rw [toRat, if_neg (not_lt.2 hpos.le)]
    rfl
  · rw [toRat, if_pos (neg_lt_zero.2 hpos)]
    rfl

/-- Below the threshold the text is a numeral of a finite number that is off by at most one part in
`10 ^ 14`; from the threshold on it is the word for infinity. -/
theorem resultText_near {x : Binary64} (hx : x.isFinite = true) :
    (|x.toRat| < 1797693134862315 * 10 ^ (293 : ℤ) →
      (∃ n : Json.Numeral, n.WellFormed ∧ x.resultText = String.ofList n.text) ∧
      ∃ y, Binary64.ofText? x.resultText = some y ∧ y.isFinite = true ∧
        |y.toRat - x.toRat| ≤ |x.toRat| * 10 ^ (-14 : ℤ)) ∧
    (1797693134862315 * 10 ^ (293 : ℤ) ≤ |x.toRat| →
      x.resultText = if x.toRat < 0 then "-inf" else "inf") := by
  refine ⟨fun hbelow => ?_, Binary64.resultText_of_threshold_le hx⟩
  have hshown := (Binary64.isFinite_shown_iff hx).2 hbelow
  exact ⟨Binary64.exists_numeral_resultText hx hshown, x.shown, Binary64.ofText?_resultText hx,
    hshown, Binary64.abs_toRat_shown_sub_le hx hshown⟩

/-- The least positive number, and the largest number. -/
theorem resultText_near_at_ends :
    (∃ y, Binary64.ofText? "5e-324" = some y ∧
      |y.toRat - (Binary64.ofBits 1).toRat| ≤ |(Binary64.ofBits 1).toRat| * 10 ^ (-14 : ℤ)) ∧
    (Binary64.ofBits 0x7fefffffffffffff).resultText = "inf" := by
  have hleast : (Binary64.ofBits 1).isFinite = true := by decide +kernel
  have hlargest : (Binary64.ofBits 0x7fefffffffffffff).isFinite = true := by decide +kernel
  have htext : (Binary64.ofBits 1).resultText = "5e-324" := by decide +kernel
  have hnonneg : ¬(Binary64.ofBits 0x7fefffffffffffff).toRat < 0 := by
    have hbits : Binary64.ofBits 0x7fefffffffffffff =
        .finite false ⟨Binary64.ranks - 1, by decide⟩ := by decide +kernel
    rw [hbits, Binary64.toRat]
    exact not_lt.2 (Binary64.magnitude_nonneg _)
  obtain ⟨-, y, hread, -, hnear⟩ := (resultText_near hleast).1
    ((Binary64.isFinite_shown_iff hleast).1 (by decide +kernel))
  rw [htext] at hread
  refine ⟨⟨y, hread, hnear⟩, ?_⟩
  have hpast := (Binary64.isFinite_shown_iff hlargest).not.1 (by decide +kernel)
  rw [(resultText_near hlargest).2 (not_lt.1 hpast), if_neg hnonneg]

/-- The text of a result is read as a number that has the same text, and evaluates to it if it is
made of digits and at most one point. -/
theorem resultText_stable {x : Binary64} (hx : x.isFinite = true) :
    Binary64.ofText? x.resultText = some x.shown ∧ x.shown.resultText = x.resultText ∧
      ((∀ c ∈ x.resultText.toList, startsNumber c = true) → x.resultText.toList.count '.' ≤ 1 →
        evaluateText x.resultText = .ok x.shown) := by
  have hread := Binary64.ofText?_resultText hx
  refine ⟨hread, x.resultText_shown, fun hchars hpoints => ?_⟩
  obtain ⟨hliteral, hshown⟩ := Binary64.resultText_mem_literals hx hchars hpoints
  exact evaluateText_of_ofText? hshown hread hliteral

/-- The sum of one tenth and two tenths, which is next to three tenths. -/
theorem resultText_stable_at_tenths :
    (Binary64.ofBits 0x3fd3333333333334).resultText = "0.3" ∧
      (Binary64.ofBits 0x3fd3333333333333).resultText = "0.3" ∧
      evaluateText "0.3" = .ok (.ofBits 0x3fd3333333333333) := by
  have hfinite : (Binary64.ofBits 0x3fd3333333333334).isFinite = true := by decide +kernel
  have htext : (Binary64.ofBits 0x3fd3333333333334).resultText = "0.3" := by decide +kernel
  have hvalue : Binary64.ofText? "0.3" = some (.ofBits 0x3fd3333333333333) := by decide +kernel
  obtain ⟨hread, hagain, hevaluate⟩ := resultText_stable hfinite
  rw [htext] at hread hagain hevaluate
  have hshown := Option.some.inj (hread.symm.trans hvalue)
  rw [hshown] at hagain hevaluate
  have hchars : ∀ c ∈ "0.3".toList, startsNumber c = true := by simp [startsNumber]
  have hpoints : "0.3".toList.count '.' ≤ 1 := by simp
  exact ⟨htext, hagain, hevaluate hchars hpoints⟩

end FourFunction
