import FourFunction.Proofs.Concatenation
import FourFunction.Proofs.MaximalRuns
import FourFunction.Proofs.ShownResult

/-!
# Digits typed behind a numeral

Digits and points typed behind the text of a result cannot make a finite number of what is none on
the way (`readsFinite_of_resultText_append`), and the scanner objects to it
(`readsFinite_of_tokenize_resultText`).
-/

namespace FourFunction

def ReadsFinite (text : List Char) : Prop :=
  ∃ x, Binary64.ofText? (String.ofList text) = some x ∧ x.isFinite = true

def ReadsDecimal (negative : Bool) (text : List Char) : Prop :=
  ∃ d, Decimal.ofNumeral? text = some d ∧ (d.toBinary64 negative).isFinite = true

theorem isDigit_or_point_of_startsNumber {c : Char} (h : startsNumber c = true) :
    c.isDigit = true ∨ c = '.' := by
  rwa [startsNumber, Bool.or_eq_true, beq_iff_eq] at h

theorem readsFinite_signed_iff {negative : Bool} {s : List Char}
    (hsign : ∀ c ∈ s.head?, c ≠ '-' ∧ c ≠ '+') (hs : ∃ c ∈ s, startsNumber c = true) :
    ReadsFinite (signed negative s) ↔ ReadsDecimal negative s := by
  obtain ⟨c, hmem, hc⟩ := hs
  rw [ReadsFinite, ReadsDecimal,
    Binary64.ofText?_signed negative hsign ⟨c, hmem, isDigit_or_point_of_startsNumber hc⟩]
  simp

/-! ### Digits of a decimal -/

namespace Decimal

variable {negative : Bool} {whole : List Char}

theorem isFinite_of_fraction_append {fraction more : List Char} {exponent : Int}
    (h : ((ofParts whole (fraction ++ more) exponent).toBinary64 negative).isFinite = true) :
    ((ofParts whole fraction exponent).toBinary64 negative).isFinite = true := by
  have hle := ofDigitChars_mul_pow_le (whole ++ fraction) more
  rw [ofParts, ← List.append_assoc] at h
  have hscaled := isFinite_of_coefficient_le hle h
  have hexponent : exponent - ((fraction ++ more).length : Int) + (more.length : Int) =
      exponent - fraction.length := by
    rw [List.length_append]
    omega
  rwa [toBinary64_scale, hexponent] at hscaled

theorem isFinite_of_whole_append {more : List Char} {exponent : Int}
    (h : ((ofParts (whole ++ more) [] exponent).toBinary64 negative).isFinite = true) :
    ((ofParts whole [] exponent).toBinary64 negative).isFinite = true := by
  simp only [ofParts, List.append_nil] at h ⊢
  exact isFinite_of_coefficient_le (ofDigitChars_le_append whole more) h

theorem isFinite_of_parts_exponent_le {fraction : List Char} {exponent exponent' : Int}
    (hle : exponent ≤ exponent')
    (h : ((ofParts whole fraction exponent').toBinary64 negative).isFinite = true) :
    ((ofParts whole fraction exponent).toBinary64 negative).isFinite = true :=
  isFinite_of_exponent_le (Int.sub_le_sub_right hle _) h

end Decimal

/-! ### Runs of digits and points -/

/-- A run that starts with a digit reads as a finite number if a longer one does. -/
theorem readsDecimal_of_run_append {negative : Bool} {run more : List Char} (hne : run ≠ [])
    (hhead : ∀ c ∈ run.head?, c.isDigit = true) (hrun : ∀ c ∈ run ++ more, startsNumber c = true)
    (h : ReadsDecimal negative (run ++ more)) : ReadsDecimal negative run := by
  obtain ⟨d, hd, hfinite⟩ := h
  -- the point is behind the shorter run, or in it, or a second one is somewhere
  rcases run_cases hrun with hdigits | ⟨whole, fraction, hwhole, hfraction, heq | ⟨rest, heq⟩⟩
  · have hprefix : ∀ c ∈ run, c.isDigit = true := fun c hc => hdigits c (List.mem_append_left _ hc)
    rw [Decimal.ofNumeral?_digits hdigits (by simp [hne])] at hd
    obtain rfl := Option.some.inj hd
    exact ⟨_, Decimal.ofNumeral?_digits hprefix hne, Decimal.isFinite_of_whole_append hfinite⟩
  · have hwholeNe : whole ≠ [] := by
      rintro rfl
      obtain ⟨c, rest, rfl⟩ := List.exists_cons_of_ne_nil hne
      obtain ⟨rfl, -⟩ := List.cons.inj heq
      simpa using hhead '.' rfl
    rw [heq, Decimal.ofNumeral?_point hwhole hfraction (.inl hwholeNe)] at hd
    obtain rfl := Option.some.inj hd
    have hnofraction : ((Decimal.ofParts whole [] 0).toBinary64 negative).isFinite = true :=
      Decimal.isFinite_of_fraction_append (by simpa using hfinite)
    rcases List.append_eq_append_iff.1 heq with ⟨tail, rfl, -⟩ | ⟨tail, rfl, htail⟩
    · have hprefix : ∀ c ∈ run, c.isDigit = true := fun c hc => hwhole c (List.mem_append_left _ hc)
      exact ⟨_, Decimal.ofNumeral?_digits hprefix hne, Decimal.isFinite_of_whole_append hnofraction⟩
    · cases tail with
      | nil =>
        rw [List.append_nil]
        exact ⟨_, Decimal.ofNumeral?_digits hwhole hwholeNe, hnofraction⟩
      | cons c tail =>
        obtain ⟨rfl, rfl⟩ := List.cons.inj htail
        have hprefix : ∀ c ∈ tail, c.isDigit = true := fun c hc =>
          hfraction c (List.mem_append_left _ hc)
        exact ⟨_, Decimal.ofNumeral?_point hwhole hprefix (.inl hwholeNe),
          Decimal.isFinite_of_fraction_append hfinite⟩
  · rw [heq, Decimal.ofNumeral?_points rest hwhole hfraction] at hd
    cases hd

/-! ### Exponents -/

open Json (Numeral)

/-- Digits behind a written exponent go on with it; a point does not. -/
theorem exponent?_signedExponent_append (e : Int) (typed : List Char) :
    exponent? ('e' :: (Decimal.signedExponent e ++ typed)) =
      if typed.all Char.isDigit then
        some (signedValue (e < 0) (Nat.toDigits 10 e.natAbs ++ typed))
      else none := by
  have hsign : splitSign (Decimal.signedExponent e ++ typed) =
      (decide (e < 0), Nat.toDigits 10 e.natAbs ++ typed) := by
    by_cases h : e < 0 <;> simp [Decimal.signedExponent, splitSign, h]
  have hdigits : (Nat.toDigits 10 e.natAbs).all Char.isDigit = true :=
    List.all_eq_true.2 fun c hc => Nat.isDigit_of_mem_toDigits (by decide) (by decide) hc
  have hne : (Nat.toDigits 10 e.natAbs ++ typed).isEmpty = false := by
    simp [Nat.toDigits_ne_nil]
  simp only [exponent?, hsign, hne, List.all_append, hdigits, beq_self_eq_true, Bool.true_or,
    Bool.not_false, Bool.true_and]

theorem ofNumeral?_exponent {whole fraction : List Char} (hne : whole ≠ [])
    (hwhole : ∀ c ∈ whole, c.isDigit = true) (hfraction : ∀ c ∈ fraction, c.isDigit = true)
    (s : List Char) :
    Decimal.ofNumeral? (whole ++ (Decimal.pointed fraction ++ 'e' :: s)) =
      (exponent? ('e' :: s)).map (Decimal.ofParts whole fraction) := by
  have hhead : ∀ c ∈ (Decimal.pointed fraction ++ 'e' :: s).head?, c.isDigit = false := by
    unfold Decimal.pointed
    split_ifs <;> simp
  have hrest : splitFraction (Decimal.pointed fraction ++ 'e' :: s) = (fraction, 'e' :: s) := by
    unfold Decimal.pointed
    split_ifs with hempty
    · simp [splitFraction, hempty]
    · exact splitDigits_append hfraction (by simp)
  simp [Decimal.ofNumeral?, splitDigits_append hwhole hhead, hrest, hne]

/-- More digits make an exponent grow if it is not negative, and otherwise not. -/
theorem signedValue_append_le (e : Int) (typed more : List Char) :
    signedValue (e < 0) (Nat.toDigits 10 e.natAbs ++ typed) ≤
      max e (signedValue (e < 0) (Nat.toDigits 10 e.natAbs ++ (typed ++ more))) := by
  have hstart := ofDigitChars_le_append (Nat.toDigits 10 e.natAbs) typed
  have hmore := ofDigitChars_le_append (Nat.toDigits 10 e.natAbs ++ typed) more
  rw [Nat.ofDigitChars_ten_toDigits] at hstart
  rw [List.append_assoc] at hmore
  unfold signedValue
  by_cases hneg : e < 0
  · rw [if_pos (decide_eq_true hneg)]
    exact le_max_of_le_left (by omega)
  · rw [if_neg (by simpa using hneg), if_neg (by simpa using hneg)]
    exact le_max_of_le_right (by omega)

section

variable {negative : Bool} {whole fraction : List Char} {e : Int} {typed more : List Char}
  (hne : whole ≠ []) (hwhole : ∀ c ∈ whole, c.isDigit = true)
  (hfraction : ∀ c ∈ fraction, c.isDigit = true)

include hne hwhole hfraction

theorem readsDecimal_exponent_iff :
    ReadsDecimal negative
        (whole ++ (Decimal.pointed fraction ++ 'e' :: (Decimal.signedExponent e ++ typed))) ↔
      typed.all Char.isDigit = true ∧
        ((Decimal.ofParts whole fraction (signedValue (e < 0)
          (Nat.toDigits 10 e.natAbs ++ typed))).toBinary64 negative).isFinite = true := by
  rw [ReadsDecimal, ofNumeral?_exponent hne hwhole hfraction, exponent?_signedExponent_append]
  split_ifs with hdigits <;> simp [hdigits]

theorem readsDecimal_of_exponent_append
    (hfinite : ((Decimal.ofParts whole fraction e).toBinary64 negative).isFinite = true)
    (h : ReadsDecimal negative
      (whole ++ (Decimal.pointed fraction ++
        'e' :: (Decimal.signedExponent e ++ (typed ++ more))))) :
    ReadsDecimal negative
      (whole ++ (Decimal.pointed fraction ++ 'e' :: (Decimal.signedExponent e ++ typed))) := by
  rw [readsDecimal_exponent_iff hne hwhole hfraction] at h ⊢
  obtain ⟨hdigits, hlong⟩ := h
  rw [List.all_append, Bool.and_eq_true] at hdigits
  refine ⟨hdigits.1, Decimal.isFinite_of_parts_exponent_le (signedValue_append_le e typed more) ?_⟩
  rcases max_choice e (signedValue (e < 0) (Nat.toDigits 10 e.natAbs ++ (typed ++ more))) with
    hmax | hmax
  · rw [hmax]
    exact hfinite
  · rw [hmax]
    exact hlong

end

/-! ### Numerals -/

theorem signed_append (negative : Bool) (s t : List Char) :
    signed negative s ++ t = signed negative (s ++ t) := by
  cases negative <;> rfl

theorem Decimal.isFinite_toBinary64_congr (d : Decimal) (negative negative' : Bool) :
    (d.toBinary64 negative).isFinite = true ↔ (d.toBinary64 negative').isFinite = true := by
  rw [toBinary64, toBinary64, Binary64.isFinite_ofRank, Binary64.isFinite_ofRank]

theorem startsNumber_of_mem_pointed {fraction : List Char}
    (hfraction : ∀ c ∈ fraction, c.isDigit = true) :
    ∀ c ∈ Decimal.pointed fraction, startsNumber c = true := by
  unfold Decimal.pointed
  split_ifs
  · simp
  · exact List.forall_mem_cons.2 ⟨rfl, fun c hc => startsNumber_of_isDigit (hfraction c hc)⟩

theorem mem_runs_signed (negative : Bool) {run : List Char} (hne : run ≠ [])
    (hrun : ∀ c ∈ run, startsNumber c = true) : run ∈ runs (signed negative run) := by
  have hpieces := pieces_run_append (s := []) hne hrun (by simp)
  rw [List.append_nil] at hpieces
  have hmem : run ∈ pieces (signed negative run) := by
    cases negative with
    | false => simp [signed, hpieces]
    | true => simp [signed, pieces_cons (c := '-') rfl, hpieces]
  exact List.mem_filter.2 ⟨hmem, List.all_eq_true.2 hrun⟩

theorem not_isExpressionChar_e : ¬IsExpressionChar 'e' := by
  rw [← pieceFault?_single_eq_none_iff rfl]
  decide

theorem not_isExpressionChar_i : ¬IsExpressionChar 'i' := by
  rw [← pieceFault?_single_eq_none_iff rfl]
  decide

section

variable {n : Numeral} (hn : n.WellFormed) {typed more : List Char}

theorem text_append (n : Numeral) (typed : List Char) :
    n.text ++ typed = signed n.negative
      (n.whole ++ (Decimal.pointed n.fraction ++ (Numeral.exponentText n.exponent ++ typed))) := by
  simp [Numeral.text, signed_append]

include hn

theorem head?_whole_append (s : List Char) : ∀ c ∈ (n.whole ++ s).head?, c.isDigit = true := by
  obtain ⟨first, rest, hwhole⟩ := List.exists_cons_of_ne_nil hn.whole_ne_nil
  have hfirst := hn.isDigit_whole
  rw [hwhole] at hfirst ⊢
  intro c hc
  obtain rfl : first = c := by simpa using hc
  exact hfirst first List.mem_cons_self

theorem readsFinite_whole_append_iff (negative : Bool) (s : List Char) :
    ReadsFinite (signed negative (n.whole ++ s)) ↔ ReadsDecimal negative (n.whole ++ s) := by
  obtain ⟨first, rest, hwhole⟩ := List.exists_cons_of_ne_nil hn.whole_ne_nil
  refine readsFinite_signed_iff (fun c hc => ?_) ⟨first, by simp [hwhole], ?_⟩
  · have hdigit := head?_whole_append hn s c hc
    refine ⟨?_, ?_⟩ <;> rintro rfl <;> simp at hdigit
  · exact startsNumber_of_isDigit (hn.isDigit_whole first (by simp [hwhole]))

/-- Without an exponent, a numeral and the keys typed behind it are one run. -/
theorem startsNumber_of_mem_run (htyped : ∀ c ∈ typed, startsNumber c = true) :
    ∀ c ∈ n.whole ++ (Decimal.pointed n.fraction ++ typed), startsNumber c = true := by
  rw [List.forall_mem_append, List.forall_mem_append]
  exact ⟨fun c hc => startsNumber_of_isDigit (hn.isDigit_whole c hc),
    startsNumber_of_mem_pointed hn.isDigit_fraction, htyped⟩

/-- A numeral with keys typed behind it reads as a finite number if it does with more of them. -/
theorem readsFinite_of_text_append (hfinite : n.value.isFinite = true)
    (htyped : ∀ c ∈ typed ++ more, startsNumber c = true)
    (h : ReadsFinite (n.text ++ (typed ++ more))) : ReadsFinite (n.text ++ typed) := by
  rw [text_append, readsFinite_whole_append_iff hn] at h ⊢
  cases hexponent : n.exponent with
  | none =>
    rw [hexponent] at h
    have hrun := startsNumber_of_mem_run hn htyped
    simp only [Numeral.exponentText, Option.elim_none, List.nil_append] at h ⊢
    rw [← List.append_assoc, ← List.append_assoc, List.append_assoc n.whole] at h hrun
    exact readsDecimal_of_run_append (by simp [hn.whole_ne_nil]) (head?_whole_append hn _) hrun h
  | some e =>
    rw [hexponent] at h
    rw [Numeral.value, hexponent] at hfinite
    exact readsDecimal_of_exponent_append hn.whole_ne_nil hn.isDigit_whole hn.isDigit_fraction
      hfinite h

/-- A numeral with keys typed behind it has tokens only if it reads as a finite number. -/
theorem readsFinite_of_tokenize_text (htyped : ∀ c ∈ typed, startsNumber c = true)
    {tokens : List Token} (h : tokenize (String.ofList (n.text ++ typed)) = .ok tokens) :
    ReadsFinite (n.text ++ typed) := by
  obtain ⟨hchars, hruns⟩ := (exists_tokens_iff _).1 ⟨tokens, h⟩
  rw [String.toList_ofList] at hchars hruns
  rw [text_append] at hchars hruns ⊢
  cases hexponent : n.exponent with
  | none =>
    rw [hexponent] at hruns
    simp only [Numeral.exponentText, Option.elim_none, List.nil_append] at hruns ⊢
    have hmem := mem_runs_signed n.negative (by simp [hn.whole_ne_nil])
      (startsNumber_of_mem_run hn htyped)
    obtain ⟨-, -, hread⟩ := hruns _ hmem
    have hdecimal := (readsFinite_whole_append_iff hn false _).1 hread
    rw [readsFinite_whole_append_iff hn]
    obtain ⟨d, hd, hfinite⟩ := hdecimal
    exact ⟨d, hd, (d.isFinite_toBinary64_congr _ _).1 hfinite⟩
  | some e =>
    -- the scanner does not know the letter of an exponent
    have hletter : IsExpressionChar 'e' := by
      refine hchars 'e' ?_
      rw [hexponent]
      cases n.negative <;> simp [signed, Numeral.exponentText]
    exact absurd hletter not_isExpressionChar_e

end

theorem Json.Numeral.ofText?_text {n : Numeral} (hn : n.WellFormed) :
    Binary64.ofText? (String.ofList n.text) = some n.value := by
  have hne : n.whole ++ (Decimal.pointed n.fraction ++ exponentText n.exponent) ≠ [] := by
    simp [hn.whole_ne_nil]
  rw [text, Binary64.ofText?_ofList n.negative
    (fun c hc => .inl (head?_whole_append hn _ c hc)) hne, value]
  cases n.exponent with
  | none =>
    rw [exponentText, Option.elim_none, List.append_nil, Option.getD_none]
    unfold Decimal.pointed
    split_ifs with hempty
    · rw [List.append_nil, Decimal.ofNumeral?_digits hn.isDigit_whole hn.whole_ne_nil, hempty]
      rfl
    · rw [Decimal.ofNumeral?_point hn.isDigit_whole hn.isDigit_fraction (.inl hn.whole_ne_nil)]
      rfl
  | some e =>
    have hexponent := exponent?_signedExponent_append e []
    rw [List.append_nil, List.append_nil, signedValue_toDigits] at hexponent
    rw [exponentText, Option.elim_some, ofNumeral?_exponent hn.whole_ne_nil hn.isDigit_whole
      hn.isDigit_fraction, hexponent]
    rfl

/-! ### Texts of results -/

theorem not_readsFinite_infinity {negative : Bool} {typed : List Char} (hne : typed ≠ [])
    (htyped : ∀ c ∈ typed, startsNumber c = true) :
    ¬ReadsFinite (signed negative ['i', 'n', 'f'] ++ typed) := by
  obtain ⟨c, rest, rfl⟩ := List.exists_cons_of_ne_nil hne
  rw [signed_append, readsFinite_signed_iff (by simp) ⟨c, by simp, htyped c List.mem_cons_self⟩]
  rintro ⟨d, hd, -⟩
  rw [List.cons_append, Decimal.ofNumeral?_cons_eq_none (by decide) (by decide)] at hd
  cases hd

section

variable {x : Binary64} (hx : x.isFinite = true) {typed more : List Char}

include hx

/-- What reads as a finite number with more keys typed does so without them. -/
theorem readsFinite_of_resultText_append (hne : typed ≠ [])
    (htyped : ∀ c ∈ typed ++ more, startsNumber c = true)
    (h : ReadsFinite (x.resultText.toList ++ (typed ++ more))) :
    ReadsFinite (x.resultText.toList ++ typed) := by
  rcases Binary64.resultText_cases hx with ⟨n, hn, hfinite, htext⟩ | ⟨negative, htext⟩
  · rw [htext, String.toList_ofList] at h ⊢
    exact readsFinite_of_text_append hn hfinite htyped h
  · rw [htext, String.toList_ofList] at h
    exact absurd h (not_readsFinite_infinity (by simp [hne]) htyped)

theorem readsFinite_of_tokenize_resultText (htyped : ∀ c ∈ typed, startsNumber c = true)
    {tokens : List Token} (h : tokenize (x.resultText ++ String.ofList typed) = .ok tokens) :
    ReadsFinite (x.resultText.toList ++ typed) := by
  rcases Binary64.resultText_cases hx with ⟨n, hn, -, htext⟩ | ⟨negative, htext⟩
  · rw [htext, ← String.ofList_append] at h
    rw [htext, String.toList_ofList]
    exact readsFinite_of_tokenize_text hn htyped h
  · obtain ⟨hchars, -⟩ := (exists_tokens_iff _).1 ⟨tokens, h⟩
    have hletter : IsExpressionChar 'i' := by
      refine hchars 'i' ?_
      rw [htext]
      cases negative <;> simp [signed]
    exact absurd hletter not_isExpressionChar_i

end

end FourFunction
