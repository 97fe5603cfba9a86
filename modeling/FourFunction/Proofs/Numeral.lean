import FourFunction.Decimal.Text
import FourFunction.Decimal.Numeral
import Mathlib

/-!
# Reading digits

What the readers of numerals make of texts whose parts are known.
-/

namespace FourFunction

/-! ### Runs at the front of a text -/

theorem exists_run_append {α : Type} (p : α → Bool) (s : List α) :
    ∃ run rest, s = run ++ rest ∧ (∀ a ∈ run, p a = true) ∧ ∀ a ∈ rest.head?, p a = false := by
  refine ⟨s.takeWhile p, s.dropWhile p, List.takeWhile_append_dropWhile.symm,
    fun a ha => List.mem_takeWhile_imp ha, fun a ha => ?_⟩
  have hhead := List.head?_dropWhile_not p s
  rw [Option.mem_def.1 ha] at hhead
  exact hhead

theorem takeWhile_append_of_forall {α : Type} {p : α → Bool} {run s : List α}
    (hrun : ∀ a ∈ run, p a = true) (hs : ∀ a ∈ s.head?, p a = false) :
    (run ++ s).takeWhile p = run := by
  rw [List.takeWhile_append_of_pos hrun]
  cases s with
  | nil => simp
  | cons a s => simp [hs a (by simp)]

theorem dropWhile_append_of_forall {α : Type} {p : α → Bool} {run s : List α}
    (hrun : ∀ a ∈ run, p a = true) (hs : ∀ a ∈ s.head?, p a = false) :
    (run ++ s).dropWhile p = s := by
  rw [List.dropWhile_append_of_pos hrun]
  cases s with
  | nil => simp
  | cons a s => simp [hs a (by simp)]

theorem splitDigits_append {digits s : List Char} (hdigits : ∀ c ∈ digits, c.isDigit = true)
    (hs : ∀ c ∈ s.head?, c.isDigit = false) : splitDigits (digits ++ s) = (digits, s) := by
  rw [splitDigits, takeWhile_append_of_forall hdigits hs, dropWhile_append_of_forall hdigits hs]

theorem splitDigits_of_forall {digits : List Char} (hdigits : ∀ c ∈ digits, c.isDigit = true) :
    splitDigits digits = (digits, []) := by
  simpa using splitDigits_append (s := []) hdigits (by simp)

/-! ### Numerals without exponent -/

theorem Decimal.ofNumeral?_digits {whole : List Char} (hwhole : ∀ c ∈ whole, c.isDigit = true)
    (hne : whole ≠ []) : Decimal.ofNumeral? whole = some (Decimal.ofParts whole [] 0) := by
  simp [Decimal.ofNumeral?, splitDigits_of_forall hwhole, splitFraction, hne, exponent?]

theorem Decimal.ofNumeral?_point {whole fraction : List Char}
    (hwhole : ∀ c ∈ whole, c.isDigit = true) (hfraction : ∀ c ∈ fraction, c.isDigit = true)
    (hne : whole ≠ [] ∨ fraction ≠ []) :
    Decimal.ofNumeral? (whole ++ '.' :: fraction) = some (Decimal.ofParts whole fraction 0) := by
  have hsplit : splitDigits (whole ++ '.' :: fraction) = (whole, '.' :: fraction) :=
    splitDigits_append hwhole (by simp)
  have hempty : (whole.isEmpty && fraction.isEmpty) = false := by
    rcases hne with h | h <;> simp [h]
  simp [Decimal.ofNumeral?, hsplit, splitFraction, splitDigits_of_forall hfraction, hempty,
    exponent?]

/-- A second point ends the digits behind the first one, and nothing else may follow these. -/
theorem Decimal.ofNumeral?_points {whole fraction : List Char} (more : List Char)
    (hwhole : ∀ c ∈ whole, c.isDigit = true) (hfraction : ∀ c ∈ fraction, c.isDigit = true) :
    Decimal.ofNumeral? (whole ++ '.' :: (fraction ++ '.' :: more)) = none := by
  have hsplit : splitDigits (whole ++ '.' :: (fraction ++ '.' :: more)) =
      (whole, '.' :: (fraction ++ '.' :: more)) := splitDigits_append hwhole (by simp)
  have hrest : splitDigits (fraction ++ '.' :: more) = (fraction, '.' :: more) :=
    splitDigits_append hfraction (by simp)
  simp [Decimal.ofNumeral?, hsplit, splitFraction, hrest, exponent?]

/-- A text that starts with neither a digit nor a point is no numeral. -/
theorem Decimal.ofNumeral?_cons_eq_none {c : Char} (hdigit : c.isDigit = false) (hpoint : c ≠ '.')
    (s : List Char) : Decimal.ofNumeral? (c :: s) = none := by
  simp [Decimal.ofNumeral?, splitDigits, splitFraction, hdigit, hpoint]

/-! ### Whole texts -/

theorem toLower_of_isDigit {c : Char} (hc : c.isDigit = true) : c.toLower = c := by
  rw [Char.toLower, dif_neg]
  rintro ⟨hge, -⟩
  rw [ge_iff_le, UInt32.le_iff_toNat_le] at hge
  simp only [Char.isDigit, Bool.and_eq_true, decide_eq_true_eq, ge_iff_le,
    UInt32.le_iff_toNat_le] at hc
  have : '9'.val.toNat < 'A'.val.toNat := by decide
  omega

/-- A text with a digit or a point in it is no word: it is read as a numeral behind a sign. -/
theorem Binary64.ofText?_signed {s : List Char} (negative : Bool)
    (hsign : ∀ c ∈ s.head?, c ≠ '-' ∧ c ≠ '+') (hs : ∃ c ∈ s, c.isDigit = true ∨ c = '.') :
    Binary64.ofText? (String.ofList (signed negative s)) =
      (Decimal.ofNumeral? s).map (Decimal.toBinary64 negative) := by
  have hsplit : splitSign (signed negative s) = (negative, s) := by
    cases negative with
    | true => rfl
    | false =>
      cases s with
      | nil => rfl
      | cons c s => simp [signed, splitSign, hsign c rfl]
  obtain ⟨c, hmem, hc⟩ := hs
  have hlower : c ∈ ((String.ofList s).toLower).toList := by
    have hc' : c.toLower = c := by
      rcases hc with hc | rfl
      · exact toLower_of_isDigit hc
      · rfl
    simp only [String.toLower, String.toList_map, String.toList_ofList]
    exact List.mem_map.2 ⟨c, hmem, hc'⟩
  have hword : ∀ word ∈ ["inf", "infinity", "nan"], ∀ c ∈ word.toList,
      ¬(c.isDigit = true ∨ c = '.') := by simp
  unfold Binary64.ofText?
  rw [String.toList_ofList, hsplit]
  dsimp only
  split
  case h_4 => rfl
  all_goals
    next heq =>
      rw [heq] at hlower
      exact absurd hc (hword _ (by simp) c hlower)

theorem Binary64.ofText?_ofList {s : List Char} (negative : Bool)
    (hs : ∀ c ∈ s.head?, c.isDigit = true ∨ c = '.') (hne : s ≠ []) :
    Binary64.ofText? (String.ofList (signed negative s)) =
      (Decimal.ofNumeral? s).map (Decimal.toBinary64 negative) := by
  obtain ⟨c, s, rfl⟩ := List.exists_cons_of_ne_nil hne
  have hc : c.isDigit = true ∨ c = '.' := hs c rfl
  refine Binary64.ofText?_signed negative ?_ ⟨c, List.mem_cons_self, hc⟩
  rintro c' hc'
  obtain rfl : c = c' := by simpa using hc'
  refine ⟨?_, ?_⟩ <;> rintro rfl <;> simp at hc

end FourFunction
