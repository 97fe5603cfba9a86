import FourFunction.Proofs.ReadNumber
import Mathlib.Tactic

/-!
# Reading back JSON scalars

Each reader of a scalar takes back what its writer wrote in front of a text, and leaves that text.
What it makes of the text of a finite number is named by `reread`.
-/

namespace FourFunction.Json

theorem skipGap_cons {c : Char} (h : isGap c = false) (s : List Char) :
    skipGap (c :: s) = c :: s := by
  simp [skipGap, h]

/-! ### Strings -/

theorem hexDigit?_digitChar : ∀ n < 16, hexDigit? (Nat.digitChar n) = some n := by decide

theorem unicodeEscape_fourDigits : ∀ n < 32, ∀ rest : List Char,
    unicodeEscape (fourDigits n ++ rest) = .ok (Char.ofNat n, 4) := by
  intro n hn rest
  have hunit : hexUnit (fourDigits n ++ rest) = .ok n := by
    have hhigh := hexDigit?_digitChar (n / 16) (by omega)
    have hlow := hexDigit?_digitChar (n % 16) (by omega)
    have hzero : hexDigit? '0' = some 0 := by decide
    simp only [fourDigits, List.cons_append, List.nil_append, hexUnit, hhigh, hlow, hzero]
    congr 1
    omega
  have hlowSurrogate : isLowSurrogate n = false := by
    simp only [isLowSurrogate, Bool.and_eq_false_iff, decide_eq_false_iff_not]
    omega
  have hhighSurrogate : isHighSurrogate n = false := by
    simp only [isHighSurrogate, Bool.and_eq_false_iff, decide_eq_false_iff_not]
    omega
  simp [unicodeEscape, hunit, hlowSurrogate, hhighSurrogate]

/-- The reader takes a written character back. -/
theorem stringBody_escape (c : Char) (rest : List Char) :
    stringBody (escape c ++ rest) =
      (stringBody rest).map fun (cs, last) => (c :: cs, last) := by
  have hshort : ∀ {d : Char}, d ≠ 'u' → shortEscape? d = some c →
      stringBody ('\\' :: d :: rest) =
        (stringBody rest).map fun (cs, last) => (c :: cs, last) := by
    intro d hd hc
    rw [stringBody]
    simp only [escaped, hc, ok_bind, List.drop_succ_cons, List.drop_zero]
    cases stringBody rest <;> rfl
  unfold escape
  split
  -- every case but the last is a short escape
  case h_8 h1 h2 h3 h4 h5 h6 h7 =>
    split_ifs with hcontrol
    · rw [List.cons_append, List.cons_append, stringBody]
      have hdrop : ('u' :: (fourDigits c.toNat ++ rest)).drop (4 + 1) = rest := rfl
      simp only [escaped, unicodeEscape_fourDigits _ hcontrol, Char.ofNat_toNat, map_ok, ok_bind,
        hdrop]
      cases stringBody rest <;> rfl
    · have hplain : isControl c = false := by simpa [isControl] using hcontrol
      rw [List.singleton_append, stringBody]
      · simp only [hplain]
        cases stringBody rest <;> rfl
      · exact h1
      · exact h2
  all_goals exact hshort (by decide) (by decide)

theorem stringBody_flatMap_escape (cs rest : List Char) :
    stringBody (cs.flatMap escape ++ '"' :: rest) = .ok (cs, rest) := by
  induction cs with
  | nil => rw [List.flatMap_nil, List.nil_append, stringBody]
  | cons c cs ih => rw [List.flatMap_cons, List.append_assoc, stringBody_escape, ih, map_ok]

theorem toList_quote_append (s : String) (rest : List Char) :
    (quote s).toList ++ rest = '"' :: (s.toList.flatMap escape ++ '"' :: rest) := by
  simp [quote]

theorem readString_quote (s : String) (rest : List Char) :
    readString ((quote s).toList ++ rest) = .ok (s, rest) := by
  rw [toList_quote_append, readString, skipGap_cons (by decide)]
  simp only [stringBody_flatMap_escape, map_ok, String.ofList_toList]

/-! ### Numbers -/

theorem isGap_of_startsNumeral {c : Char} (h : startsNumeral c = true) : isGap c = false := by
  simp only [isGap, Bool.or_eq_false_iff, beq_eq_false_iff_ne]
  refine ⟨⟨⟨?_, ?_⟩, ?_⟩, ?_⟩
  all_goals
    rintro rfl
    revert h
    decide

theorem Numeral.WellFormed.exists_text {n : Numeral} (hn : n.WellFormed) :
    ∃ c s, n.text = c :: s ∧ startsNumeral c = true := by
  obtain ⟨c, whole, hwhole⟩ := List.exists_cons_of_ne_nil hn.whole_ne_nil
  have hc := hn.isDigit_whole c (by simp [hwhole])
  rw [Numeral.text, hwhole]
  cases n.negative with
  | false => exact ⟨c, _, rfl, by simp [startsNumeral, hc]⟩
  | true => exact ⟨'-', _, rfl, by decide⟩

theorem skipGap_text {n : Numeral} (hn : n.WellFormed) (rest : List Char) :
    skipGap (n.text ++ rest) = n.text ++ rest ∧
      ((n.text ++ rest).head?.any startsNumeral) = true := by
  obtain ⟨c, s, htext, hc⟩ := hn.exists_text
  rw [htext, List.cons_append, skipGap_cons (isGap_of_startsNumeral hc)]
  exact ⟨rfl, hc⟩

theorem finiteNumeral_text {n : Numeral} (hn : n.WellFormed)
    (hfinite : n.toBinary64.isFinite = true) {rest : List Char} (hrest : Ends rest) :
    finiteNumeral (n.text ++ rest) = .ok (n, rest) := by
  rw [finiteNumeral, numeral_text hn hrest, ok_bind]
  exact if_pos hfinite

theorem readNumber_text {n : Numeral} (hn : n.WellFormed) (hfinite : n.toBinary64.isFinite = true)
    {rest : List Char} (hrest : Ends rest) :
    readNumber (n.text ++ rest) = .ok (n.toBinary64, rest) := by
  obtain ⟨hskip, hstart⟩ := skipGap_text hn rest
  unfold readNumber
  rw [hskip]
  dsimp only
  rw [if_pos hstart, finiteNumeral_text hn hfinite hrest, ok_bind]

/-- What is read where a number was written, if anything is. -/
def reread (x : Binary64) : Binary64 :=
  match readNumber (number x).toList with
  | .ok (y, _) => y
  | .error _ => x

theorem exists_readNumber_number {x : Binary64} (hx : x.isFinite = true) :
    ∃ y, ∀ rest, Ends rest → readNumber ((number x).toList ++ rest) = .ok (y, rest) := by
  obtain ⟨negative, rank, rfl⟩ := Binary64.isFinite_iff.1 hx
  obtain ⟨n, hn, htext, hlength, hvalue⟩ :=
    exists_numeral_magnitude negative (.shortest .even rank)
  rw [Decimal.toBinary64_shortest, Binary64.ofRank_val] at hvalue
  refine ⟨n.toBinary64, fun rest hrest => ?_⟩
  rw [number, String.toList_ofList, ← htext]
  exact readNumber_text hn (isFinite_toBinary64 hn hlength hvalue htext) hrest

/-- A finite number is read back from its text, though its last digits may be lost. -/
theorem readNumber_number {x : Binary64} (hx : x.isFinite = true) {rest : List Char}
    (hrest : Ends rest) : readNumber ((number x).toList ++ rest) = .ok (reread x, rest) := by
  obtain ⟨y, hread⟩ := exists_readNumber_number hx
  have hy : reread x = y := by
    have halone := hread [] (by simp [Ends])
    rw [List.append_nil] at halone
    rw [reread, halone]
  rw [hread rest hrest, hy]

/-- A number that is accepted is finite. -/
theorem isFinite_of_readNumber {s : List Char} {x : Binary64} {rest : List Char}
    (h : readNumber s = .ok (x, rest)) : x.isFinite = true := by
  unfold readNumber at h
  dsimp only at h
  split_ifs at h
  obtain ⟨⟨n, rest'⟩, hn, h⟩ := bind_eq_ok_iff.1 h
  obtain ⟨rfl, -⟩ := Prod.mk.inj (Except.ok.inj h)
  obtain ⟨⟨n', rest''⟩, -, hn⟩ := bind_eq_ok_iff.1 hn
  dsimp only at hn
  split_ifs at hn with hfinite
  obtain ⟨rfl, -⟩ := Prod.mk.inj (Except.ok.inj hn)
  exact hfinite

theorem isFinite_reread {x : Binary64} (hx : x.isFinite = true) : (reread x).isFinite = true :=
  isFinite_of_readNumber (readNumber_number hx (by simp [Ends] : Ends []))

theorem number_eq_null_iff {x : Binary64} : number x = "null" ↔ x.isFinite = false := by
  cases x with
  | infinite negative | nan => exact ⟨fun _ => rfl, fun _ => rfl⟩
  | finite negative rank =>
    refine ⟨fun h => ?_, fun h => absurd h (by simp [Binary64.isFinite])⟩
    -- what stands for a finite number is a numeral
    obtain ⟨n, hn, htext, -⟩ := exists_numeral_magnitude negative (.shortest .even rank)
    obtain ⟨c, s, hstart, hc⟩ := hn.exists_text
    have hnull : "null".toList = ['n', 'u', 'l', 'l'] := rfl
    rw [number, ← htext, hstart, ← String.toList_inj, String.toList_ofList, hnull] at h
    obtain ⟨rfl, -⟩ := List.cons.inj h
    exact absurd hc (by decide)

/-- Where a number is wanted, `null` is refused when it is read. -/
theorem readNumber_null (rest : List Char) :
    readNumber ("null".toList ++ rest) = .error .mismatch := by
  have hskip : skipGap ("null".toList ++ rest) = "null".toList ++ rest := skipGap_cons (by decide) _
  unfold readNumber
  rw [hskip]
  rfl

/-! ### Natural numbers -/

def Numeral.ofNat (n : Nat) : Numeral := ⟨false, Nat.toDigits 10 n, [], none⟩

theorem Numeral.wellFormed_ofNat (n : Nat) : (Numeral.ofNat n).WellFormed where
  whole_ne_nil := Nat.toDigits_ne_nil
  isDigit_whole := fun _ hc => Nat.isDigit_of_mem_toDigits (by decide) (by decide) hc
  isDigit_fraction := by simp [Numeral.ofNat]
  length_whole := by
    intro hhead
    by_cases hn : n = 0
    · rw [hn]
      rfl
    · exact absurd rfl (head?_toDigits_ne_zero hn '0' hhead)

theorem Numeral.isFinite_toBinary64_ofNat {n : Nat} (hn : n < UInt64.size) :
    (Numeral.ofNat n).toBinary64.isFinite = true := by
  have hwhole : Nat.ofDigitChars 10 (Nat.toDigits 10 n) 0 = n := Nat.ofDigitChars_ten_toDigits
  have hparts : Decimal.ofParts (Nat.toDigits 10 n) [] 0 = ⟨n, (0 : ℕ)⟩ := by
    simp [Decimal.ofParts, hwhole]
  refine isFinite_toBinary64_of_lt (hwhole.trans_lt hn) ?_
  have hvalue : (Decimal.ofParts (Nat.toDigits 10 n) [] 0).magnitude = n := by
    rw [hparts, Decimal.magnitude_natCast, pow_zero, mul_one]
  exact hvalue.trans_lt (Binary64.natCast_lt_magnitude hn)

theorem Numeral.natural?_ofNat (n : Nat) : (Numeral.ofNat n).natural? = some n := by
  simp [natural?, ofNat, Nat.ofDigitChars_ten_toDigits]

theorem toList_natural (n : Nat) : (natural n).toList = (Numeral.ofNat n).text := by
  simp [natural, Numeral.ofNat, Numeral.text, Numeral.exponentText, signed, Decimal.pointed,
    Nat.toList_repr]

theorem readNatural_natural {n : Nat} (hn : n < 2 ^ 64) {rest : List Char} (hrest : Ends rest) :
    readNatural ((natural n).toList ++ rest) = .ok (UInt64.ofNat n, rest) := by
  have hwellFormed := Numeral.wellFormed_ofNat n
  obtain ⟨hskip, hstart⟩ := skipGap_text hwellFormed rest
  unfold readNatural
  rw [toList_natural, hskip]
  dsimp only
  rw [if_pos hstart, finiteNumeral_text hwellFormed (Numeral.isFinite_toBinary64_ofNat hn) hrest,
    ok_bind, Numeral.natural?_ofNat]
  exact if_pos hn

end FourFunction.Json
