import FourFunction.Decimal.Text
import FourFunction.Json.Scalar
import FourFunction.Json.Text
import FourFunction.Proofs.Failing
import FourFunction.Proofs.Numeral
import FourFunction.Proofs.Rounding
import Mathlib.Tactic

/-!
# Written numerals

The reader of JSON takes the text of a numeral apart into its parts (`Json.numeral_text`), and each
written form of a decimal is the text of a numeral with the decimal's value.
-/

namespace FourFunction

/-! ### Digits of natural numbers -/

theorem head?_toDigits_ne_zero {n : Nat} (hn : n ≠ 0) :
    ∀ c ∈ (Nat.toDigits 10 n).head?, c ≠ '0' := by
  induction n using Nat.strongRecOn with
  | ind n ih =>
    by_cases hlt : n < 10
    · rw [Nat.toDigits_of_lt_base hlt]
      intro c hc
      obtain rfl : n.digitChar = c := by simpa using hc
      interval_cases n <;> simp_all
    · rw [Nat.toDigits_of_base_le (by decide) (by omega),
        List.head?_append_of_ne_nil _ Nat.toDigits_ne_nil]
      exact ih (n / 10) (by omega) (by omega)

theorem ofDigitChars_append_zeros (digits : List Char) (k : Nat) :
    Nat.ofDigitChars 10 (digits ++ List.replicate k '0') 0 =
      Nat.ofDigitChars 10 digits 0 * 10 ^ k := by
  rw [Nat.ofDigitChars_append, Nat.ofDigitChars_replicate_zero, Nat.mul_comm]

theorem ofDigitChars_zeros_append (digits : List Char) (k : Nat) :
    Nat.ofDigitChars 10 (List.replicate k '0' ++ digits) 0 = Nat.ofDigitChars 10 digits 0 := by
  rw [Nat.ofDigitChars_append, Nat.ofDigitChars_replicate_zero, Nat.mul_zero]

theorem mul_pow_le_ofDigitChars (digits : List Char) (n : Nat) :
    n * 10 ^ digits.length ≤ Nat.ofDigitChars 10 digits n := by
  induction digits generalizing n with
  | nil => simp
  | cons c digits ih =>
    rw [Nat.ofDigitChars_cons, List.length_cons, pow_succ', ← Nat.mul_assoc, Nat.mul_comm n]
    exact (Nat.mul_le_mul_right _ (Nat.le_add_right _ _)).trans (ih _)

theorem ofDigitChars_mul_pow_le (digits more : List Char) :
    Nat.ofDigitChars 10 digits 0 * 10 ^ more.length ≤ Nat.ofDigitChars 10 (digits ++ more) 0 := by
  rw [Nat.ofDigitChars_append]
  exact mul_pow_le_ofDigitChars more _

theorem ofDigitChars_le_append (digits more : List Char) :
    Nat.ofDigitChars 10 digits 0 ≤ Nat.ofDigitChars 10 (digits ++ more) 0 :=
  (Nat.le_mul_of_pos_right _ (Nat.pow_pos (by decide))).trans (ofDigitChars_mul_pow_le digits more)

theorem ofDigitChars_lt_pow {digits : List Char} (hdigits : ∀ c ∈ digits, c.isDigit = true) :
    Nat.ofDigitChars 10 digits 0 < 10 ^ digits.length := by
  induction digits using List.reverseRecOn with
  | nil => decide
  | append_singleton digits c ih =>
    obtain ⟨hdigits, hc⟩ := List.forall_mem_append.1 hdigits
    obtain ⟨-, hle⟩ := Char.isDigit_iff_toNat.1 (hc c List.mem_cons_self)
    have hlt := ih hdigits
    have hnine : '9'.toNat = '0'.toNat + 9 := rfl
    rw [Nat.ofDigitChars_append, Nat.ofDigitChars_cons, Nat.ofDigitChars_nil, List.length_append,
      List.length_singleton, pow_succ]
    omega

namespace Decimal

/-! ### Significant digits -/

theorem toDigits_coefficient (d : Decimal) :
    ∃ k, Nat.toDigits 10 d.coefficient = d.significantDigits ++ List.replicate k '0' := by
  let reversed := (Nat.toDigits 10 d.coefficient).reverse
  refine ⟨(reversed.takeWhile (· == '0')).length, ?_⟩
  have hzeros : reversed.takeWhile (· == '0') =
      List.replicate (reversed.takeWhile (· == '0')).length '0' :=
    List.eq_replicate_of_mem fun c hc => by simpa using List.mem_takeWhile_imp hc
  rw [← List.reverse_replicate, ← hzeros, significantDigits, ← List.reverse_append,
    List.takeWhile_append_dropWhile, List.reverse_reverse]

theorem isDigit_of_mem_significantDigits {d : Decimal} {c : Char} (hc : c ∈ d.significantDigits) :
    c.isDigit = true := by
  obtain ⟨k, hk⟩ := d.toDigits_coefficient
  refine Nat.isDigit_of_mem_toDigits (n := d.coefficient) (b := 10) (by decide) (by decide) ?_
  rw [hk]
  exact List.mem_append_left _ hc

theorem significantDigits_ne_nil {d : Decimal} (h : d.coefficient ≠ 0) :
    d.significantDigits ≠ [] := by
  intro hnil
  obtain ⟨k, hk⟩ := d.toDigits_coefficient
  have hvalue := Nat.ofDigitChars_ten_toDigits (n := d.coefficient)
  rw [hk, ofDigitChars_append_zeros, hnil, Nat.ofDigitChars_nil, Nat.zero_mul] at hvalue
  exact h hvalue.symm

theorem head?_significantDigits_ne_zero {d : Decimal} (h : d.coefficient ≠ 0) :
    ∀ c ∈ d.significantDigits.head?, c ≠ '0' := by
  obtain ⟨k, hk⟩ := d.toDigits_coefficient
  have hhead := head?_toDigits_ne_zero h
  rwa [hk, List.head?_append_of_ne_nil _ (significantDigits_ne_nil h)] at hhead

/-- The decimal with the given digits, the first at the power of ten `lead`. -/
def ofDigits (digits : List Char) (lead : Int) : Decimal :=
  ⟨Nat.ofDigitChars 10 digits 0, lead + 1 - digits.length⟩

theorem toBinary64_significantDigits (negative : Bool) (d : Decimal) :
    (ofDigits d.significantDigits d.scientificExponent).toBinary64 negative =
      d.toBinary64 negative := by
  obtain ⟨k, hk⟩ := d.toDigits_coefficient
  have hcoefficient : d.coefficient = Nat.ofDigitChars 10 d.significantDigits 0 * 10 ^ k := by
    rw [← ofDigitChars_append_zeros, ← hk, Nat.ofDigitChars_ten_toDigits]
  have hexponent :
      d.scientificExponent + 1 - d.significantDigits.length = d.exponent + (k : Int) := by
    have hcount : digitCount d.coefficient = d.significantDigits.length + k := by
      rw [digitCount, hk, List.length_append, List.length_replicate]
    rw [scientificExponent]
    omega
  rw [ofDigits, hexponent, ← toBinary64_scale, ← hcoefficient]

/-! ### Positional digits -/

def wholeDigits (digits : List Char) (lead : Int) : List Char :=
  if lead < 0 then ['0']
  else digits.take (lead.toNat + 1) ++ List.replicate (lead.toNat + 1 - digits.length) '0'

def fractionDigits (digits : List Char) (lead : Int) : List Char :=
  if lead < 0 then List.replicate (-lead - 1).toNat '0' ++ digits
  else digits.drop (lead.toNat + 1)

/-- Digits behind a point, with no point if there are none. -/
def pointed (fraction : List Char) : List Char :=
  if fraction = [] then [] else '.' :: fraction

theorem plainDigits_eq {digits : List Char} (hne : digits ≠ []) (lead : Int) :
    plainDigits digits lead =
      wholeDigits digits lead ++ pointed (fractionDigits digits lead) := by
  unfold plainDigits wholeDigits fractionDigits pointed
  by_cases hlead : lead < 0
  · simp [hlead, hne]
  · by_cases hlength : digits.length ≤ lead.toNat + 1
    · simp [hlead, hlength, List.take_of_length_le, List.drop_of_length_le]
    · have hdrop : digits.drop (lead.toNat + 1) ≠ [] := by
        rw [Ne, List.drop_eq_nil_iff]
        exact hlength
      have hpad : lead.toNat + 1 - digits.length = 0 := by omega
      simp [hlead, hlength, hdrop, hpad]

theorem toBinary64_ofParts (negative : Bool) (digits : List Char) (lead : Int) :
    (ofParts (wholeDigits digits lead) (fractionDigits digits lead) 0).toBinary64 negative =
      (ofDigits digits lead).toBinary64 negative := by
  unfold wholeDigits fractionDigits ofParts ofDigits
  -- zeros in front of the digits, zeros behind them, or a point between them
  by_cases hlead : lead < 0
  · have hdigits : ['0'] ++ (List.replicate (-lead - 1).toNat '0' ++ digits) =
        List.replicate ((-lead - 1).toNat + 1) '0' ++ digits := by
      rw [← List.append_assoc, List.replicate_succ]
      rfl
    have hexponent : 0 - ((List.replicate (-lead - 1).toNat '0' ++ digits).length : Int) =
        lead + 1 - digits.length := by
      rw [List.length_append, List.length_replicate]
      omega
    rw [if_pos hlead, if_pos hlead, hdigits, ofDigitChars_zeros_append, hexponent]
  · rw [if_neg hlead, if_neg hlead]
    by_cases hlength : digits.length ≤ lead.toNat + 1
    · have hexponent : 0 - (([] : List Char).length : Int) +
          (lead.toNat + 1 - digits.length : Nat) = lead + 1 - digits.length := by
        rw [List.length_nil]
        omega
      rw [List.take_of_length_le hlength, List.drop_of_length_le hlength, List.append_nil,
        ofDigitChars_append_zeros, toBinary64_scale, hexponent]
    · have hpad : lead.toNat + 1 - digits.length = 0 := by omega
      have hexponent : 0 - ((digits.drop (lead.toNat + 1)).length : Int) =
          lead + 1 - digits.length := by
        rw [List.length_drop]
        omega
      rw [hpad, List.replicate_zero, List.append_nil, List.take_append_drop, hexponent]

theorem length_wholeDigits_le (digits : List Char) (lead : Int) :
    (wholeDigits digits lead).length ≤ lead.toNat + 1 := by
  unfold wholeDigits
  split_ifs
  · simp
  · simp only [List.length_append, List.length_take, List.length_replicate]
    omega

theorem isDigit_of_mem_wholeDigits {digits : List Char} (hdigits : ∀ c ∈ digits, c.isDigit = true)
    {lead : Int} {c : Char} (hc : c ∈ wholeDigits digits lead) : c.isDigit = true := by
  unfold wholeDigits at hc
  split_ifs at hc
  · obtain rfl := List.mem_singleton.1 hc
    decide
  · obtain hc | hc := List.mem_append.1 hc
    · exact hdigits c (List.mem_of_mem_take hc)
    · obtain rfl := List.eq_of_mem_replicate hc
      decide

theorem isDigit_of_mem_fractionDigits {digits : List Char}
    (hdigits : ∀ c ∈ digits, c.isDigit = true) {lead : Int} {c : Char}
    (hc : c ∈ fractionDigits digits lead) : c.isDigit = true := by
  unfold fractionDigits at hc
  split_ifs at hc
  · obtain hc | hc := List.mem_append.1 hc
    · obtain rfl := List.eq_of_mem_replicate hc
      decide
    · exact hdigits c hc
  · exact hdigits c (List.mem_of_mem_drop hc)

theorem length_wholeDigits_of_head? {digits : List Char} (hne : digits ≠ [])
    (hzero : ∀ c ∈ digits.head?, c ≠ '0') {lead : Int}
    (hhead : (wholeDigits digits lead).head? = some '0') :
    (wholeDigits digits lead).length = 1 := by
  unfold wholeDigits at hhead ⊢
  split_ifs at hhead ⊢
  · rfl
  · obtain ⟨c, rest, rfl⟩ := List.exists_cons_of_ne_nil hne
    obtain rfl : c = '0' := by simpa using hhead
    exact absurd rfl (hzero '0' rfl)

theorem wholeDigits_ne_nil {digits : List Char} (hne : digits ≠ []) (lead : Int) :
    wholeDigits digits lead ≠ [] := by
  unfold wholeDigits
  split_ifs
  · exact List.cons_ne_nil _ _
  · obtain ⟨c, rest, rfl⟩ := List.exists_cons_of_ne_nil hne
    simp

end Decimal

namespace Json

/-! ### Numerals in JSON -/

namespace Numeral

/-- The binary64 number nearest a numeral. -/
def value (n : Numeral) : Binary64 :=
  (Decimal.ofParts n.whole n.fraction (n.exponent.getD 0)).toBinary64 n.negative

def exponentText (exponent : Option Int) : List Char :=
  exponent.elim [] fun e => 'e' :: Decimal.signedExponent e

def text (n : Numeral) : List Char :=
  signed n.negative (n.whole ++ (Decimal.pointed n.fraction ++ exponentText n.exponent))

/-- A numeral that JSON allows: the parts are digits, and the whole part has no leading zero. -/
structure WellFormed (n : Numeral) : Prop where
  whole_ne_nil : n.whole ≠ []
  isDigit_whole : ∀ c ∈ n.whole, c.isDigit = true
  isDigit_fraction : ∀ c ∈ n.fraction, c.isDigit = true
  length_whole : n.whole.head? = some '0' → n.whole.length = 1

theorem WellFormed.isDigit_or_mem {n : Numeral} (hn : n.WellFormed) :
    ∀ c ∈ n.text, c.isDigit = true ∨ c ∈ ['-', '+', '.', 'e'] := by
  have hfraction : ∀ c ∈ Decimal.pointed n.fraction, c.isDigit = true ∨ c = '.' := by
    unfold Decimal.pointed
    split_ifs
    · simp
    · exact List.forall_mem_cons.2 ⟨.inr rfl, fun c hc => .inl (hn.isDigit_fraction c hc)⟩
  have hexponent : ∀ c ∈ exponentText n.exponent, c.isDigit = true ∨ c ∈ ['-', '+', 'e'] := by
    cases n.exponent with
    | none => simp [exponentText]
    | some e =>
      have hdigits : ∀ c ∈ Nat.toDigits 10 e.natAbs, c.isDigit = true := fun _ hc =>
        Nat.isDigit_of_mem_toDigits (by decide) (by decide) hc
      rw [exponentText, Option.elim_some, Decimal.signedExponent, List.forall_mem_cons,
        List.forall_mem_cons]
      refine ⟨by simp, ?_, fun c hc => .inl (hdigits c hc)⟩
      split_ifs <;> simp
  have hbody : ∀ c ∈ n.whole ++ (Decimal.pointed n.fraction ++ exponentText n.exponent),
      c.isDigit = true ∨ c ∈ ['-', '+', '.', 'e'] := by
    rw [List.forall_mem_append, List.forall_mem_append]
    refine ⟨fun c hc => .inl (hn.isDigit_whole c hc), fun c hc => ?_, fun c hc => ?_⟩
    · exact (hfraction c hc).imp_right fun h => by simp [h]
    · have hmem : ['-', '+', 'e'] ⊆ ['-', '+', '.', 'e'] := by simp
      exact (hexponent c hc).imp_right fun h => hmem h
  rw [text]
  cases n.negative with
  | false => exact hbody
  | true => exact List.forall_mem_cons.2 ⟨by simp, hbody⟩

end Numeral

/-- Whether a number ends in front of the text. -/
def Ends (rest : List Char) : Prop :=
  ∀ c ∈ rest.head?, c.isDigit = false ∧ c ≠ '.' ∧ c ≠ 'e' ∧ c ≠ 'E'

theorem digits_append {run rest : List Char} (hrun : ∀ c ∈ run, c.isDigit = true)
    (hne : run ≠ []) (hrest : ∀ c ∈ rest.head?, c.isDigit = false) :
    digits (run ++ rest) = .ok (run, rest) := by
  simp [digits, splitDigits_append hrun hrest, hne]

theorem wholePart_append {run rest : List Char} (hrun : ∀ c ∈ run, c.isDigit = true)
    (hne : run ≠ []) (hzero : run.head? = some '0' → run.length = 1)
    (hrest : ∀ c ∈ rest.head?, c.isDigit = false) :
    wholePart (run ++ rest) = .ok (run, rest) := by
  have hleading : ¬(run.head? = some '0' ∧ run.length ≠ 1) := fun h => h.2 (hzero h.1)
  rw [wholePart, digits_append hrun hne hrest, ok_bind]
  exact if_neg hleading

theorem fractionPart_append {fraction rest : List Char}
    (hfraction : ∀ c ∈ fraction, c.isDigit = true)
    (hrest : ∀ c ∈ rest.head?, c.isDigit = false ∧ c ≠ '.') :
    fractionPart (Decimal.pointed fraction ++ rest) = .ok (fraction, rest) := by
  by_cases hne : fraction = []
  · cases rest with
    | nil => simp [hne, Decimal.pointed, fractionPart]
    | cons c rest => simp [hne, Decimal.pointed, fractionPart, (hrest c rfl).2]
  · rw [Decimal.pointed, if_neg hne]
    exact digits_append hfraction hne fun c hc => (hrest c hc).1

theorem signedValue_toDigits (e : Int) :
    signedValue (decide (e < 0)) (Nat.toDigits 10 e.natAbs) = e := by
  rw [signedValue, Nat.ofDigitChars_ten_toDigits]
  by_cases h : e < 0
  · rw [decide_eq_true h, if_pos rfl]
    omega
  · rw [decide_eq_false h, if_neg Bool.false_ne_true]
    omega

theorem exponentPart_append (exponent : Option Int) {rest : List Char} (hrest : Ends rest) :
    exponentPart (Numeral.exponentText exponent ++ rest) = .ok (exponent, rest) := by
  cases exponent with
  | none =>
    cases rest with
    | nil => rfl
    | cons c rest =>
      obtain ⟨-, -, he, hE⟩ := hrest c rfl
      simp [Numeral.exponentText, exponentPart, he, hE]
  | some e =>
    have hsign : splitSign (Decimal.signedExponent e ++ rest) =
        (decide (e < 0), Nat.toDigits 10 e.natAbs ++ rest) := by
      by_cases h : e < 0 <;> simp [Decimal.signedExponent, splitSign, h]
    have hdigits : digits (Nat.toDigits 10 e.natAbs ++ rest) =
        .ok (Nat.toDigits 10 e.natAbs, rest) :=
      digits_append (fun c hc => Nat.isDigit_of_mem_toDigits (by decide) (by decide) hc)
        Nat.toDigits_ne_nil fun c hc => (hrest c hc).1
    simp [Numeral.exponentText, exponentPart, hsign, hdigits, signedValue_toDigits]

/-- Where an exponent comes next or the number ends, there is neither a digit nor a point. -/
theorem head?_exponentText_append (exponent : Option Int) {rest : List Char} (hrest : Ends rest) :
    ∀ c ∈ (Numeral.exponentText exponent ++ rest).head?, c.isDigit = false ∧ c ≠ '.' := by
  cases exponent with
  | none => exact fun c hc => ⟨(hrest c hc).1, (hrest c hc).2.1⟩
  | some e =>
    intro c hc
    obtain rfl : 'e' = c := by simpa [Numeral.exponentText] using hc
    decide

theorem head?_pointed_append (fraction : List Char) {s : List Char}
    (hs : ∀ c ∈ s.head?, c.isDigit = false) :
    ∀ c ∈ (Decimal.pointed fraction ++ s).head?, c.isDigit = false := by
  unfold Decimal.pointed
  split_ifs
  · exact hs
  · intro c hc
    obtain rfl : '.' = c := by simpa using hc
    decide

/-- The sign of a number comes off first. -/
theorem numeral_signed (negative : Bool) {body : List Char} (hbody : body.head? ≠ some '-') :
    numeral (signed negative body) = wholePart body >>= fun (whole, afterWhole) =>
      fractionPart afterWhole >>= fun (fraction, afterFraction) =>
        exponentPart afterFraction >>= fun (exponent, rest) =>
          .ok (⟨negative, whole, fraction, exponent⟩, rest) := by
  have hsign : (signed negative body).head? = some '-' ↔ negative = true := by
    cases negative with
    | false => simpa [signed] using hbody
    | true => simp [signed]
  have hdrop : (if negative = true then (signed negative body).drop 1
      else signed negative body) = body := by
    cases negative <;> rfl
  simp only [numeral, hsign, hdrop, Bool.decide_eq_true]

theorem numeral_text {n : Numeral} (hn : n.WellFormed) {rest : List Char} (hrest : Ends rest) :
    numeral (n.text ++ rest) = .ok (n, rest) := by
  obtain ⟨negative, whole, fraction, exponent⟩ := n
  obtain ⟨hne, hwhole, hfraction, hzero⟩ := hn
  dsimp only at hne hwhole hfraction hzero
  have hexponent := head?_exponentText_append exponent hrest
  have hpointed := head?_pointed_append fraction fun c hc => (hexponent c hc).1
  have hminus : (whole ++ (Decimal.pointed fraction ++
      (Numeral.exponentText exponent ++ rest))).head? ≠ some '-' := by
    rw [List.head?_append_of_ne_nil _ hne]
    intro h
    have hdigit := hwhole '-' (List.mem_of_mem_head? h)
    simp at hdigit
  have htext : (⟨negative, whole, fraction, exponent⟩ : Numeral).text ++ rest =
      signed negative (whole ++ (Decimal.pointed fraction ++
        (Numeral.exponentText exponent ++ rest))) := by
    cases negative <;> simp [Numeral.text, signed]
  rw [htext, numeral_signed negative hminus, wholePart_append hwhole hne hzero hpointed, ok_bind]
  dsimp only
  rw [fractionPart_append hfraction hexponent, ok_bind]
  dsimp only
  rw [exponentPart_append exponent hrest, ok_bind]

end Json

/-! ### Written forms of a decimal -/

open Json

theorem Decimal.toBinary64_of_coefficient_eq_zero (negative : Bool) {d : Decimal}
    (h : d.coefficient = 0) : d.toBinary64 negative = Binary64.ofRank negative 0 := by
  simp [toBinary64, nearestRank, h]

/-! The positional form, and the form with an exponent, of a decimal other than zero. -/

section

variable (negative : Bool) (d : Decimal)

def Decimal.plainNumeral : Numeral :=
  ⟨negative, wholeDigits d.significantDigits d.scientificExponent,
    fractionDigits d.significantDigits d.scientificExponent, none⟩

def Decimal.scientificNumeral : Numeral :=
  ⟨negative, d.significantDigits.take 1, d.significantDigits.drop 1, some d.scientificExponent⟩

theorem Decimal.value_plainNumeral : (d.plainNumeral negative).value = d.toBinary64 negative := by
  rw [← toBinary64_significantDigits]
  exact toBinary64_ofParts negative _ _

variable {d} (hzero : d.coefficient ≠ 0)

include hzero

theorem Decimal.wellFormed_plainNumeral : (d.plainNumeral negative).WellFormed := by
  have hne := significantDigits_ne_nil hzero
  have hdigits : ∀ c ∈ d.significantDigits, c.isDigit = true := fun c hc =>
    isDigit_of_mem_significantDigits hc
  refine ⟨?_, ?_, ?_, ?_⟩
  · exact wholeDigits_ne_nil hne _
  · exact fun c hc => isDigit_of_mem_wholeDigits hdigits hc
  · exact fun c hc => isDigit_of_mem_fractionDigits hdigits hc
  · exact length_wholeDigits_of_head? hne (head?_significantDigits_ne_zero hzero)

theorem Decimal.plain_eq :
    d.plain = wholeDigits d.significantDigits d.scientificExponent ++
      pointed (fractionDigits d.significantDigits d.scientificExponent) := by
  rw [plain, if_neg hzero, plainDigits_eq (significantDigits_ne_nil hzero)]

theorem Decimal.text_plainNumeral : (d.plainNumeral negative).text = signed negative d.plain := by
  rw [plain_eq hzero]
  simp [plainNumeral, Numeral.text, Numeral.exponentText]

theorem Decimal.wellFormed_scientificNumeral : (d.scientificNumeral negative).WellFormed := by
  have hne := significantDigits_ne_nil hzero
  refine ⟨?_, fun c hc => ?_, fun c hc => ?_, fun _ => ?_⟩
  · simpa [scientificNumeral] using hne
  · exact isDigit_of_mem_significantDigits (List.mem_of_mem_take hc)
  · exact isDigit_of_mem_significantDigits (List.mem_of_mem_drop hc)
  · rw [scientificNumeral, List.length_take]
    exact Nat.min_eq_left (List.length_pos_iff.2 hne)

theorem Decimal.text_scientificNumeral :
    (d.scientificNumeral negative).text = signed negative d.scientific := by
  obtain ⟨c, rest, heq⟩ := List.exists_cons_of_ne_nil (significantDigits_ne_nil hzero)
  rw [scientific, scientificNumeral, heq, Numeral.text]
  cases rest <;> rfl

theorem Decimal.value_scientificNumeral :
    (d.scientificNumeral negative).value = d.toBinary64 negative := by
  obtain ⟨c, rest, heq⟩ := List.exists_cons_of_ne_nil (significantDigits_ne_nil hzero)
  have hexponent : d.scientificExponent - (rest.length : Int) =
      d.scientificExponent + 1 - ((c :: rest).length : Int) := by
    rw [List.length_cons]
    omega
  rw [← toBinary64_significantDigits, scientificNumeral, heq, Numeral.value, ofParts, ofDigits,
    Option.getD_some]
  simp only [List.take_succ_cons, List.take_zero, List.drop_succ_cons, List.drop_zero,
    List.singleton_append, hexponent]

end

/-- The positional form of a decimal is a numeral without exponent. -/
theorem Decimal.exists_numeral_plain (negative : Bool) (d : Decimal) :
    ∃ whole fraction, (⟨negative, whole, fraction, none⟩ : Numeral).WellFormed ∧
      d.plain = whole ++ pointed fraction ∧ whole.length ≤ d.scientificExponent.toNat + 1 ∧
        (⟨negative, whole, fraction, none⟩ : Numeral).value = d.toBinary64 negative := by
  by_cases hzero : d.coefficient = 0
  · refine ⟨['0'], [], ⟨by simp, by simp, by simp, by simp⟩, by simp [plain, hzero, pointed],
      Nat.le_add_left _ _, ?_⟩
    rw [toBinary64_of_coefficient_eq_zero negative hzero]
    exact toBinary64_of_coefficient_eq_zero negative rfl
  · exact ⟨_, _, wellFormed_plainNumeral negative hzero, plain_eq hzero, length_wholeDigits_le _ _,
      d.value_plainNumeral negative⟩

namespace Json

/-- A whole number written with a zero behind the point keeps its value. -/
theorem Numeral.value_withFraction (negative : Bool) (whole : List Char) :
    (⟨negative, whole, ['0'], none⟩ : Numeral).value =
      (⟨negative, whole, [], none⟩ : Numeral).value := by
  have hzero := ofDigitChars_append_zeros whole 1
  rw [List.replicate_one] at hzero
  simp only [Numeral.value, Decimal.ofParts, Option.getD_none, hzero, List.append_nil,
    Decimal.toBinary64_scale]
  rfl

theorem exists_numeral_withFraction (negative : Bool) (d : Decimal) :
    ∃ n : Numeral, n.WellFormed ∧ n.text = signed negative (withFraction d.plain) ∧
      n.whole.length ≤ d.scientificExponent.toNat + 1 ∧ n.value = d.toBinary64 negative := by
  obtain ⟨whole, fraction, hn, hplain, hlength, hvalue⟩ := d.exists_numeral_plain negative
  by_cases hfraction : fraction = []
  · subst hfraction
    have hpoint : '.' ∉ whole := by
      intro hmem
      have hdigit := hn.isDigit_whole '.' hmem
      simp at hdigit
    refine ⟨⟨negative, whole, ['0'], none⟩,
      ⟨hn.whole_ne_nil, hn.isDigit_whole, by simp, hn.length_whole⟩, ?_, hlength, ?_⟩
    · simp [hplain, Decimal.pointed, withFraction, hpoint, Numeral.text, Numeral.exponentText]
    · rw [Numeral.value_withFraction, hvalue]
  · refine ⟨_, hn, ?_, hlength, hvalue⟩
    simp [hplain, Decimal.pointed, withFraction, hfraction, Numeral.text, Numeral.exponentText]

/-- The form of a decimal in JSON is a numeral, with at most 16 digits in front of the point. -/
theorem exists_numeral_magnitude (negative : Bool) (d : Decimal) :
    ∃ n : Numeral, n.WellFormed ∧ n.text = signed negative (magnitude d) ∧ n.whole.length ≤ 16 ∧
      n.value = d.toBinary64 negative := by
  unfold magnitude
  split_ifs with hplain
  · obtain hzero | ⟨-, hexponent⟩ := hplain
    · refine ⟨⟨negative, ['0'], ['0'], none⟩, ⟨by simp, by simp, by simp, by simp⟩,
        by simp [Decimal.plain, hzero, withFraction, Numeral.text, Numeral.exponentText,
          Decimal.pointed], by simp, ?_⟩
      rw [Decimal.toBinary64_of_coefficient_eq_zero negative hzero]
      exact Decimal.toBinary64_of_coefficient_eq_zero negative rfl
    · obtain ⟨n, hn, htext, hlength, hvalue⟩ := exists_numeral_withFraction negative d
      exact ⟨n, hn, htext, by omega, hvalue⟩
  · have hzero : d.coefficient ≠ 0 := fun hzero => hplain (.inl hzero)
    refine ⟨_, Decimal.wellFormed_scientificNumeral negative hzero,
      Decimal.text_scientificNumeral negative hzero, ?_,
      Decimal.value_scientificNumeral negative hzero⟩
    rw [Decimal.scientificNumeral, List.length_take]
    omega

end Json

end FourFunction
