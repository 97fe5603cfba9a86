import FourFunction.Console.Command
import FourFunction.Proofs.ExpressionLanguage
import FourFunction.Proofs.JsonComposite
import FourFunction.Proofs.ShownResult

/-!
# Answers on one line

Every answer to an expression is one line: a text in JSON has no control character anywhere
(`Json.ControlFree`), and a message quotes one character at most, which is no blank.
-/

namespace FourFunction

/-- A text that ends with a line feed and has no other. -/
def IsLine (text : String) : Prop := ∃ line : String, text = line.push '\n' ∧ '\n' ∉ line.toList

/-! ### Texts in JSON -/

namespace Json

def ControlFree (s : List Char) : Prop := ∀ c ∈ s, isControl c = false

instance : DecidablePred ControlFree := fun s =>
  List.decidableBAll (isControl · = false) s

theorem ControlFree.newline_notMem {s : List Char} (h : ControlFree s) : '\n' ∉ s := fun hmem =>
  absurd (h '\n' hmem) (by decide)

theorem controlFree_append {s t : List Char} :
    ControlFree (s ++ t) ↔ ControlFree s ∧ ControlFree t :=
  List.forall_mem_append

theorem controlFree_cons {c : Char} {s : List Char} :
    ControlFree (c :: s) ↔ isControl c = false ∧ ControlFree s :=
  List.forall_mem_cons

theorem isControl_of_isDigit {c : Char} (h : c.isDigit = true) : isControl c = false := by
  have hbounds : 48 ≤ c.toNat ∧ c.toNat ≤ 57 := Char.isDigit_iff_toNat.1 h
  simp only [isControl, decide_eq_false_iff_not]
  omega

theorem controlFree_of_isDigit {s : List Char} (h : ∀ c ∈ s, c.isDigit = true) : ControlFree s :=
  fun c hc => isControl_of_isDigit (h c hc)

theorem controlFree_fourDigits : ∀ n < 32, ControlFree (fourDigits n) := by decide

theorem controlFree_escape (c : Char) : ControlFree (escape c) := by
  unfold escape
  split
  -- the last case is that of a character without a short escape
  case h_8 =>
    split_ifs with hcontrol
    · rw [controlFree_cons, controlFree_cons]
      exact ⟨by decide, by decide, controlFree_fourDigits _ hcontrol⟩
    · rw [controlFree_cons]
      exact ⟨by simpa [isControl] using hcontrol, by simp [ControlFree]⟩
  all_goals decide

theorem controlFree_quote (text : String) : ControlFree (quote text).toList := by
  have hescaped : ControlFree (text.toList.flatMap escape) := by
    intro c hc
    obtain ⟨d, -, hd⟩ := List.mem_flatMap.1 hc
    exact controlFree_escape d c hd
  rw [quote, String.toList_ofList, controlFree_append, controlFree_cons]
  exact ⟨⟨by decide, hescaped⟩, by decide⟩

theorem controlFree_toDigits (n : Nat) : ControlFree (Nat.toDigits 10 n) :=
  controlFree_of_isDigit fun _ hc => Nat.isDigit_of_mem_toDigits (by decide) (by decide) hc

theorem controlFree_natural (n : Nat) : ControlFree (natural n).toList := by
  rw [natural, Nat.toString_eq_repr, Nat.toList_repr]
  exact controlFree_toDigits n

theorem controlFree_signed (negative : Bool) {s : List Char} (h : ControlFree s) :
    ControlFree (signed negative s) := by
  cases negative with
  | false => exact h
  | true => exact controlFree_cons.2 ⟨by decide, h⟩

theorem Numeral.WellFormed.controlFree_text {n : Numeral} (hn : n.WellFormed) :
    ControlFree n.text := by
  have hsigns : ControlFree ['-', '+', '.', 'e'] := by decide
  intro c hc
  obtain hdigit | hsign := hn.isDigit_or_mem c hc
  · exact isControl_of_isDigit hdigit
  · exact hsigns c hsign

theorem controlFree_number (x : Binary64) : ControlFree (number x).toList := by
  cases x with
  | infinite negative | nan =>
    rw [number_eq_null_iff.2 rfl]
    decide
  | finite negative rank =>
    obtain ⟨n, hn, htext, -⟩ := exists_numeral_magnitude negative (.shortest .even rank)
    rw [number, String.toList_ofList, ← htext]
    exact hn.controlFree_text

theorem controlFree_member {name value : String} (h : ControlFree value.toList) :
    ControlFree (member name value).toList := by
  rw [member, String.toList_append, String.toList_append, controlFree_append, controlFree_append]
  exact ⟨⟨controlFree_quote name, by decide⟩, h⟩

theorem controlFree_object {members : List (String × String)}
    (h : ∀ m ∈ members, ControlFree m.2.toList) : ControlFree (object members).toList := by
  have hmembers : ControlFree (",".intercalate (members.map fun m => member m.1 m.2)).toList := by
    cases members with
    | nil => simp [String.intercalate_nil, ControlFree]
    | cons first members =>
      obtain ⟨hfirst, hrest⟩ := List.forall_mem_cons.1 h
      rw [List.map_cons, toList_intercalate_cons, controlFree_append]
      refine ⟨controlFree_member hfirst, fun c hc => ?_⟩
      obtain ⟨text, htext, hc⟩ := List.mem_flatMap.1 hc
      obtain ⟨m, hm, rfl⟩ := List.mem_map.1 htext
      exact controlFree_cons.2 ⟨by decide, controlFree_member (hrest m hm)⟩ c hc
  rw [object, String.toList_append, String.toList_append, controlFree_append, controlFree_append]
  exact ⟨⟨by decide, hmembers⟩, by decide⟩

end Json

/-! ### Plain texts -/

open Json

theorem Binary64.controlFree_resultText {x : Binary64} (hx : x.isFinite = true) :
    ControlFree x.resultText.toList := by
  rcases resultText_cases hx with ⟨n, hn, -, htext⟩ | ⟨negative, htext⟩
  · rw [htext, String.toList_ofList]
    exact hn.controlFree_text
  · rw [htext, String.toList_ofList]
    exact controlFree_signed _ (by decide)

theorem newline_notMem_toDigits (n : Nat) : '\n' ∉ Nat.toDigits 10 n :=
  (controlFree_toDigits n).newline_notMem

theorem LexError.newline_notMem_message {e : LexError} (h : isBlank e.char = false) :
    '\n' ∉ e.message.toList := by
  have hchar : '\n' ≠ e.char := by
    rintro heq
    rw [← heq] at h
    exact absurd h (by decide)
  have hkind : '\n' ∉ e.kind.message.toList := by
    unfold LexErrorKind.message
    cases e.kind <;> simp
  simp [message, hkind, hchar, newline_notMem_toDigits]

theorem ArrangementError.newline_notMem_message (e : ArrangementError) :
    '\n' ∉ e.message.toList := by
  unfold message
  cases e <;> simp [newline_notMem_toDigits]

/-- A message is on one line if the scanner does not object to a blank. -/
theorem CalcError.newline_notMem_message {e : CalcError}
    (h : ∀ lex, e = .lexical lex → isBlank lex.char = false) : '\n' ∉ e.message.toList := by
  unfold message
  cases e with
  | lexical lex => simp [LexError.newline_notMem_message (h lex rfl)]
  | structural reason => simp [reason.newline_notMem_message]
  | divisionByZero | overflow => simp

/-- A text cannot fail at a line feed. -/
theorem newline_notMem_message_of_evaluateText {text : String} {e : CalcError}
    (h : evaluateText text = .error e) : '\n' ∉ e.message.toList := by
  refine CalcError.newline_notMem_message fun lex hlex => ?_
  rw [hlex] at h
  exact (getElem?_of_tokenize_eq_error (evaluateText_eq_lexical_iff.1 h)).2

/-! ### Answers -/

def CalcError.position? : CalcError → Option Nat
  | lexical e => some e.position
  | _ => none

namespace Printer

variable {p : Printer} (hjson : p.format = .json) (expression : String)

include hjson

theorem result_json (value : Binary64) :
    p.result expression value =
      object [("display", quote value.resultText), ("expression", quote expression),
        ("result", number value)] := by
  rw [result, hjson]

theorem failure_json (e : CalcError) :
    p.failure expression e =
      object ([("error", quote e.message), ("expression", quote expression),
        ("kind", quote e.kind)] ++
          e.position?.toList.map fun position => ("position", natural position)) := by
  unfold failure
  rw [hjson]
  cases e <;> rfl

theorem controlFree_result (value : Binary64) :
    ControlFree (p.result expression value).toList := by
  rw [result_json hjson]
  refine controlFree_object ?_
  simp only [List.forall_mem_cons, List.not_mem_nil, false_implies, implies_true, and_true]
  exact ⟨controlFree_quote _, controlFree_quote _, controlFree_number value⟩

theorem controlFree_failure (e : CalcError) :
    ControlFree (p.failure expression e).toList := by
  rw [failure_json hjson]
  refine controlFree_object (List.forall_mem_append.2 ⟨?_, List.forall_mem_map.2 ?_⟩)
  · simp only [List.forall_mem_cons, List.not_mem_nil, false_implies, implies_true, and_true]
    exact ⟨controlFree_quote _, controlFree_quote _, controlFree_quote _⟩
  · exact fun position _ => controlFree_natural position

end Printer

namespace Command

theorem eval_of_ok {p : Printer} {expression : String} {value : Binary64}
    (hvalue : evaluateText expression = .ok value) :
    eval p expression = .line (p.result expression value) := by
  rw [eval, hvalue]

theorem eval_of_error {p : Printer} (hjson : p.format = .json) {expression : String}
    {e : CalcError} (he : evaluateText expression = .error e) :
    eval p expression = ⟨(p.failure expression e).push '\n', some (.calculation e)⟩ := by
  simp only [eval, he, hjson]

end Command

end FourFunction
