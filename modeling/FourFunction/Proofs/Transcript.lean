import FourFunction.Proofs.LoggedRun
import FourFunction.Proofs.OneLine

/-!
# Line by line

What the line-by-line calculator writes is the transcript of its lines.  For an expression this is
one line, in which the history has no part (`Repl.answers_eq_map`).
-/

namespace FourFunction

/-! ### Answers -/

def Printer.answer (p : Printer) (expression : String) : String :=
  match evaluateText expression with
  | .ok value => Repl.written (p.result expression value)
  | .error e => Repl.written (p.failure expression e)

namespace Printer

variable {p : Printer} {expression : String}

theorem answer_of_ok {value : Binary64} (hvalue : evaluateText expression = .ok value) :
    p.answer expression = (p.result expression value).push '\n' := by
  rw [answer, hvalue]
  rfl

theorem answer_of_error {e : CalcError} (he : evaluateText expression = .error e) :
    p.answer expression = (p.failure expression e).push '\n' := by
  rw [answer, he]
  rfl

theorem result_text (htext : p.format = .text) (hcolored : p.colored = false) (value : Binary64) :
    p.result expression value = value.resultText := by
  rw [result, htext, hcolored]
  rfl

theorem failure_text (htext : p.format = .text) (hcolored : p.colored = false) (e : CalcError) :
    p.failure expression e = "Error: " ++ e.message := by
  unfold failure
  rw [htext, hcolored]
  rfl

theorem isLine_answer (hcolored : p.colored = false) (expression : String) :
    IsLine (p.answer expression) := by
  cases hvalue : evaluateText expression with
  | ok value =>
    refine ⟨_, answer_of_ok hvalue, ?_⟩
    cases hformat : p.format with
    | json => exact (controlFree_result hformat expression value).newline_notMem
    | text =>
      rw [result_text hformat hcolored]
      exact (Binary64.controlFree_resultText (isFinite_of_evaluateText hvalue)).newline_notMem
  | error e =>
    refine ⟨_, answer_of_error hvalue, ?_⟩
    cases hformat : p.format with
    | json => exact (controlFree_failure hformat expression e).newline_notMem
    | text =>
      rw [failure_text hformat hcolored]
      simp [newline_notMem_message_of_evaluateText hvalue]

end Printer

/-- The output is one line, what the command writes for the expression, or a line with the error of
a command that writes nothing. -/
structure IsAnswer (p : Printer) (expression output : String) : Prop where
  isLine : IsLine output
  json : p.format = .json → (Command.eval p expression).output = output
  success : (Command.eval p expression).error = none → (Command.eval p expression).output = output
  failure : p.format = .text → ∀ e, (Command.eval p expression).error = some e →
    (Command.eval p expression).output = "" ∧ output = ("Error: " ++ e.message).push '\n'

theorem isAnswer_answer {p : Printer} (hcolored : p.colored = false) (expression : String) :
    IsAnswer p expression (p.answer expression) where
  isLine := Printer.isLine_answer hcolored expression
  json := by
    intro hjson
    cases hvalue : evaluateText expression with
    | ok value => rw [Command.eval_of_ok hvalue, Printer.answer_of_ok hvalue, Outcome.line]
    | error e => rw [Command.eval_of_error hjson hvalue, Printer.answer_of_error hvalue]
  success := by
    intro hsuccess
    cases hvalue : evaluateText expression with
    | ok value => rw [Command.eval_of_ok hvalue, Printer.answer_of_ok hvalue, Outcome.line]
    | error e =>
      -- a failure is told in both formats
      simp only [Command.eval, hvalue] at hsuccess
      split at hsuccess <;> cases hsuccess
  failure := by
    intro htext error herror
    cases hvalue : evaluateText expression with
    | ok value =>
      rw [Command.eval_of_ok hvalue] at herror
      cases herror
    | error e =>
      have heval : Command.eval p expression = .failure (.calculation e) := by
        simp only [Command.eval, hvalue, htext]
      rw [heval] at herror ⊢
      obtain rfl := Option.some.inj herror
      rw [Printer.answer_of_error hvalue, Printer.failure_text htext hcolored]
      exact ⟨rfl, rfl⟩

/-! ### Expressions among the lines -/

/-- There is more than blanks on the line, and no colon in front. -/
def IsExpressionLine (line : String) : Prop :=
  trimBlanks line ≠ "" ∧ (trimBlanks line).toList.head? ≠ some ':'

instance : DecidablePred IsExpressionLine := fun _ => inferInstanceAs (Decidable (_ ∧ _))

theorem IsExpressionLine.ofLine_eq {line : String} (h : IsExpressionLine line) :
    Directive.ofLine line = .expression (trimBlanks line) := by
  obtain ⟨hempty, hcolon⟩ := h
  rw [Directive.ofLine]
  generalize trimBlanks line = trimmed at hempty hcolon ⊢
  split
  case h_1 => exact absurd rfl hempty
  case h_6 => exact if_neg hcolon
  all_goals exact absurd rfl hcolon

theorem IsExpressionLine.not_asksToQuit {line : String} (h : IsExpressionLine line) :
    ¬AsksToQuit line := by
  rintro (hquit | hquit)
  all_goals
    have hcolon := h.2
    rw [hquit] at hcolon
    exact hcolon rfl

theorem handledLines_append_of_goesOn {front : List (Option String)}
    (h : ∀ line ∈ front, ¬EndsLoop line) (back : List (Option String)) :
    handledLines (front ++ back) = handledLines front ++ handledLines back := by
  induction front with
  | nil => rfl
  | cons line front ih =>
    obtain ⟨hline, hfront⟩ := List.forall_mem_cons.1 h
    cases line with
    | none => exact absurd trivial hline
    | some text =>
      rw [List.cons_append, handledLines_cons hline, handledLines_cons hline, ih hfront,
        List.cons_append]

theorem handledLines_append_of_endsLoop {front : List (Option String)}
    (h : ∃ line ∈ front, EndsLoop line) (back : List (Option String)) :
    handledLines (front ++ back) = handledLines front := by
  induction front with
  | nil => simp at h
  | cons line front ih =>
    by_cases hends : EndsLoop line
    · rw [List.cons_append, handledLines_of_endsLoop hends, handledLines_of_endsLoop hends]
    · have hfront : ∃ line ∈ front, EndsLoop line := by simpa [hends] using h
      cases line with
      | none => exact absurd trivial hends
      | some text =>
        rw [List.cons_append, handledLines_cons hends, handledLines_cons hends, ih hfront]

theorem handledLines_map_some {lines : List String} (h : ∀ line ∈ lines, ¬AsksToQuit line) :
    handledLines (lines.map some) = lines := by
  induction lines with
  | nil => rfl
  | cons line lines ih =>
    obtain ⟨hline, hrest⟩ := List.forall_mem_cons.1 h
    rw [List.map_cons, handledLines_cons hline, ih hrest]

/-! ### Transcripts -/

namespace Repl

/-- The lines that the loop handles, each with what is written for it. -/
def transcript (r : Repl) (h : History) : List (Option String) → List (String × String)
  | [] | none :: _ => []
  | some line :: lines =>
    match r.step h (some line) with
    | .stop _ => []
    | .next h' output => (line, output) :: (r.after 1).transcript h' lines

variable (r : Repl)

def answers (h : History) (lines : List (Option String)) : List (String × String) :=
  (r.transcript h lines).filter fun handled => IsExpressionLine handled.1

theorem exists_step_next {line : String} (hline : ¬AsksToQuit line) (h : History) :
    ∃ h' output, r.step h (some line) = .next h' output := by
  have hquit : Directive.ofLine line ≠ .quit := by
    rw [AsksToQuit, not_or] at hline
    rw [Directive.ofLine]
    generalize trimBlanks line = trimmed at hline ⊢
    split
    case h_2 => exact absurd rfl hline.1
    case h_3 => exact absurd rfl hline.2
    case h_6 => split_ifs <;> simp
    all_goals simp
  rw [step]
  cases hdirective : Directive.ofLine line with
  | quit => exact absurd hdirective hquit
  | nothing | history | clear | unknown | expression => exact ⟨_, _, rfl⟩

theorem step_of_isExpressionLine {line : String} (hline : IsExpressionLine line) (h : History) :
    ∃ h', r.step h (some line) = .next h' (r.printer.answer (trimBlanks line)) := by
  rw [step, hline.ofLine_eq]
  refine ⟨(r.evaluate h (trimBlanks line)).1, ?_⟩
  have houtput : (r.evaluate h (trimBlanks line)).2 = r.printer.answer (trimBlanks line) := by
    rw [evaluate, Printer.answer]
    cases evaluateText (trimBlanks line) <;> rfl
  rw [← houtput]
  rfl

theorem transcript_of_endsLoop {line : Option String} (hends : EndsLoop line) (h : History)
    (lines : List (Option String)) : r.transcript h (line :: lines) = [] := by
  cases line with
  | none => rfl
  | some text => simp only [transcript, r.step_of_endsLoop hends]

theorem transcript_cons {line output : String} {h h' : History}
    (hstep : r.step h (some line) = .next h' output) (lines : List (Option String)) :
    r.transcript h (some line :: lines) = (line, output) :: (r.after 1).transcript h' lines := by
  simp only [transcript, hstep]

theorem map_fst_transcript (h : History) (lines : List (Option String)) :
    (r.transcript h lines).map Prod.fst = handledLines lines := by
  induction lines generalizing r h with
  | nil => rfl
  | cons line lines ih =>
    by_cases hends : EndsLoop line
    · rw [r.transcript_of_endsLoop hends, handledLines_of_endsLoop hends, List.map_nil]
    · cases line with
      | none => exact absurd trivial hends
      | some text =>
        obtain ⟨h', output, hstep⟩ := r.exists_step_next hends h
        rw [r.transcript_cons hstep, handledLines_cons hends, List.map_cons, ih]

/-- Each output has the prompt behind it. -/
theorem output_feed (h : History) (lines : List (Option String)) :
    (r.feed h lines).2.output =
      String.join ((r.transcript h lines).map fun handled => handled.2 ++ r.promptText) := by
  induction lines generalizing r h with
  | nil => rfl
  | cons line lines ih =>
    by_cases hends : EndsLoop line
    · rw [feed, r.step_of_endsLoop hends, r.transcript_of_endsLoop hends]
      rfl
    · cases line with
      | none => exact absurd trivial hends
      | some text =>
        obtain ⟨h', output, hstep⟩ := r.exists_step_next hends h
        rw [r.transcript_cons hstep, List.map_cons, String.join_cons, ← r.promptText_after 1, ← ih]
        simp only [feed, hstep, promptText_after]

theorem answers_eq_map (h : History) (lines : List (Option String)) :
    r.answers h lines =
      ((handledLines lines).filter fun line => IsExpressionLine line).map fun line =>
        (line, r.printer.answer (trimBlanks line)) := by
  -- each line leaves a history of its own, none of which shows in an answer
  induction lines generalizing r h with
  | nil => rfl
  | cons line lines ih =>
    simp only [answers] at ih ⊢
    by_cases hends : EndsLoop line
    · rw [r.transcript_of_endsLoop hends, handledLines_of_endsLoop hends]
      rfl
    · cases line with
      | none => exact absurd trivial hends
      | some text =>
        rw [handledLines_cons hends]
        by_cases htext : IsExpressionLine text
        · obtain ⟨h', hstep⟩ := r.step_of_isExpressionLine htext h
          rw [r.transcript_cons hstep, List.filter_cons_of_pos (by simpa using htext),
            List.filter_cons_of_pos (by simpa using htext), List.map_cons, ih]
          rfl
        · obtain ⟨h', output, hstep⟩ := r.exists_step_next hends h
          rw [r.transcript_cons hstep, List.filter_cons_of_neg (by simpa using htext),
            List.filter_cons_of_neg (by simpa using htext), ih]
          rfl

theorem mem_answers_iff {h : History} {lines : List (Option String)} {line output : String} :
    (line, output) ∈ r.answers h lines ↔
      (line, output) ∈ r.transcript h lines ∧ IsExpressionLine line := by
  simp [answers]

theorem eq_answer_of_mem_transcript {h : History} {lines : List (Option String)}
    {line output : String} (hmem : (line, output) ∈ r.transcript h lines)
    (hline : IsExpressionLine line) : output = r.printer.answer (trimBlanks line) := by
  have hanswers := r.mem_answers_iff.2 ⟨hmem, hline⟩
  rw [answers_eq_map] at hanswers
  obtain ⟨line', -, heq⟩ := List.mem_map.1 hanswers
  obtain ⟨rfl, rfl⟩ := Prod.mk.inj heq
  rfl

theorem answers_append_of_goesOn (h : History) {front : List (Option String)}
    (hfront : ∀ line ∈ front, ¬EndsLoop line) (back : List (Option String)) :
    r.answers h (front ++ back) = r.answers h front ++ r.answers h back := by
  simp only [answers_eq_map, handledLines_append_of_goesOn hfront, List.filter_append,
    List.map_append]

theorem answers_append_of_endsLoop (h : History) {front : List (Option String)}
    (hfront : ∃ line ∈ front, EndsLoop line) (back : List (Option String)) :
    r.answers h (front ++ back) = r.answers h front := by
  simp only [answers_eq_map, handledLines_append_of_endsLoop hfront]

theorem map_fst_answers (h : History) {lines : List String}
    (hlines : ∀ line ∈ lines, IsExpressionLine line) :
    (r.answers h (lines.map some)).map Prod.fst = lines := by
  have hhandled := handledLines_map_some fun line hline => (hlines line hline).not_asksToQuit
  have hfilter : (lines.filter fun line => IsExpressionLine line) = lines :=
    List.filter_eq_self.2 fun line hline => decide_eq_true (hlines line hline)
  rw [answers_eq_map, hhandled, hfilter, List.map_map]
  exact List.map_id lines

/-- Expressions on lines put in between add their own answers and change no other one. -/
theorem exists_answers_insert (h : History) (front back : List (Option String))
    {extra : List String} (hextra : ∀ line ∈ extra, IsExpressionLine line) :
    ∃ inserted behind, r.answers h (front ++ back) = r.answers h front ++ behind ∧
      r.answers h (front ++ (extra.map some ++ back)) =
        r.answers h front ++ (inserted ++ behind) ∧
      inserted.map Prod.fst = if ∃ line ∈ front, EndsLoop line then [] else extra := by
  by_cases hends : ∃ line ∈ front, EndsLoop line
  · refine ⟨[], [], ?_, ?_, by rw [if_pos hends, List.map_nil]⟩
    · rw [r.answers_append_of_endsLoop h hends, List.append_nil]
    · rw [r.answers_append_of_endsLoop h hends, List.nil_append, List.append_nil]
  · have hfront : ∀ line ∈ front, ¬EndsLoop line := by simpa using hends
    have hmiddle : ∀ line ∈ extra.map some, ¬EndsLoop line :=
      List.forall_mem_map.2 fun line hline => (hextra line hline).not_asksToQuit
    refine ⟨r.answers h (extra.map some), r.answers h back, ?_, ?_, ?_⟩
    · exact r.answers_append_of_goesOn h hfront back
    · rw [r.answers_append_of_goesOn h hfront, r.answers_append_of_goesOn h hmiddle]
    · rw [if_neg hends, r.map_fst_answers h hextra]

/-- What a run writes for an expression is the answer that the expression has as a command of its
own, the same in every other run with the same printer.  Expressions put in between change no other
answer. -/
theorem run_answers {r : Repl} (hprompts : r.prompts = false) (hcolored : r.printer.colored = false)
    {size : Nat} (hsize : 1 ≤ size) {file : HistoryFile} {h : History}
    (hload : file.load size = .ok h) (input : List UInt8) :
    let lines := textLines input
    (r.run size file input).output = String.join ((r.transcript h lines).map Prod.snd) ∧
    (r.transcript h lines).map Prod.fst = handledLines lines ∧
    (∀ line output, (line, output) ∈ r.transcript h lines → IsExpressionLine line →
      IsAnswer r.printer (trimBlanks line) output ∧
      ∀ (r' : Repl) (h' : History) (lines' : List (Option String)) (line' output' : String),
        r'.printer = r.printer → trimBlanks line' = trimBlanks line →
        (line', output') ∈ r'.transcript h' lines' → output' = output) ∧
    ∀ (front back : List (Option String)) (extra : List String), lines = front ++ back →
      (∀ line ∈ extra, IsExpressionLine line) →
      ∃ inserted behind, r.answers h lines = r.answers h front ++ behind ∧
        r.answers h (front ++ (extra.map some ++ back)) =
          r.answers h front ++ (inserted ++ behind) ∧
        inserted.map Prod.fst = if ∃ line ∈ front, EndsLoop line then [] else extra := by
  intro lines
  refine ⟨?_, r.map_fst_transcript h lines, fun line output hmem hline => ⟨?_, ?_⟩, ?_⟩
  · rw [r.run_of_load hprompts hsize hload, output_feed, r.promptText_eq hprompts]
    simp only [String.append_empty]
    rfl
  · rw [r.eq_answer_of_mem_transcript hmem hline]
    exact isAnswer_answer hcolored _
  · intro r' h' lines' line' output' hprinter htrimmed hmem'
    -- blanks around a line have no part in what it is
    have hline' : IsExpressionLine line' := by
      rw [IsExpressionLine, htrimmed]
      exact hline
    rw [r.eq_answer_of_mem_transcript hmem hline, r'.eq_answer_of_mem_transcript hmem' hline',
      hprinter, htrimmed]
  · rintro front back extra hlines hextra
    rw [hlines]
    exact r.exists_answers_insert h front back hextra

/-- A failure and a value, with a directive between them. -/
theorem run_answers_around_clear :
    let input := bytesOf "1@2\n:clear\n 1/4 "
    (plain.run 2 .absent input).output =
      "Error: Invalid input: Unexpected character '@' at position 1\n0.25\n" ∧
    IsAnswer plain.printer "1/4" "0.25\n" ∧
    ∀ h' lines' output', ("1/4", output') ∈ plain.transcript h' lines' → output' = "0.25\n" := by
  intro input
  have hload : HistoryFile.absent.load 2 = .ok (.empty 2) := rfl
  have htranscript : plain.transcript (.empty 2) (textLines input) =
      [("1@2", "Error: Invalid input: Unexpected character '@' at position 1\n"), (":clear", ""),
        (" 1/4 ", "0.25\n")] := by
    decide +kernel
  have hline : IsExpressionLine " 1/4 " := by decide +kernel
  have htrimmed : trimBlanks " 1/4 " = "1/4" := by decide +kernel
  have hprompts : plain.prompts = false := rfl
  obtain ⟨houtput, -, hanswers, -⟩ := run_answers hprompts rfl (by decide : 1 ≤ 2) hload input
  have hmem : (" 1/4 ", "0.25\n") ∈ plain.transcript (.empty 2) (textLines input) := by
    rw [htranscript]
    exact .tail _ (.tail _ (.head _))
  obtain ⟨hanswer, hsame⟩ := hanswers " 1/4 " "0.25\n" hmem hline
  refine ⟨?_, htrimmed ▸ hanswer, fun h' lines' output' hmem => ?_⟩
  · rw [houtput, htranscript]
    decide +kernel
  · exact hsame plain h' lines' "1/4" output' rfl (by rw [htrimmed]; decide +kernel) hmem

end Repl

end FourFunction
