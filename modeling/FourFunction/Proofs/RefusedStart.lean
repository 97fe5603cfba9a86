import FourFunction.Proofs.FiniteHistories
import FourFunction.Proofs.Transcript

/-!
# Runs that cannot start

A calculator that cannot start (`CannotStart`) leaves its file as it is, writes nothing and
evaluates nothing; every other run with a file leaves the text of a history in it
(`Repl.run_refused_or_saved`).  Where nothing is evaluated, the run is the same whatever the values
of expressions are.
-/

namespace FourFunction

/-! ### The start -/

theorem toUTF8_of_fromUTF8? {content : ByteArray} {text : String}
    (h : String.fromUTF8? content = some text) : text.toUTF8 = content := by
  unfold String.fromUTF8? at h
  split_ifs at h
  rw [← Option.some.inj h]
  rfl

theorem fromUTF8?_eq_none_iff {content : ByteArray} :
    String.fromUTF8? content = none ↔ ∀ text : String, content ≠ text.toUTF8 := by
  rw [Option.eq_none_iff_forall_ne_some]
  constructor
  · rintro h text rfl
    exact h text (fromUTF8?_toUTF8 text)
  · intro h text htext
    exact h text (toUTF8_of_fromUTF8? htext).symm

/-- Whether a text is refused does not depend on the capacity. -/
theorem History.ofJson_eq_error_iff {text : String} {fault : Json.Fault} {capacity : Nat} :
    ofJson text capacity = .error fault ↔
      Json.parse (Json.readList Entry.read) text = .error fault :=
  map_eq_error_iff

inductive CannotStart (size : Nat) : HistoryFile → CommandError → Prop where
  | noRoom {file : HistoryFile} (hsize : size = 0) :
      CannotStart size file (.invalidArgument "--history-size must be at least 1")
  | noText {content : ByteArray} (hsize : size ≠ 0)
      (hcontent : ∀ text : String, content ≠ text.toUTF8) :
      CannotStart size (.present content) .undecodable
  | noHistory {text : String} {fault : Json.Fault} {capacity : Nat} (hsize : size ≠ 0)
      (htext : History.ofJson text capacity = .error fault) :
      CannotStart size (.present text.toUTF8) (.json fault)

theorem HistoryFile.load_eq_error_iff {file : HistoryFile} {size : Nat} {e : CommandError}
    (hsize : size ≠ 0) : file.load size = .error e ↔ CannotStart size file e := by
  constructor
  · intro h
    cases file with
    | unused | absent => cases h
    | present content =>
      simp only [load] at h
      cases htext : String.fromUTF8? content with
      | none =>
        rw [htext] at h
        obtain rfl := Except.error.inj h
        exact .noText hsize (fromUTF8?_eq_none_iff.1 htext)
      | some text =>
        simp only [htext] at h
        obtain rfl := toUTF8_of_fromUTF8? htext
        cases hload : History.ofJson text size with
        | ok history => simp [hload] at h
        | error fault =>
          rw [hload] at h
          obtain rfl := Except.error.inj h
          exact .noHistory hsize hload
  · rintro (hzero | ⟨-, hcontent⟩ | ⟨-, htext⟩)
    · exact absurd hzero hsize
    · simp only [load, fromUTF8?_eq_none_iff.2 hcontent]
    · have hparse := History.ofJson_eq_error_iff.1 htext
      simp only [load, fromUTF8?_toUTF8, History.ofJson, hparse, map_error, mapError_error]

theorem Repl.start_eq_error_iff {size : Nat} {file : HistoryFile} {e : CommandError} :
    start size file = .error e ↔ CannotStart size file e := by
  by_cases hsize : size = 0
  · rw [start, if_pos hsize]
    constructor
    · intro h
      obtain rfl := Except.error.inj h
      exact .noRoom hsize
    · rintro (- | ⟨hne, -⟩ | ⟨hne, -⟩)
      · rfl
      · exact absurd hsize hne
      · exact absurd hsize hne
  · rw [start, if_neg hsize, HistoryFile.load_eq_error_iff hsize]

/-! ### Evaluated expressions -/

def expressionsOf (lines : List (Option String)) : List String :=
  ((handledLines lines).filter fun line => IsExpressionLine line).map trimBlanks

theorem expressionsOf_cons {line : String} (h : ¬AsksToQuit line) (lines : List (Option String)) :
    expressionsOf (some line :: lines) =
      (if IsExpressionLine line then [trimBlanks line] else []) ++ expressionsOf lines := by
  rw [expressionsOf, handledLines_cons h, List.filter_cons]
  by_cases hline : IsExpressionLine line <;> simp [hline, expressionsOf]

theorem Directive.isExpressionLine_of_ofLine {line expression : String}
    (h : ofLine line = .expression expression) :
    IsExpressionLine line ∧ expression = trimBlanks line := by
  rw [ofLine] at h
  rw [IsExpressionLine]
  generalize trimBlanks line = trimmed at h ⊢
  split at h
  case h_6 hempty _ _ _ _ =>
    split_ifs at h with hcolon
    exact ⟨⟨hempty, hcolon⟩, (Directive.expression.inj h).symm⟩
  all_goals cases h

namespace Repl

section

variable (r : Repl) {evaluator : Evaluator}

theorem step_congr {line : Option String}
    (hline : ∀ text ∈ line, IsExpressionLine text →
      evaluator (trimBlanks text) = evaluateText (trimBlanks text)) (h : History) :
    r.step h line evaluator = r.step h line := by
  cases line with
  | none => rfl
  | some text =>
    rw [step, step]
    cases hdirective : Directive.ofLine text with
    | expression expression =>
      obtain ⟨htext, rfl⟩ := Directive.isExpressionLine_of_ofLine hdirective
      simp only [obey, evaluate, hline text rfl htext]
    | nothing | quit | history | clear | unknown => rfl

theorem feed_congr {lines : List (Option String)}
    (hlines : ∀ expression ∈ expressionsOf lines, evaluator expression = evaluateText expression)
    (h : History) : r.feed h lines evaluator = r.feed h lines := by
  induction lines generalizing r h with
  | nil => rfl
  | cons line lines ih =>
    by_cases hends : EndsLoop line
    · have hstep : r.step h line evaluator = r.step h line := by
        refine r.step_congr (fun text htext hexpression => ?_) h
        obtain rfl := Option.mem_def.1 htext
        exact absurd hends hexpression.not_asksToQuit
      rw [feed, feed, hstep, r.step_of_endsLoop hends]
    · obtain ⟨text, rfl⟩ : ∃ text, line = some text :=
        Option.ne_none_iff_exists'.1 fun hnone => hends (hnone ▸ trivial)
      rw [expressionsOf_cons hends, List.forall_mem_append] at hlines
      obtain ⟨htext, hrest⟩ := hlines
      have hstep : r.step h (some text) evaluator = r.step h (some text) := by
        refine r.step_congr (fun text' htext' hexpression => htext _ ?_) h
        obtain rfl := Option.some.inj htext'
        rw [if_pos hexpression]
        exact List.mem_singleton_self _
      rw [feed, feed, hstep]
      cases r.step h (some text) with
      | stop error => rfl
      | next h' output => simp only [ih (r.after 1) hrest]

/-- What a run does depends on no value but those of the expressions among its lines. -/
theorem run_congr {size : Nat} {file : HistoryFile} {input : List UInt8}
    (hinput : ∀ expression ∈ expressionsOf (textLines input),
      evaluator expression = evaluateText expression) :
    r.run size file input evaluator = r.run size file input := by
  rw [run, run]
  cases start size file with
  | error e => rfl
  | ok h => simp only [r.feed_congr hinput]

end

/-! ### Runs -/

/-- A run that cannot start only ends with its error, whatever the values of expressions are.  In
every other run the file is replaced by the text of the history that the lines lead to. -/
theorem run_refused_or_saved (r : Repl) (size : Nat) (file : HistoryFile) (input : List UInt8) :
    (∀ e, CannotStart size file e →
      ∀ evaluator, r.run size file input evaluator = ⟨⟨"", some e⟩, file⟩) ∧
    ((∀ e, ¬CannotStart size file e) →
      (∀ evaluator, (∀ expression ∈ expressionsOf (textLines input),
          evaluator expression = evaluateText expression) →
        r.run size file input evaluator = r.run size file input) ∧
      ∃ h, start size file = .ok h ∧ (file ≠ .unused →
        let text := (r.feed h (textLines input)).1.toJson
        (r.run size file input).file = .present text.toUTF8 ∧
          ∀ capacity, ∃ loaded, History.ofJson text capacity = .ok loaded)) := by
  refine ⟨fun e he evaluator => ?_, fun hstarts => ⟨fun evaluator => r.run_congr, ?_⟩⟩
  · rw [run, start_eq_error_iff.2 he]
    rfl
  · cases hstart : start size file with
    | error e => exact absurd (start_eq_error_iff.1 hstart) (hstarts e)
    | ok h =>
      have hsize : 1 ≤ size := Nat.one_le_iff_ne_zero.2 fun hzero => hstarts _ (.noRoom hzero)
      have hload : file.load size = .ok h := (start_eq_load hsize file).symm.trans hstart
      have hfits := r.fits_feed (HistoryFile.fits_of_load hload) (textLines input)
      refine ⟨h, rfl, fun hused => ⟨?_, fun capacity => ⟨_, hfits.reloads.ofJson_eq capacity⟩⟩⟩
      rw [r.run_eq_of_load hsize hload]
      exact HistoryFile.save_of_ne_unused hused _

/-- No room, a byte that is no text, a text that is no history, and no file yet. -/
theorem run_refused_or_saved_at_files :
    let r : Repl := { plain with prompts := true }
    let input := bytesOf "1/4\n:history\n1/0"
    let noText : HistoryFile := .present ⟨#[255]⟩
    let noHistory : HistoryFile := .present "not json".toUTF8
    (∀ evaluator, r.run 0 noHistory input evaluator =
      ⟨⟨"", some (.invalidArgument "--history-size must be at least 1")⟩, noHistory⟩) ∧
    r.run 2 noText input = ⟨⟨"", some .undecodable⟩, noText⟩ ∧
    r.run 2 noHistory input = ⟨⟨"", some (.json .malformed)⟩, noHistory⟩ ∧
    (r.run 2 .absent input).file =
      .present (Json.array [Entry.toJson ⟨"1/4", .ofBits 0x3fd0000000000000, 0⟩]).toUTF8 := by
  intro r input noText noHistory
  have hbyte : ∀ text : String, (⟨#[255]⟩ : ByteArray) ≠ text.toUTF8 :=
    fromUTF8?_eq_none_iff.1 (by decide +kernel)
  have hmalformed : History.ofJson "not json" 2 = .error .malformed := by decide +kernel
  have habsent : ∀ e, ¬CannotStart 2 .absent e := by
    rintro e ⟨⟨⟩⟩
  have hentries : (r.feed (.empty 2) (textLines input)).1.entries =
      [⟨"1/4", .ofBits 0x3fd0000000000000, 0⟩] := by decide +kernel
  obtain ⟨hzero, -⟩ := run_refused_or_saved r 0 noHistory input
  obtain ⟨htext, -⟩ := run_refused_or_saved r 2 noText input
  obtain ⟨hhistory, -⟩ := run_refused_or_saved r 2 noHistory input
  obtain ⟨-, hstarts⟩ := run_refused_or_saved r 2 .absent input
  obtain ⟨-, h, hstart, hfile⟩ := hstarts habsent
  obtain rfl : History.empty 2 = h := Except.ok.inj hstart
  refine ⟨hzero _ (.noRoom rfl), htext _ (.noText (by decide) hbyte) _,
    hhistory _ (.noHistory (by decide) hmalformed) _, ?_⟩
  rw [(hfile nofun).1, History.toJson, hentries]
  rfl

end Repl

end FourFunction
