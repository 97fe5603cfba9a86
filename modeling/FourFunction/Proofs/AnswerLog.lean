import FourFunction.Proofs.BoundedLog
import FourFunction.Proofs.FiniteHistories
import FourFunction.Proofs.RunningTotal
import FourFunction.Proofs.ShownValue

/-!
# The history of a session

The history of a session is the log of its answers, cut down to the newest hundred
(`Session.logs_performAll`).  An answer on the display is an expression itself, whose value it is.
-/

namespace FourFunction

def Entry.answer (e : Entry) : String × Binary64 := (e.expression, e.result)

def Change.answer? : Change → Option (String × Binary64)
  | .answered expression value => some (expression, value)
  | .typed _ | .failed _ _ | .cleared => none

def answersOf (changes : List Change) : List (String × Binary64) := changes.filterMap Change.answer?

theorem answersOf_concat (changes : List Change) (change : Change) :
    answersOf (changes ++ [change]) = answersOf changes ++ change.answer?.toList := by
  rw [answersOf, List.filterMap_append, answersOf]
  cases hanswer : change.answer? <;> simp [hanswer]

/-- The operations that ask for the value of what is on the display. -/
def equalsOperations : List Operation := [.evaluate, .press .equals, .pressChar '=']

namespace Session

/-! ### The log of answers -/

theorem history_evaluate (s : Session) :
    (∃ value, s.evaluation = .answered s.buffer value ∧
      s.evaluate.2.history = s.history.record ⟨s.buffer, value, s.clock⟩) ∨
    ∃ e, s.evaluation = .failed s.buffer e ∧ s.evaluate.2.history = s.history := by
  unfold evaluation evaluate
  cases evaluateBuffer s.buffer s.carry with
  | ok value => exact .inl ⟨value, rfl, rfl⟩
  | error e => exact .inr ⟨e, rfl, rfl⟩

/-- The history is the newest part of a log of the answers among changes. -/
def Logs (s : Session) (changes : List Change) : Prop :=
  ∃ log, s.history = .ofEntries log History.defaultCapacity ∧
    log.map Entry.answer = answersOf changes

theorem Logs.evaluate {s : Session} {changes : List Change} (h : s.Logs changes) :
    s.evaluate.2.Logs (changes ++ [s.evaluation]) := by
  obtain ⟨log, hhistory, hlog⟩ := h
  obtain ⟨value, hchange, hrecord⟩ | ⟨e, hchange, hsame⟩ := s.history_evaluate
  · refine ⟨log ++ [⟨s.buffer, value, s.clock⟩], ?_, ?_⟩
    · rw [hrecord, hhistory, History.ofEntries_record]
    · rw [List.map_append, hlog, answersOf_concat, hchange]
      rfl
  · refine ⟨log, hsame.trans hhistory, ?_⟩
    rw [hlog, answersOf_concat, hchange, Change.answer?, Option.toList_none, List.append_nil]

theorem logs_performAll (style : ErrorStyle) (ops : List Operation) :
    ((new style).performAll ops).Logs ((new style).changesOf ops) := by
  refine run_induction (P := Logs) ?_ ?_ ?_ ?_ ?_ ops
  · rintro s cs key c s' ⟨log, hhistory, hlog⟩ hc hpress
    refine ⟨log, (history_press hc hpress).trans hhistory, ?_⟩
    rw [hlog, answersOf_concat, Change.answer?, Option.toList_none, List.append_nil]
  · intro s cs h
    exact h.evaluate
  · rintro s cs ⟨log, hhistory, hlog⟩
    refine ⟨log, hhistory, ?_⟩
    rw [hlog, answersOf_concat, Change.answer?, Option.toList_none, List.append_nil]
  · intro s cs time h
    exact h
  · exact ⟨[], (History.ofEntries_nil _).symm, rfl⟩

theorem history_perform (s : Session) {op : Operation} (hanswers : answersOf (s.changes op) = []) :
    (s.perform op).history = s.history := by
  have hkept : answersOf ([] ++ s.changes op) = [] → (s.perform op).history = s.history := by
    refine perform_induction
      (P := fun s' cs => answersOf cs = [] → s'.history = s.history) ?_ ?_ ?_ ?_ (fun _ => rfl) op
    · intro s' cs key c s'' h hc hpress hcs
      rw [answersOf_concat, List.append_eq_nil_iff] at hcs
      exact (history_press hc hpress).trans (h hcs.1)
    · intro s' cs h hcs
      rw [answersOf_concat, List.append_eq_nil_iff] at hcs
      obtain ⟨value, hchange, -⟩ | ⟨e, -, hsame⟩ := s'.history_evaluate
      · rw [hchange] at hcs
        cases hcs.2
      · exact hsame.trans (h hcs.1)
    · intro s' cs h hcs
      rw [answersOf_concat, List.append_eq_nil_iff] at hcs
      exact h hcs.1
    · intro s' cs time h
      exact h
  exact hkept hanswers

/-! ### Asking again -/

theorem perform_of_mem_equalsOperations (s : Session) {op : Operation}
    (hop : op ∈ equalsOperations) :
    s.perform op = s.evaluate.2 ∧ s.changes op = [s.evaluation] := by
  simp only [equalsOperations, List.mem_cons, List.not_mem_nil, or_false] at hop
  obtain rfl | rfl | rfl := hop
  · exact ⟨rfl, rfl⟩
  · exact ⟨rfl, rfl⟩
  · exact ⟨rfl, rfl⟩

structure ShowsAnswer (s : Session) (value : Binary64) : Prop where
  buffer_eq : s.buffer = value.resultText
  carry_eq : s.carry = some ⟨value, value.resultText.length⟩
  lastError_eq : s.lastError = none
  isFinite_value : value.isFinite = true

theorem showsAnswer_evaluate {s : Session} {value : Binary64} (h : s.evaluate.1 = .ok value) :
    s.evaluate.2.ShowsAnswer value := by
  have hrests := s.rests_evaluate
  rw [evaluation, h] at hrests
  obtain ⟨hbuffer, hcarry, herror⟩ := hrests
  rw [evaluate_fst] at h
  exact ⟨hbuffer, hcarry, herror, isFinite_of_evaluateBuffer h⟩

namespace ShowsAnswer

variable {s : Session} {value : Binary64}

theorem display_eq (h : s.ShowsAnswer value) : s.display = value.resultText := by
  rw [display, h.lastError_eq]
  exact h.buffer_eq

/-- All that the evaluation of an answer changes is the history. -/
theorem evaluate_eq (h : s.ShowsAnswer value) :
    s.evaluate =
      (.ok value, { s with history := s.history.record ⟨value.resultText, value, s.clock⟩ }) := by
  obtain ⟨buffer, carry, lastError, history, errorStyle, clock⟩ := s
  obtain ⟨hbuffer, hcarry, herror, hfinite⟩ := h
  dsimp only at hbuffer hcarry herror
  subst hbuffer hcarry herror
  have htokens : tokenize "" = .ok [] := by decide +kernel
  have hvalue := evaluateBuffer_append value value.resultText ""
  rw [String.append_empty, htokens, mapError_ok, ok_bind, evaluate_number hfinite] at hvalue
  simp only [evaluate, hvalue]

theorem evaluation_eq (h : s.ShowsAnswer value) :
    s.evaluation = .answered value.resultText value := by
  rw [evaluation, h.evaluate_eq, h.buffer_eq]

/-- An answer that is asked for again and again is given each time, and recorded each time. -/
theorem performAll (h : s.ShowsAnswer value) {log : List Entry} {capacity : Nat}
    (hlog : s.history = .ofEntries log capacity) {again : List Operation}
    (hagain : ∀ op ∈ again, op ∈ equalsOperations) :
    s.changesOf again = List.replicate again.length (.answered value.resultText value) ∧
    s.performAll again = { s with
      history := .ofEntries (log ++ List.replicate again.length ⟨value.resultText, value, s.clock⟩)
        capacity } := by
  induction again generalizing s log with
  | nil =>
    refine ⟨rfl, ?_⟩
    rw [List.length_nil, List.replicate_zero, List.append_nil, ← hlog]
    rfl
  | cons op again ih =>
    obtain ⟨hop, hagain⟩ := List.forall_mem_cons.1 hagain
    obtain ⟨hperform, hchanges⟩ := s.perform_of_mem_equalsOperations hop
    rw [h.evaluate_eq] at hperform
    rw [h.evaluation_eq] at hchanges
    have hshows : (s.perform op).ShowsAnswer value := by
      rw [hperform]
      exact ⟨h.buffer_eq, h.carry_eq, h.lastError_eq, h.isFinite_value⟩
    have hrecord : (s.perform op).history =
        .ofEntries (log ++ [⟨value.resultText, value, s.clock⟩]) capacity := by
      rw [hperform, hlog, History.ofEntries_record]
    obtain ⟨hrest, hlast⟩ := ih hshows hrecord hagain
    have hclock : (s.perform op).clock = s.clock := by rw [hperform]
    constructor
    · rw [changesOf, hchanges, hrest, List.length_cons, List.replicate_succ]
      rfl
    · have hstep : s.performAll (op :: again) = (s.perform op).performAll again := rfl
      rw [hstep, hlast, hclock, hperform, List.append_assoc, List.length_cons, List.replicate_succ]
      rfl

end ShowsAnswer

/-! ### The log of a run -/

/-- The history holds the newest hundred answers of a run, with the expressions that were on the
display.  An operation without an answer leaves it as it is; asking for an answer again gives the
same value and adds an entry each time. -/
theorem history_after_run (style : ErrorStyle) (ops : List Operation) :
    let s := (new style).performAll ops
    s.history.entries.map Entry.answer = (answersOf ((new style).changesOf ops)).rtake 100 ∧
    (∀ op, answersOf (s.changes op) = [] → (s.perform op).history = s.history) ∧
    ∀ value, s.evaluate.1 = .ok value →
      let t := s.evaluate.2
      let entry : Entry := ⟨t.display, value, t.clock⟩
      s.evaluation = .answered s.display value ∧
      ∀ again : List Operation, (∀ op ∈ again, op ∈ equalsOperations) →
        t.changesOf again = List.replicate again.length (.answered t.display value) ∧
        (t.performAll again).evaluate.1 = .ok value ∧
        (t.performAll again).display = t.display ∧
        (t.performAll again).history.entries =
          (t.history.entries ++ List.replicate again.length entry).rtake 100 := by
  intro s
  refine ⟨?_, fun op => s.history_perform, fun value hvalue => ?_⟩
  · obtain ⟨log, hhistory, hlog⟩ := logs_performAll style ops
    rw [show s.history = _ from hhistory, ← hlog, History.entries_ofEntries, List.rtake, List.rtake,
      List.map_drop, List.length_map]
    rfl
  · intro t entry
    have hcoherent : s.Coherent := coherent_performAll style ops
    have hdisplay : s.display = s.buffer := by
      rw [display, lastError_of_evaluate hcoherent hvalue]
    refine ⟨by rw [evaluation, hvalue, hdisplay], fun again hagain => ?_⟩
    have hshows : t.ShowsAnswer value := showsAnswer_evaluate hvalue
    -- the log may start with what the history holds before the repetitions
    obtain ⟨log, hhistory, -⟩ := (logs_performAll style ops).evaluate
    have hstart : t.history = .ofEntries t.history.entries History.defaultCapacity := by
      rw [show t.history = _ from hhistory]
      exact (History.bounded_ofEntries log History.defaultCapacity).eq_ofEntries
    obtain ⟨hchanges, hlast⟩ := hshows.performAll hstart hagain
    have hentry : entry = ⟨value.resultText, value, t.clock⟩ := by rw [← hshows.display_eq]
    rw [hentry, hshows.display_eq]
    have hagain' : (t.performAll again).ShowsAnswer value := by
      rw [hlast]
      exact ⟨hshows.buffer_eq, hshows.carry_eq, hshows.lastError_eq, hshows.isFinite_value⟩
    refine ⟨hchanges, congrArg Prod.fst hagain'.evaluate_eq, hagain'.display_eq, ?_⟩
    rw [hlast]
    exact History.entries_ofEntries _ _

/-- A third that is asked for a hundred times more drives all other answers out. -/
theorem history_after_run_of_thirds :
    let s := (new .brief).performAll [.pressText "2*2=C1/0=1/3x"]
    let again : List Operation := List.replicate 100 (.press .equals)
    s.history.entries.map Entry.answer = [("2*2", .ofBits 0x4010000000000000)] ∧
    s.evaluate.1 = .ok third ∧ s.evaluate.2.display = "0.333333333333333" ∧
    s.evaluate.2.history.entries.map Entry.answer =
      [("2*2", .ofBits 0x4010000000000000), ("1/3", third)] ∧
    (s.evaluate.2.performAll again).evaluate.1 = .ok third ∧
    (s.evaluate.2.performAll again).display = "0.333333333333333" ∧
    (s.evaluate.2.performAll again).history.entries =
      List.replicate 100 ⟨"0.333333333333333", third, 0⟩ := by
  intro s again
  have hvalue : s.evaluate.1 = .ok third := by decide +kernel
  have hdisplay : s.evaluate.2.display = "0.333333333333333" := by decide +kernel
  have hclock : s.evaluate.2.clock = 0 := by decide +kernel
  have hstart : s.evaluate.2.history.entries =
      [⟨"2*2", .ofBits 0x4010000000000000, 0⟩, ⟨"1/3", third, 0⟩] := by decide +kernel
  have hanswers : answersOf ((new .brief).changesOf [.pressText "2*2=C1/0=1/3x"]) =
      [("2*2", .ofBits 0x4010000000000000)] := by decide +kernel
  obtain ⟨hlog, -, hrepeat⟩ := history_after_run .brief [.pressText "2*2=C1/0=1/3x"]
  obtain ⟨-, hagain⟩ := hrepeat third hvalue
  obtain ⟨-, hlast, hkept, hentries⟩ := hagain again fun op hop => by
    rw [List.eq_of_mem_replicate hop]
    decide
  rw [hanswers] at hlog
  rw [List.length_replicate, hdisplay, hclock, hstart] at hentries
  refine ⟨hlog, hvalue, hdisplay, by rw [hstart]; rfl, hlast, hkept.trans hdisplay, ?_⟩
  rw [hentries, List.rtake, List.length_append, List.length_replicate, List.drop_append]
  rfl

end Session

end FourFunction
