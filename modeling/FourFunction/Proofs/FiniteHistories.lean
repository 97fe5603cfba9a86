import FourFunction.Proofs.NewestEntries
import FourFunction.Proofs.Persistence
import FourFunction.Proofs.SessionState

/-!
# Histories that can be loaded again

An infinity or a NaN is never an answer, and a text that has one in place of a result is not loaded.
So every history has finite results only, and is loaded again from its text (`finite_along_runs`).
-/

namespace FourFunction

namespace History

/-- The text of such a history writes `null` for no result, and is loaded with any capacity. -/
structure Reloads (h : History) : Prop where
  isFinite_result : ∀ e ∈ h.entries, e.result.isFinite = true
  number_ne_null : ∀ e ∈ h.entries, Json.number e.result ≠ "null"
  ofJson_eq : ∀ capacity,
    ofJson h.toJson capacity = .ok (ofEntries (h.entries.map Entry.reread) capacity)

theorem Fits.reloads {h : History} {capacity : Nat} (hfits : h.Fits capacity) : h.Reloads where
  isFinite_result := hfits.isFinite_result
  number_ne_null e he hnull := by
    have hinfinite := Json.number_eq_null_iff.1 hnull
    rw [hfits.isFinite_result e he] at hinfinite
    cases hinfinite
  ofJson_eq := ofJson_toJson hfits.isFinite_result

end History

/-! ### Sessions -/

namespace Session

theorem history_append (s : Session) (c : Char) : (s.append c).history = s.history := by
  unfold append
  split <;> rfl

theorem history_appendDigit (s : Session) (c : Char) : (s.appendDigit c).history = s.history := by
  unfold appendDigit
  split
  · exact s.history_append c
  · exact s.history_append c

theorem history_press {s s' : Session} {key : Key} {c : Char} (hc : key.char? = some c)
    (hpress : s.press key = .ok s') : s'.history = s.history := by
  rcases press_typed hc hpress with ⟨-, rfl⟩ | ⟨op, -, rfl⟩
  · exact s.history_appendDigit c
  · exact s.history_append c

theorem fits_evaluate {s : Session} {capacity : Nat} (hfits : s.history.Fits capacity) :
    s.evaluate.2.history.Fits capacity := by
  unfold evaluate
  cases hvalue : evaluateBuffer s.buffer s.carry with
  | ok value => exact hfits.record (isFinite_of_evaluateBuffer hvalue)
  | error e => exact hfits

/-- Only an answer changes the history, so every run keeps it one that fits. -/
theorem fits_performAll (style : ErrorStyle) (ops : List Operation) :
    ((new style).performAll ops).history.Fits History.defaultCapacity := by
  refine run_induction (P := fun s _ => s.history.Fits History.defaultCapacity) ?_ ?_ ?_ ?_ ?_ ops
  · intro s cs key c s' hfits hc hpress
    rw [history_press hc hpress]
    exact hfits
  · intro s cs hfits
    exact fits_evaluate hfits
  · intro s cs hfits
    exact hfits
  · intro s cs time hfits
    exact hfits
  · exact History.fits_empty _

end Session

/-! ### Line-by-line calculators -/

namespace HistoryFile

theorem fits_of_load {file : HistoryFile} {size : Nat} {h : History}
    (hload : file.load size = .ok h) : h.Fits size := by
  cases file with
  | unused | absent =>
    obtain rfl := Except.ok.inj hload
    exact History.fits_empty size
  | present content =>
    simp only [load] at hload
    split at hload
    · cases hload
    · exact History.fits_of_ofJson (mapError_eq_ok_iff.1 hload)

/-- Whether a file is loaded does not depend on the capacity. -/
theorem exists_load {file : HistoryFile} {size : Nat} {h : History}
    (hload : file.load size = .ok h) (capacity : Nat) : ∃ h', file.load capacity = .ok h' := by
  rw [load_eq] at hload
  obtain ⟨entries, hentries, -⟩ := map_eq_ok_iff.1 hload
  exact ⟨_, by rw [load_eq, hentries, map_ok]⟩

theorem exists_load_save (file : HistoryFile) {h : History} (hreloads : h.Reloads)
    (capacity : Nat) : ∃ h', (file.save h).load capacity = .ok h' := by
  cases file with
  | unused => exact ⟨_, rfl⟩
  | absent | present content => exact ⟨_, load_present (hreloads.ofJson_eq capacity)⟩

end HistoryFile

namespace Repl

variable (r : Repl)

theorem fits_feed {h : History} {size : Nat} (hfits : h.Fits size) (lines : List (Option String)) :
    (r.feed h lines).1.Fits size := by
  induction lines generalizing r h with
  | nil => exact hfits
  | cons line lines ih =>
    rw [feed]
    cases hstep : r.step h line with
    | stop error => exact hfits
    | next h' output =>
      refine ih (r.after 1) ?_
      cases line with
      | none => cases hstep
      | some text =>
        have hquit : Directive.ofLine text ≠ .quit := by
          intro heq
          rw [step, heq] at hstep
          cases hstep
        obtain ⟨next, output', hobey, hnext⟩ := r.exists_obey_eq_next hfits hquit
        rw [step, hobey] at hstep
        obtain ⟨rfl, -⟩ := Step.next.inj hstep
        exact hnext

theorem exists_load_run {size : Nat} {file : HistoryFile} {h : History}
    (hload : file.load size = .ok h) (input : List UInt8) (capacity : Nat) :
    ∃ h', (r.run size file input).file.load capacity = .ok h' := by
  by_cases hsize : 1 ≤ size
  · rw [r.run_eq_of_load hsize hload]
    exact file.exists_load_save (r.fits_feed (HistoryFile.fits_of_load hload) _).reloads capacity
  · -- the run does not start
    obtain rfl : size = 0 := by omega
    exact HistoryFile.exists_load hload capacity

end Repl

/-! ### All of them together -/

/-- No infinity and no NaN is ever an answer.  The history of a session, and that of a line-by-line
calculator after any lines, has finite results and is loaded again from its text; so is the file
that a run leaves. -/
theorem finite_along_runs :
    (∀ tokens value, evaluate tokens = .ok value ∨ foldTokens tokens = .ok value →
      value.isFinite = true) ∧
    (∀ style ops, (∀ carry ∈ ((Session.new style).performAll ops).carry,
      carry.value.isFinite = true) ∧ ((Session.new style).performAll ops).history.Reloads) ∧
    ∀ (r : Repl) size file h, file.load size = .ok h →
      (∀ lines, (r.feed h lines).1.Reloads) ∧
        ∀ input capacity, ∃ h', (r.run size file input).file.load capacity = .ok h' := by
  refine ⟨fun tokens value h => ?_, fun style ops => ⟨fun carry hcarry => ?_, ?_⟩,
    fun r size file h hload => ⟨fun lines => ?_, r.exists_load_run hload⟩⟩
  · exact h.elim isFinite_of_evaluate isFinite_of_foldTokens
  · have hcoherent := Session.coherent_performAll style ops
    obtain ⟨shown, behind, -, hfronts⟩ := hcoherent.fronts carry hcarry
    exact hfronts.isFinite_value
  · exact (Session.fits_performAll style ops).reloads
  · exact (r.fits_feed (HistoryFile.fits_of_load hload) lines).reloads

def largestEntries : List Entry := [⟨"kept", .ofBits 0x7fefffffffffffff, 5⟩]

def largestFile : HistoryFile :=
  .present (Json.array (largestEntries.map Entry.toJson)).toUTF8

/-- The calculator keeps the largest result there is. -/
theorem finite_along_runs_of_largest :
    Binary64.isFinite (.ofBits 0x4008000000000000) = true ∧
    ((Session.new .brief).performAll [.pressText "1/3=="]).history.Reloads ∧
    (Repl.plain.feed ⟨largestEntries, 2⟩ [some "1/3", some "1/0"]).1.Reloads ∧
    ∃ h, (Repl.plain.run 2 largestFile (bytesOf "1/3\n1/0")).file.load 1 = .ok h := by
  have hload : largestFile.load 2 = .ok ⟨largestEntries, 2⟩ := by decide +kernel
  have hvalue : evaluate [.number (.ofBits 0x4018000000000000), .operator .div,
      .number (.ofBits 0x4000000000000000)] = .ok (.ofBits 0x4008000000000000) := by
    decide +kernel
  obtain ⟨hanswers, hsessions, hruns⟩ := finite_along_runs
  obtain ⟨hlines, hfile⟩ := hruns Repl.plain 2 largestFile _ hload
  exact ⟨hanswers _ _ (.inl hvalue), (hsessions _ _).2, hlines _, hfile _ 1⟩

end FourFunction
