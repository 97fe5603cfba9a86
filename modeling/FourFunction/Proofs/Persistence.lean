import FourFunction.Console.Repl
import FourFunction.Proofs.SavedHistory
import FourFunction.Proofs.TextLines
import Mathlib.Tactic

/-!
# Interrupted runs

A run of the line-by-line calculator can be broken off after any line and continued from the history
file: the two runs together are one run over the whole input (`Repl.run_resume`).
-/

namespace FourFunction

/-- The file does not exist, or holds the text of a history. -/
def HistoryFile.Loadable (file : HistoryFile) (size : Nat) : Prop :=
  file = absent ∨ ∃ text h, file = present text.toUTF8 ∧ History.ofJson text size = .ok h

def GoesOn (line : String) : Prop := Directive.ofLine line ≠ .quit

instance : DecidablePred GoesOn := fun line =>
  inferInstanceAs (Decidable (Directive.ofLine line ≠ .quit))

namespace HistoryFile

theorem load_present {text : String} {size : Nat} {h : History}
    (hload : History.ofJson text size = .ok h) : (present text.toUTF8).load size = .ok h := by
  simp only [load, fromUTF8?_toUTF8, hload, mapError_ok]

theorem Loadable.exists_load {file : HistoryFile} {size : Nat} (hfile : file.Loadable size) :
    ∃ h, file.load size = .ok h ∧ h.Fits size := by
  obtain rfl | ⟨text, h, rfl, hload⟩ := hfile
  · exact ⟨_, rfl, History.fits_empty size⟩
  · exact ⟨h, load_present hload, History.fits_of_ofJson hload⟩

theorem Loadable.save {file : HistoryFile} {size : Nat} (hfile : file.Loadable size) (h : History) :
    file.save h = .present h.toJson.toUTF8 := by
  obtain rfl | ⟨text, h', rfl, -⟩ := hfile <;> rfl

end HistoryFile

/-- An outcome with some output in front. -/
def Outcome.behind (outcome : Outcome) (output : String) : Outcome :=
  { outcome with output := output ++ outcome.output }

namespace Repl

variable (r : Repl)

/-! ### Times -/

theorem after_zero : r.after 0 = r := by
  have hclock : r.clock.after 0 = r.clock := funext fun i => congrArg r.clock (Nat.zero_add i)
  rw [after, hclock]

theorem after_after (m n : Nat) : (r.after m).after n = r.after (m + n) := by
  have hclock : (r.clock.after m).after n = r.clock.after (m + n) :=
    funext fun i => congrArg r.clock (Nat.add_assoc m n i).symm
  simp only [after, hclock]

@[simp] theorem promptText_after (n : Nat) : (r.after n).promptText = r.promptText := rfl

/-! ### The start -/

theorem start_eq_load {size : Nat} (hsize : 1 ≤ size) (file : HistoryFile) :
    start size file = file.load size :=
  if_neg (by omega)

/-! ### Lines -/

theorem fits_evaluate {h : History} {size : Nat} (hfits : h.Fits size) (expression : String) :
    (r.evaluate h expression).1.Fits size := by
  unfold evaluate
  cases hvalue : evaluateText expression with
  | ok value => exact hfits.record (isFinite_of_evaluateText hvalue)
  | error e => exact hfits

theorem exists_obey_eq_next {h : History} {size : Nat} (hfits : h.Fits size)
    {directive : Directive} (hquit : directive ≠ .quit) :
    ∃ h' output, r.obey h directive = .next h' output ∧ h'.Fits size := by
  cases directive with
  | quit => exact absurd rfl hquit
  | nothing | history | unknown line => exact ⟨h, _, rfl, hfits⟩
  | clear => exact ⟨_, _, rfl, hfits.clear⟩
  | expression line => exact ⟨_, _, rfl, r.fits_evaluate hfits line⟩

theorem ofLine_withoutReturn (line : String) :
    Directive.ofLine (withoutReturn line) = Directive.ofLine line := by
  rw [Directive.ofLine, Directive.ofLine, trimBlanks_withoutReturn]

/-- Lines lead to a history from which the lines behind them are handled. -/
theorem feed_append {h : History} {size : Nat} (hfits : h.Fits size) {lines : List String}
    (hlines : ∀ line ∈ lines, GoesOn line) :
    ∃ mid output, mid.Fits size ∧ ∀ more,
      r.feed h ((lines.map fun line => some (withoutReturn line)) ++ more) =
        (((r.after lines.length).feed mid more).1,
          ((r.after lines.length).feed mid more).2.behind output) := by
  induction lines generalizing r h with
  | nil => exact ⟨h, "", hfits, fun more => by simp [after_zero, Outcome.behind]⟩
  | cons line lines ih =>
    obtain ⟨hline, hrest⟩ := List.forall_mem_cons.1 hlines
    obtain ⟨h', output, hobey, hfits'⟩ := r.exists_obey_eq_next hfits hline
    obtain ⟨mid, output', hmid, hfeed⟩ := ih (r.after 1) hfits' hrest
    have hstep : r.step h (some (withoutReturn line)) = .next h' output := by
      rw [step, ofLine_withoutReturn, hobey]
    refine ⟨mid, output ++ r.promptText ++ output', hmid, fun more => ?_⟩
    rw [List.map_cons, List.cons_append, feed, hstep, List.length_cons, Nat.add_comm, ← after_after]
    simp only [hfeed, Outcome.behind, String.append_assoc]

/-! ### Runs -/

theorem run_eq_of_load {size : Nat} (hsize : 1 ≤ size) {file : HistoryFile} {h : History}
    (hload : file.load size = .ok h) (input : List UInt8) :
    r.run size file input =
      ⟨(r.feed h (textLines input)).2.behind r.promptText,
        file.save (r.feed h (textLines input)).1⟩ := by
  rw [run, start_eq_load hsize, hload]
  rfl

theorem promptText_eq (hprompts : r.prompts = false) : r.promptText = "" := by
  rw [promptText, hprompts]
  rfl

theorem run_of_load (hprompts : r.prompts = false) {size : Nat} (hsize : 1 ≤ size)
    {file : HistoryFile} {h : History} (hload : file.load size = .ok h) (input : List UInt8) :
    r.run size file input =
      ⟨(r.feed h (textLines input)).2, file.save (r.feed h (textLines input)).1⟩ := by
  rw [r.run_eq_of_load hsize hload, r.promptText_eq hprompts]
  simp [Outcome.behind]

/-- Two runs do what one run over the whole input does, if the results in the file between them are
read back as they were written. -/
theorem run_resume (hprompts : r.prompts = false) {size : Nat} (hsize : 1 ≤ size)
    {file : HistoryFile} (hfile : file.Loadable size) {lines : List String}
    (hlines : ∀ line ∈ lines, '\n' ∉ line.toList ∧ GoesOn line)
    (hread : ∀ h, file.load size = .ok h →
      ∀ e ∈ (r.feed h (textLines (lines.flatMap lineBytes))).1.entries, e.reread = e)
    (input : List UInt8) :
    let first := r.run size file (lines.flatMap lineBytes)
    let second := (r.after lines.length).run size first.file input
    let whole := r.run size file (lines.flatMap lineBytes ++ input)
    first.error = none ∧ first.output ++ second.output = whole.output ∧
      second.error = whole.error ∧ second.file = whole.file := by
  intro first second whole
  obtain ⟨h, hload, hfits⟩ := hfile.exists_load
  obtain ⟨mid, output, hmid, hfeed⟩ := r.feed_append hfits fun line hline => (hlines line hline).2
  have hnewline : ∀ line ∈ lines, '\n' ∉ line.toList := fun line hline => (hlines line hline).1
  have hfront : r.feed h (textLines (lines.flatMap lineBytes)) = (mid, ⟨output, none⟩) := by
    have htext := textLines_flatMap_append hnewline []
    rw [List.append_nil] at htext
    rw [htext, hfeed]
    simp [textLines, linesFrom, feed, Outcome.behind]
  have hfirst : first = ⟨⟨output, none⟩, .present mid.toJson.toUTF8⟩ := by
    rw [show first = _ from r.run_of_load hprompts hsize hload _, hfront, hfile.save]
  have hreload : (HistoryFile.present mid.toJson.toUTF8).load size = .ok mid := by
    have hmidRead := hread h hload
    rw [hfront] at hmidRead
    exact HistoryFile.load_present (History.ofJson_toJson_of_fits hmid hmidRead)
  have hsecond : second = ⟨((r.after lines.length).feed mid (textLines input)).2,
      .present ((r.after lines.length).feed mid (textLines input)).1.toJson.toUTF8⟩ := by
    rw [show second = (r.after lines.length).run size (.present mid.toJson.toUTF8) input from
      congrArg (fun o => (r.after lines.length).run size o.file input) hfirst]
    exact (r.after lines.length).run_of_load hprompts hsize hreload input
  have hwhole : whole = ⟨((r.after lines.length).feed mid (textLines input)).2.behind output,
      .present ((r.after lines.length).feed mid (textLines input)).1.toJson.toUTF8⟩ := by
    rw [show whole = _ from r.run_of_load hprompts hsize hload _,
      textLines_flatMap_append hnewline, hfeed, hfile.save]
  rw [hfirst, hsecond, hwhole]
  exact ⟨rfl, rfl, rfl, rfl⟩

/-- A calculator that prints texts without colors and does not prompt. -/
def plain : Repl := ⟨⟨.text, false⟩, false, 0⟩

/-- The second run drops the oldest result of the first one when its own comes in. -/
theorem run_resume_after_two_lines :
    let first := plain.run 2 .absent (["1/3", "2*4\r"].flatMap lineBytes)
    let second := (plain.after 2).run 2 first.file (bytesOf "5-6\n:history")
    first.output ++ second.output = "0.333333333333333\n8\n-1\n2*4 = 8\n5-6 = -1\n" ∧
      second.error = none := by
  intro first second
  have hlines : ∀ line ∈ ["1/3", "2*4\r"], '\n' ∉ line.toList ∧ GoesOn line := by decide +kernel
  have hread : ∀ h, HistoryFile.absent.load 2 = .ok h →
      ∀ e ∈ (plain.feed h (textLines (["1/3", "2*4\r"].flatMap lineBytes))).1.entries,
        e.reread = e := by
    intro h hload
    obtain rfl := Except.ok.inj hload
    decide +kernel
  obtain ⟨-, houtput, herror, -⟩ :=
    plain.run_resume rfl (by decide : 1 ≤ 2) (.inl rfl) hlines hread (bytesOf "5-6\n:history")
  exact ⟨houtput.trans (by decide +kernel), herror.trans (by decide +kernel)⟩

end Repl

end FourFunction
