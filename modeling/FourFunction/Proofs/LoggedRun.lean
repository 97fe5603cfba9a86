import FourFunction.Proofs.NewestEntries
import FourFunction.Proofs.Persistence

/-!
# What a run saves

A run handles its lines up to the first one that has no text or asks to quit, and saves the newest
entries of a log (`logged`): those of the file and one for each expression with a value, from the
last clearing on (`Repl.run_saves`).
-/

namespace FourFunction

/-! ### Lines -/

def AsksToQuit (line : String) : Prop := trimBlanks line = ":quit" ∨ trimBlanks line = ":q"

instance : DecidablePred AsksToQuit := fun _ => inferInstanceAs (Decidable (_ ∨ _))

/-- The line has no text, or asks for the end. -/
def EndsLoop : Option String → Prop
  | none => True
  | some line => AsksToQuit line

instance : DecidablePred EndsLoop
  | none => inferInstanceAs (Decidable True)
  | some line => inferInstanceAs (Decidable (AsksToQuit line))

/-- The lines in front of the first one at which the loop ends. -/
def handledLines (lines : List (Option String)) : List String :=
  (lines.takeWhile fun line => ¬EndsLoop line).reduceOption

def endingLine? (lines : List (Option String)) : Option (Option String) :=
  lines.find? fun line => EndsLoop line

theorem handledLines_of_endsLoop {line : Option String} (h : EndsLoop line)
    (lines : List (Option String)) : handledLines (line :: lines) = [] := by
  simp [handledLines, h, List.reduceOption]

theorem handledLines_cons {line : String} (h : ¬AsksToQuit line) (lines : List (Option String)) :
    handledLines (some line :: lines) = line :: handledLines lines := by
  have hline : ¬EndsLoop (some line) := h
  simp [handledLines, hline, List.reduceOption]

/-- The line without text comes before any that asks for the end. -/
theorem endingLine?_eq_some_none_iff {lines : List (Option String)} :
    endingLine? lines = some none ↔
      ∃ before after, lines = before ++ none :: after ∧
        ∀ line ∈ before, ∀ text ∈ line, ¬AsksToQuit text := by
  constructor
  · intro h
    obtain ⟨-, before, after, rfl, hbefore⟩ := List.find?_eq_some_iff_append.1 h
    refine ⟨before, after, rfl, fun line hline text htext => ?_⟩
    obtain rfl := Option.mem_def.1 htext
    have hends : ¬EndsLoop (some text) := by simpa using hbefore _ hline
    exact hends
  · rintro ⟨before, after, rfl, hbefore⟩
    induction before with
    | nil => rfl
    | cons first before ih =>
      obtain ⟨hfirst, hrest⟩ := List.forall_mem_cons.1 hbefore
      cases first with
      | none => rfl
      | some text =>
        have hends : ¬EndsLoop (some text) := hfirst text rfl
        rw [endingLine?, List.cons_append, List.find?_cons_of_neg (by simpa using hends)]
        exact ih hrest

/-! ### The log -/

def stamped (clock : Clock) (lines : List String) : List (UInt64 × String) :=
  lines.mapIdx fun i line => (clock i, line)

theorem stamped_cons (clock : Clock) (line : String) (lines : List String) :
    stamped clock (line :: lines) = (clock 0, line) :: stamped (clock.after 1) lines := by
  have hbehind : (fun i line => (clock (i + 1), line)) =
      fun i (line : String) => (clock.after 1 i, line) := by
    funext i line
    rw [Clock.after, Nat.add_comm]
  rw [stamped, List.mapIdx_cons, hbehind, stamped]

/-- A line, freed of the blanks around it, adds an entry if it is an expression with a value. -/
def recorded? (line : UInt64 × String) : Option Entry :=
  if line.2 = "" ∨ line.2.toList.head? = some ':' then none
  else match evaluateText line.2 with
    | .ok value => some ⟨line.2, value, line.1⟩
    | .error _ => none

/-- Only what comes after the last line that clears the history counts. -/
def logged (loaded : List Entry) (lines : List (UInt64 × String)) : List Entry :=
  (if ∃ line ∈ lines, line.2 = ":clear" then [] else loaded) ++
    (lines.rtakeWhile (·.2 ≠ ":clear")).filterMap recorded?

theorem rtakeWhile_cons {α : Type} (p : α → Bool) (a : α) (s : List α) :
    (a :: s).rtakeWhile p = if ∀ b ∈ a :: s, p b = true then a :: s else s.rtakeWhile p := by
  induction s using List.reverseRecOn with
  | nil => by_cases ha : p a = true <;> simp [List.rtakeWhile, ha]
  | append_singleton s c ih =>
    rw [← List.cons_append, List.rtakeWhile_concat, List.rtakeWhile_concat, ih]
    by_cases hc : p c = true
    · simp only [hc, if_true, List.cons_append, List.forall_mem_cons, List.forall_mem_append]
      split_ifs <;> simp_all
    · simp [hc]

section

variable (loaded : List Entry)

theorem logged_nil : logged loaded [] = loaded := by
  simp [logged]

theorem logged_clear (time : UInt64) : logged loaded [(time, ":clear")] = [] := by
  simp [logged, List.rtakeWhile]

theorem logged_singleton {line : UInt64 × String} (h : line.2 ≠ ":clear") :
    logged loaded [line] = loaded ++ (recorded? line).toList := by
  cases hentry : recorded? line <;> simp [logged, List.rtakeWhile, h, hentry]

theorem logged_cons (line : UInt64 × String) (lines : List (UInt64 × String)) :
    logged loaded (line :: lines) = logged (logged loaded [line]) lines := by
  have hrtake := rtakeWhile_cons (fun line : UInt64 × String => line.2 ≠ ":clear") line lines
  by_cases hclear : ∃ a ∈ lines, a.2 = ":clear"
  · -- neither the first line nor what was loaded is left
    obtain ⟨a, hmem, ha⟩ := hclear
    have hcut : ¬∀ a ∈ line :: lines, decide (a.2 ≠ ":clear") = true := fun h => by
      simpa [ha] using h a (List.mem_cons_of_mem _ hmem)
    rw [if_neg hcut] at hrtake
    rw [logged, logged, hrtake, if_pos ⟨a, List.mem_cons_of_mem _ hmem, ha⟩, if_pos ⟨a, hmem, ha⟩]
  · have hlines : ∀ a ∈ lines, decide (a.2 ≠ ":clear") = true := fun a ha =>
      decide_eq_true fun heq => hclear ⟨a, ha, heq⟩
    have hself := List.rtakeWhile_eq_self_iff.2 hlines
    by_cases hline : line.2 = ":clear"
    · obtain ⟨time, text⟩ := line
      obtain rfl : text = ":clear" := hline
      rw [if_neg (by simp)] at hrtake
      rw [logged_clear, logged, logged, hrtake, if_pos ⟨_, List.mem_cons_self, rfl⟩, if_neg hclear]
    · have hall : ∀ a ∈ line :: lines, decide (a.2 ≠ ":clear") = true :=
        List.forall_mem_cons.2 ⟨decide_eq_true hline, hlines⟩
      rw [if_pos hall] at hrtake
      have hnone : ¬∃ a ∈ line :: lines, a.2 = ":clear" := by
        rintro ⟨a, hmem, ha⟩
        exact of_decide_eq_true (hall a hmem) ha
      rw [logged_singleton _ hline, logged, logged, hrtake, hself, if_neg hnone, if_neg hclear]
      cases hentry : recorded? line <;> simp [hentry]

end

namespace HistoryFile

theorem save_of_ne_unused {file : HistoryFile} (h : file ≠ .unused) (history : History) :
    file.save history = .present history.toJson.toUTF8 := by
  cases file with
  | unused => exact absurd rfl h
  | absent | present content => rfl

end HistoryFile

/-! ### Runs -/

namespace Repl

variable (r : Repl)

theorem evaluate_ofEntries {line : String} (hempty : line ≠ "")
    (hcolon : line.toList.head? ≠ some ':') (loaded : List Entry) (size : Nat) :
    (r.evaluate (.ofEntries loaded size) line).1 =
      .ofEntries (loaded ++ (recorded? (r.clock 0, line)).toList) size := by
  have hexpression : ¬(line = "" ∨ line.toList.head? = some ':') := by simp [hempty, hcolon]
  rw [recorded?, if_neg hexpression, evaluate]
  cases evaluateText line with
  | ok value => exact History.ofEntries_record _ _ _
  | error e => simp

/-- A line that the loop handles changes the log as a log of this line alone does. -/
theorem exists_step_eq_next {line : String} (hline : ¬AsksToQuit line) (loaded : List Entry)
    (size : Nat) :
    ∃ output, r.step (.ofEntries loaded size) (some line) =
      .next (.ofEntries (logged loaded [(r.clock 0, trimBlanks line)]) size) output := by
  rw [AsksToQuit, not_or] at hline
  rw [step, Directive.ofLine]
  generalize trimBlanks line = trimmed at hline ⊢
  -- lines that add no entry
  have hkept : trimmed ≠ ":clear" → (trimmed = "" ∨ trimmed.toList.head? = some ':') →
      logged loaded [(r.clock 0, trimmed)] = loaded := by
    intro hclear hnone
    rw [logged_singleton _ hclear, recorded?, if_pos hnone, Option.toList_none, List.append_nil]
  split
  case h_1 => exact ⟨_, by rw [hkept (by decide) (by decide)]; rfl⟩
  case h_2 => exact absurd rfl hline.1
  case h_3 => exact absurd rfl hline.2
  case h_4 => exact ⟨_, by rw [hkept (by decide) (by decide)]; rfl⟩
  case h_5 => exact ⟨_, by rw [logged_clear, ← History.ofEntries_clear loaded]; rfl⟩
  case h_6 hempty _ _ _ hclear =>
    split_ifs with hcolon
    · exact ⟨_, by rw [hkept hclear (.inr hcolon)]; rfl⟩
    · refine ⟨(r.evaluate (.ofEntries loaded size) trimmed).2, ?_⟩
      rw [logged_singleton _ hclear, ← r.evaluate_ofEntries hempty hcolon]
      rfl

theorem step_of_endsLoop {line : Option String} (h : EndsLoop line) (history : History) :
    r.step history line = .stop (if line = none then some .undecodable else none) := by
  cases line with
  | none => rfl
  | some line =>
    rw [step, Directive.ofLine]
    obtain h | h := h <;> rw [h] <;> rfl

/-- The lines behind the one at which the loop ends are not looked at. -/
theorem feed_append_of_endsLoop {front : List (Option String)} (h : ∃ line ∈ front, EndsLoop line)
    (history : History) (back : List (Option String)) :
    r.feed history (front ++ back) = r.feed history front := by
  induction front generalizing r history with
  | nil => simp at h
  | cons line front ih =>
    rw [List.cons_append, feed, feed]
    cases hstep : r.step history line with
    | stop error => rfl
    | next next output =>
      obtain ⟨ending, hmem, hends⟩ := h
      obtain rfl | hmem := List.mem_cons.1 hmem
      · rw [r.step_of_endsLoop hends] at hstep
        cases hstep
      · simp only [ih _ ⟨ending, hmem, hends⟩]

/-- Lines lead to the newest part of their log, with an error if a line without text ends them. -/
theorem feed_ofEntries (loaded : List Entry) (size : Nat) (lines : List (Option String)) :
    r.feed (.ofEntries loaded size) lines =
      (.ofEntries (logged loaded (stamped r.clock ((handledLines lines).map trimBlanks))) size,
        ⟨(r.feed (.ofEntries loaded size) ((handledLines lines).map some)).2.output,
          if endingLine? lines = some none then some .undecodable else none⟩) := by
  induction lines generalizing r loaded with
  | nil => simp [feed, handledLines, List.reduceOption, stamped, logged_nil, endingLine?]
  | cons line lines ih =>
    by_cases hends : EndsLoop line
    · have hending : endingLine? (line :: lines) = some line :=
        List.find?_cons_of_pos (by simpa using hends)
      rw [feed, r.step_of_endsLoop hends, handledLines_of_endsLoop hends, hending, List.map_nil,
        stamped, List.mapIdx_nil, logged_nil]
      simp [feed]
    · obtain ⟨text, rfl⟩ : ∃ text, line = some text :=
        Option.ne_none_iff_exists'.1 fun hnone => hends (hnone ▸ trivial)
      have hquit : ¬AsksToQuit text := hends
      have hending : endingLine? (some text :: lines) = endingLine? lines :=
        List.find?_cons_of_neg (by simpa using hends)
      obtain ⟨output, hstep⟩ := r.exists_step_eq_next hquit loaded size
      have hclock : r.clock.after 1 = (r.after 1).clock := rfl
      rw [handledLines_cons hquit, List.map_cons, stamped_cons, logged_cons, hending, List.map_cons,
        hclock]
      simp only [feed, hstep, ih]

/-- A run saves the newest entries of the log of its handled lines.  Nothing else shows in the
output or the file.  It fails exactly if there is a line without text and none in front of it asks
for the end. -/
theorem run_saves {size : Nat} (hsize : 1 ≤ size) {file : HistoryFile} {loaded : List Entry}
    (hfile : file.entries = .ok loaded) (input : List UInt8) :
    let outcome := r.run size file input
    let handled := handledLines (textLines input)
    let saved := (logged loaded (stamped r.clock (handled.map trimBlanks))).rtake size
    (file ≠ .unused → outcome.file = .present (Json.array (saved.map Entry.toJson)).toUTF8) ∧
    (∀ input', handledLines (textLines input') = handled →
      (r.run size file input').output = outcome.output ∧
        (r.run size file input').file = outcome.file) ∧
    (∀ front rest, input = front ++ 10 :: rest →
      (∃ line ∈ textLines (front ++ [10]), EndsLoop line) →
      r.run size file (front ++ [10]) = outcome) ∧
    (outcome.error = some .undecodable ↔
      ∃ before after, textLines input = before ++ none :: after ∧
        ∀ line ∈ before, ∀ text ∈ line, ¬AsksToQuit text) ∧
    (outcome.error ≠ none → outcome.error = some .undecodable) := by
  intro outcome handled saved
  have hload : file.load size = .ok (.ofEntries loaded size) := by
    rw [file.load_eq, hfile, map_ok]
  have hrun := fun input => r.run_eq_of_load hsize hload input
  have hsaved : (History.ofEntries (logged loaded (stamped r.clock (handled.map trimBlanks)))
      size).toJson = Json.array (saved.map Entry.toJson) := by
    rw [History.toJson, History.entries_ofEntries, max_eq_left hsize]
  have herror : outcome.error = if endingLine? (textLines input) = some none then
      some .undecodable else none := by
    rw [show outcome = _ from hrun input, r.feed_ofEntries]
    rfl
  refine ⟨fun hused => ?_, fun input' hhandled => ?_, ?_, ?_, ?_⟩
  · rw [show outcome = _ from hrun input, r.feed_ofEntries, ← hsaved]
    exact HistoryFile.save_of_ne_unused hused _
  · rw [show outcome = _ from hrun input, hrun, r.feed_ofEntries, r.feed_ofEntries loaded size
      (textLines input), hhandled]
    exact ⟨rfl, rfl⟩
  · rintro front rest rfl hends
    rw [show outcome = _ from hrun _, hrun, textLines_append front rest,
      r.feed_append_of_endsLoop hends]
  · rw [herror, ← endingLine?_eq_some_none_iff]
    simp
  · rw [herror]
    split_ifs <;> simp

def keptEntries : List Entry := [⟨"1+1", .ofBits 0x4000000000000000, 5⟩]

/-- Lines that clear the history, and then bytes that are no text. -/
def clearingInput : List UInt8 :=
  bytesOf "1/3\n:clear\n2*4\n4/0\n 5-6\r\n9\n" ++ [255, 10] ++ bytesOf "7\n"

def ticking : Repl := { plain with clock := fun i => .ofNat i }

/-- Of the three results behind the clearing, the newest two are saved. -/
theorem run_saves_after_clear :
    let outcome := ticking.run 2 (.present (Json.array (keptEntries.map Entry.toJson)).toUTF8)
      clearingInput
    outcome.file = .present (Json.array ([⟨"5-6", .ofBits 0xbff0000000000000, 4⟩,
      ⟨"9", .ofBits 0x4022000000000000, 5⟩].map Entry.toJson)).toUTF8 ∧
      outcome.error = some .undecodable := by
  have hkept : (HistoryFile.present (Json.array (keptEntries.map Entry.toJson)).toUTF8).entries =
      .ok keptEntries := by decide +kernel
  have hnewest : (logged keptEntries
      (stamped ticking.clock ((handledLines (textLines clearingInput)).map trimBlanks))).rtake 2 =
        [⟨"5-6", .ofBits 0xbff0000000000000, 4⟩, ⟨"9", .ofBits 0x4022000000000000, 5⟩] := by
    decide +kernel
  have hlines : textLines clearingInput = [some "1/3", some ":clear", some "2*4", some "4/0",
      some " 5-6", some "9"] ++ none :: [some "7"] := by decide +kernel
  obtain ⟨hfile, -, -, herror, -⟩ := ticking.run_saves (by decide : 1 ≤ 2) hkept clearingInput
  have hused : ∀ content, HistoryFile.present content ≠ .unused := nofun
  rw [hnewest] at hfile
  exact ⟨hfile (hused _), herror.2 ⟨_, _, hlines, by decide +kernel⟩⟩

end Repl

end FourFunction
