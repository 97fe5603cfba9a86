import FourFunction.Proofs.Failing
import FourFunction.Proofs.SessionRun
import Mathlib.Tactic

/-!
# Chaining

The equals key evaluates what was typed since the last answer, behind the answer's unrounded value.
What a session still knows of an answer, or of a failure, is the same after every run that ended
with it (`Session.Rests`).
-/

namespace FourFunction

namespace Session

/-- What the last change leaves of a session. -/
def Rests (s : Session) : Option Change → Prop
  | none | some .cleared => s.buffer = "" ∧ s.carry = none ∧ s.lastError = none
  | some (.typed _) => s.lastError = none
  | some (.answered _ value) =>
      s.buffer = value.resultText ∧ s.carry = some ⟨value, value.resultText.length⟩ ∧
        s.lastError = none
  | some (.failed _ e) => s.buffer = "" ∧ s.carry = none ∧ s.lastError = some e

/-! ### Single changes -/

theorem evaluate_fst (s : Session) : s.evaluate.1 = evaluateBuffer s.buffer s.carry := by
  unfold evaluate
  cases evaluateBuffer s.buffer s.carry <;> rfl

theorem rests_evaluate (s : Session) : s.evaluate.2.Rests s.evaluation := by
  unfold evaluation evaluate
  cases evaluateBuffer s.buffer s.carry with
  | ok value => exact ⟨rfl, rfl, rfl⟩
  | error e => exact ⟨rfl, rfl, rfl⟩

theorem lastError_append (s : Session) (c : Char) : (s.append c).lastError = none := by
  unfold append
  cases s.lastError <;> rfl

theorem lastError_appendDigit (s : Session) (c : Char) : (s.appendDigit c).lastError = none := by
  unfold appendDigit
  split
  · exact s.lastError_append c
  · exact s.lastError_append c

theorem lastError_press {s s' : Session} {key : Key} {c : Char} (hc : key.char? = some c)
    (hpress : s.press key = .ok s') : s'.lastError = none := by
  rcases press_typed hc hpress with ⟨-, rfl⟩ | ⟨op, -, rfl⟩
  · exact s.lastError_appendDigit c
  · exact s.lastError_append c

theorem rests_performAll (style : ErrorStyle) (ops : List Operation) :
    ((new style).performAll ops).Rests ((new style).changesOf ops).getLast? := by
  refine run_induction (P := fun s cs => s.Rests cs.getLast?) ?_ ?_ ?_ ?_ ⟨rfl, rfl, rfl⟩ ops
  · intro s cs key c s' _ hc hpress
    rw [List.getLast?_concat]
    exact lastError_press hc hpress
  · intro s cs _
    rw [List.getLast?_concat]
    exact s.rests_evaluate
  · intro s cs _
    rw [List.getLast?_concat]
    exact ⟨rfl, rfl, rfl⟩
  · intro s cs time h
    exact h

/-- Nothing is left of what was typed before a failure or a clearing. -/
theorem Rests.empty {s : Session} {last : Option Change} (h : s.Rests last)
    (hlast : ∀ change ∈ last, change = .cleared ∨ ∃ expression e, change = .failed expression e) :
    s.buffer = "" ∧ s.carry = none := by
  cases last with
  | none => exact ⟨h.1, h.2.1⟩
  | some change =>
    obtain rfl | ⟨expression, e, rfl⟩ := hlast change rfl
    · exact ⟨h.1, h.2.1⟩
    · exact ⟨h.1, h.2.1⟩

/-! ### Typing -/

/-- A refused key leaves the session as it is. -/
def pressAll (s : Session) (keys : List Key) : Session := s.performAll (keys.map .press)

def typedText (keys : List Key) : String := String.ofList (keys.filterMap Key.char?)

theorem head_typedText {keys : List Key} (hfirst : ∀ key ∈ keys.head?, ∃ op, key = .operator op) :
    ∀ c ∈ (typedText keys).toList.head?, ∃ op : Operator, c = op.symbol := by
  cases keys with
  | nil => simp [typedText]
  | cons key keys =>
    obtain ⟨op, rfl⟩ := hfirst key rfl
    simp [typedText, Key.char?]

/-- Whether what is typed next goes behind the buffer and leaves a carried number alone. -/
def TakesText (s : Session) : Prop :=
  s.lastError = none ∧ (∀ carry ∈ s.carry, carry.length < s.buffer.length) ∨
    s.buffer = "" ∧ s.carry = none

def Extends (s' s : Session) (c : Char) : Prop :=
  s'.lastError = none ∧ s'.buffer = s.buffer.push c ∧ s'.carry = s.carry

theorem extends_append {s : Session} (c : Char)
    (h : s.lastError = none ∨ s.buffer = "" ∧ s.carry = none) : (s.append c).Extends s c := by
  unfold append
  cases herror : s.lastError with
  | none => exact ⟨rfl, rfl, rfl⟩
  | some e =>
    obtain h | ⟨hbuffer, hcarry⟩ := h
    · rw [herror] at h
      cases h
    · exact ⟨rfl, by rw [hbuffer], hcarry.symm⟩

theorem TakesText.bufferIsCarry {s : Session} (h : s.TakesText) : s.bufferIsCarry = false := by
  unfold Session.bufferIsCarry
  obtain ⟨-, h⟩ | ⟨-, hnone⟩ := h
  · cases hcarry : s.carry with
    | none => rfl
    | some carry =>
      have hlt := h carry hcarry
      simp only [Option.any_some, beq_eq_false_iff_ne, ne_eq]
      omega
  · rw [hnone]
    rfl

theorem TakesText.extends_append {s : Session} (h : s.TakesText) (c : Char) :
    (s.append c).Extends s c :=
  Session.extends_append c (h.imp And.left id)

theorem TakesText.extends_appendDigit {s : Session} (h : s.TakesText) (c : Char) :
    (s.appendDigit c).Extends s c := by
  unfold appendDigit
  rw [h.bufferIsCarry]
  exact h.extends_append c

theorem Extends.takesText {s s' : Session} {c : Char} (h : s'.Extends s c)
    (hle : ∀ carry ∈ s.carry, carry.length ≤ s.buffer.length) : s'.TakesText := by
  obtain ⟨herror, hbuffer, hcarry⟩ := h
  refine .inl ⟨herror, fun carry hmem => ?_⟩
  rw [hcarry] at hmem
  have hcarryLe := hle carry hmem
  rw [hbuffer, String.length_push]
  omega

theorem TakesText.length_le {s : Session} (h : s.TakesText) :
    ∀ carry ∈ s.carry, carry.length ≤ s.buffer.length := by
  obtain ⟨-, h⟩ | ⟨-, hnone⟩ := h
  · exact fun carry hmem => (h carry hmem).le
  · simp [hnone]

theorem TakesText.perform_press {s : Session} (h : s.TakesText) {key : Key}
    (hkey : key ≠ .equals ∧ key ≠ .clear) :
    (s.perform (.press key)).TakesText ∧ (s.perform (.press key)).carry = s.carry ∧
      (s.perform (.press key)).buffer = s.buffer ++ String.ofList key.char?.toList := by
  have hextends : ∀ {s' : Session} {c : Char}, s'.Extends s c → s'.TakesText ∧
      s'.carry = s.carry ∧ s'.buffer = s.buffer ++ String.ofList [c] := fun h' =>
    ⟨h'.takesText h.length_le, h'.2.2, by rw [h'.2.1]; rfl⟩
  cases key with
  | digit d =>
    by_cases hd : d ≤ 9
    · simp only [perform, press, Key.char?, if_pos hd]
      exact hextends (h.extends_appendDigit _)
    · have hrefused : s.perform (.press (.digit d)) = s := by simp only [perform, press, if_neg hd]
      rw [hrefused, Key.char?, if_neg hd]
      exact ⟨h, rfl, by simp⟩
  | point => exact hextends (h.extends_appendDigit '.')
  | operator op => exact hextends (h.extends_append op.symbol)
  | equals => exact absurd rfl hkey.1
  | clear => exact absurd rfl hkey.2

/-- Keys that type add their characters to the buffer, and leave a carried number alone. -/
theorem TakesText.pressAll {s : Session} (h : s.TakesText) {keys : List Key}
    (hkeys : ∀ key ∈ keys, key ≠ .equals ∧ key ≠ .clear) :
    (s.pressAll keys).carry = s.carry ∧ (s.pressAll keys).buffer = s.buffer ++ typedText keys := by
  induction keys generalizing s with
  | nil => exact ⟨rfl, by simp [Session.pressAll, performAll, typedText]⟩
  | cons key keys ih =>
    obtain ⟨hkey, hrest⟩ := List.forall_mem_cons.1 hkeys
    obtain ⟨htakes, hcarry, hbuffer⟩ := h.perform_press hkey
    obtain ⟨ihcarry, ihbuffer⟩ := ih htakes hrest
    refine ⟨ihcarry.trans hcarry, ihbuffer.trans ?_⟩
    rw [hbuffer, String.append_assoc, typedText, typedText, ← String.ofList_append]
    congr 2
    rw [List.filterMap_cons]
    cases key.char? <;> rfl

/-! ### Evaluating what was typed -/

/-- The answer goes in unrounded, and objections count from the front of the display. -/
def continued (answer : Binary64) (text : String) : Except CalcError Binary64 :=
  ((tokenize text).mapError fun e => .lexical (e.shifted answer.resultText.length)) >>=
    fun tokens => FourFunction.evaluate (.number answer :: tokens)

theorem shown_of_evaluate_eq_ok {s : Session} {value : Binary64} (h : s.evaluate.1 = .ok value) :
    s.evaluate.2.buffer = value.resultText ∧ s.evaluate.2.display = value.resultText := by
  have hrests := s.rests_evaluate
  rw [evaluation, h] at hrests
  obtain ⟨hbuffer, -, herror⟩ := hrests
  refine ⟨hbuffer, ?_⟩
  rw [display, herror]
  exact hbuffer

/-- With nothing on the display, or an error, what is typed is evaluated by itself. -/
theorem evaluate_pressAll_of_empty {s : Session} (hbuffer : s.buffer = "") (hcarry : s.carry = none)
    {keys : List Key} (hkeys : ∀ key ∈ keys, key ≠ .equals ∧ key ≠ .clear) :
    (s.pressAll keys).evaluate.1 = evaluateText (typedText keys) := by
  have htakes : s.TakesText := .inr ⟨hbuffer, hcarry⟩
  obtain ⟨hcarry', hbuffer'⟩ := htakes.pressAll hkeys
  rw [evaluate_fst, hcarry', hbuffer', hcarry, hbuffer, String.empty_append]
  rfl

theorem evaluateBuffer_append (value : Binary64) (shown text : String) :
    evaluateBuffer (shown ++ text) (some ⟨value, shown.length⟩) =
      ((tokenize text).mapError fun e => .lexical (e.shifted shown.length)) >>=
        fun tokens => FourFunction.evaluate (.number value :: tokens) := by
  have hbehind : String.ofList ((shown ++ text).toList.drop shown.length) = text := by
    rw [String.toList_append, ← String.length_toList, List.drop_left, String.ofList_toList]
  simp only [evaluateBuffer, hbehind]

/-- Keys that type behind a whole buffer, an operator first, leave a carried number alone. -/
theorem pressAll_behind {s : Session} (herror : s.lastError = none)
    (hle : ∀ carry ∈ s.carry, carry.length ≤ s.buffer.length) {keys : List Key}
    (hkeys : ∀ key ∈ keys, key ≠ .equals ∧ key ≠ .clear)
    (hfirst : ∀ key ∈ keys.head?, ∃ op, key = .operator op) :
    (s.pressAll keys).carry = s.carry ∧ (s.pressAll keys).buffer = s.buffer ++ typedText keys := by
  cases keys with
  | nil => exact ⟨rfl, (String.append_empty).symm⟩
  | cons key keys =>
    -- The first operator puts text behind the number; from there on the general lemma applies.
    obtain ⟨op, rfl⟩ := hfirst key rfl
    have hextends := s.extends_append op.symbol (.inl herror)
    have htakes := hextends.takesText hle
    obtain ⟨hcarry, hbuffer⟩ := htakes.pressAll (List.forall_mem_cons.1 hkeys).2
    refine ⟨hcarry.trans hextends.2.2, hbuffer.trans ?_⟩
    rw [hextends.2.1, typedText, typedText, List.filterMap_cons]
    simp only [Key.char?]
    rw [← String.toList_inj]
    simp

/-- A session with an answer on the display continues with it, if an operator comes first. -/
theorem evaluate_pressAll_of_answered {s : Session} {value : Binary64}
    (hbuffer : s.buffer = value.resultText)
    (hcarry : s.carry = some ⟨value, value.resultText.length⟩) (herror : s.lastError = none)
    {keys : List Key} (hkeys : ∀ key ∈ keys, key ≠ .equals ∧ key ≠ .clear)
    (hfirst : ∀ key ∈ keys.head?, ∃ op, key = .operator op) :
    (s.pressAll keys).evaluate.1 = continued value (typedText keys) := by
  obtain ⟨hcarry', hbuffer'⟩ := pressAll_behind herror (by simp [hbuffer, hcarry]) hkeys hfirst
  rw [evaluate_fst, hcarry', hbuffer', hcarry, hbuffer, evaluateBuffer_append, continued]

/-- After every run, the equals key evaluates the keys typed since: behind the answer's unrounded
value if the last change was an answer and an operator comes first, and by themselves after a
failure or a clearing.  The display shows the result. -/
theorem evaluate_after_run (style : ErrorStyle) (ops : List Operation) (keys : List Key)
    (hkeys : ∀ key ∈ keys, key ≠ .equals ∧ key ≠ .clear) :
    let last := ((new style).changesOf ops).getLast?
    let pressed := ((new style).performAll ops).pressAll keys
    (∀ expression value, last = some (.answered expression value) →
      (∀ key ∈ keys.head?, ∃ op, key = .operator op) →
        pressed.evaluate.1 = continued value (typedText keys)) ∧
    ((∀ change ∈ last, change = .cleared ∨ ∃ expression e, change = .failed expression e) →
      pressed.evaluate.1 = evaluateText (typedText keys)) ∧
    ∀ result, pressed.evaluate.1 = .ok result →
      pressed.evaluate.2.buffer = result.resultText ∧
        pressed.evaluate.2.display = result.resultText := by
  intro last pressed
  have hrests : ((new style).performAll ops).Rests last := rests_performAll style ops
  refine ⟨fun expression value hlast hfirst => ?_, fun hlast => ?_, fun result => ?_⟩
  · rw [hlast] at hrests
    obtain ⟨hbuffer, hcarry, herror⟩ := hrests
    exact evaluate_pressAll_of_answered hbuffer hcarry herror hkeys hfirst
  · obtain ⟨hbuffer, hcarry⟩ := hrests.empty hlast
    exact evaluate_pressAll_of_empty hbuffer hcarry hkeys
  · exact shown_of_evaluate_eq_ok

def third : Binary64 := .finite false ⟨0x3FD5555555555555, by decide⟩

def one : Binary64 := .finite false ⟨0x3FF0000000000000, by decide⟩

/-- Three times the answer to `1/3` is exactly one, although the display shows less. -/
theorem evaluate_after_third :
    let ops : List Operation := [.press .equals, .pressText "1 / 3x", .evaluate]
    let pressed := ((new .brief).performAll ops).pressAll [.operator .mul, .digit 3]
    ((new .brief).performAll ops).display = "0.333333333333333" ∧
      pressed.evaluate.1 = continued third "*3" ∧ pressed.evaluate.1 = .ok one ∧
        pressed.evaluate.2.display = "1" := by
  intro ops pressed
  have hlast : ((new .brief).changesOf ops).getLast? = some (.answered "1/3" third) := by
    decide +kernel
  obtain ⟨hcontinued, -, hshown⟩ := evaluate_after_run .brief ops [.operator .mul, .digit 3]
    (by decide)
  have hvalue : continued third "*3" = .ok one := by decide +kernel
  have hpressed : pressed.evaluate.1 = continued third "*3" :=
    hcontinued "1/3" third hlast (by simp)
  refine ⟨by decide +kernel, hpressed, hpressed.trans hvalue, ?_⟩
  rw [(hshown one (hpressed.trans hvalue)).2]
  decide +kernel

end Session

end FourFunction
