import FourFunction.Proofs.SessionState
import FourFunction.Proofs.TypedNumeral

/-!
# Digits typed onto an answer

The session reads the text of an answer again after each digit or point that is typed onto it, until
it is no finite number (`Session.HoldsTyped.pressAll`).  Such a text is never evaluated as something
else (`Session.evaluate_digits_onto_answer`).
-/

namespace FourFunction

def Key.startsNumber (key : Key) : Bool := key.char?.any FourFunction.startsNumber

theorem Key.startsNumber_eq_true_iff {key : Key} :
    key.startsNumber = true ↔ ∃ c, key.char? = some c ∧ FourFunction.startsNumber c = true := by
  rw [startsNumber, Option.any_eq_true]

namespace Session

/-- The whole text of an answer and what was typed onto it is carried if it reads as a finite
number. -/
structure HoldsTyped (s : Session) (answer : Binary64) (typed : List Char) : Prop where
  isFinite_answer : answer.isFinite = true
  typed_ne_nil : typed ≠ []
  startsNumber_of_mem : ∀ c ∈ typed, startsNumber c = true
  lastError_eq : s.lastError = none
  buffer_eq : s.buffer = answer.resultText ++ String.ofList typed
  carry_eq : s.carry = s.carryBuffer.carry

/-! ### Single keys -/

theorem perform_press_of_startsNumber (s : Session) {key : Key} {c : Char}
    (hc : key.char? = some c) (hstart : startsNumber c = true) :
    s.perform (.press key) = s.appendDigit c := by
  have hchange : s.keyChange? key = some (.typed c) := by
    cases key with
    | digit d | point | operator op => exact congrArg (Option.map Change.typed) hc
    | equals | clear => cases hc
  obtain ⟨s', hs'⟩ := exists_press_eq_ok_iff.2 ⟨_, hchange⟩
  rw [perform, hs']
  rcases press_typed hc hs' with ⟨-, rfl⟩ | ⟨op, rfl, -⟩
  · rfl
  · cases op <;> cases hstart

theorem buffer_append {s : Session} (h : s.lastError = none) (c : Char) :
    (s.append c).buffer = s.buffer ++ String.ofList [c] := by
  rw [append, h]
  rfl

theorem carry_append {s : Session} (h : s.lastError = none) (c : Char) :
    (s.append c).carry = s.carry := by
  rw [append, h]

theorem carry_carryBuffer_eq_none_iff {s : Session} :
    s.carryBuffer.carry = none ↔ ¬ReadsFinite s.buffer.toList := by
  rw [Option.eq_none_iff_forall_ne_some, ReadsFinite, String.ofList_toList]
  constructor
  · rintro h ⟨x, hx, hfinite⟩
    exact h _ (carry_carryBuffer_eq_some_iff.2 ⟨x, hx, hfinite, rfl⟩)
  · rintro h carry hcarry
    obtain ⟨x, hx, hfinite, -⟩ := carry_carryBuffer_eq_some_iff.1 hcarry
    exact h ⟨x, hx, hfinite⟩

section

variable {s : Session} {answer : Binary64} {typed : List Char} {c : Char}

theorem holdsTyped_of_answer (hanswer : answer.isFinite = true)
    (hbuffer : s.buffer = answer.resultText)
    (hcarry : s.carry = some ⟨answer, answer.resultText.length⟩) (herror : s.lastError = none)
    (hc : startsNumber c = true) : (s.appendDigit c).HoldsTyped answer [c] := by
  have hwhole : s.bufferIsCarry = true := by simp [bufferIsCarry, hcarry, hbuffer]
  rw [appendDigit, if_pos hwhole]
  refine ⟨hanswer, by simp, by simpa using hc, s.lastError_append c, ?_, rfl⟩
  rw [← hbuffer]
  exact buffer_append herror c

namespace HoldsTyped

theorem toList_buffer (h : s.HoldsTyped answer typed) :
    s.buffer.toList = answer.resultText.toList ++ typed := by
  rw [h.buffer_eq, String.toList_append, String.toList_ofList]

theorem length_eq (h : s.HoldsTyped answer typed) :
    ∀ carry ∈ s.carry, s.buffer.length = carry.length := by
  intro carry hcarry
  obtain ⟨x, -, -, rfl⟩ := carry_carryBuffer_eq_some_iff.1 (h.carry_eq.symm.trans hcarry)
  rfl

theorem bufferIsCarry (h : s.HoldsTyped answer typed) : s.bufferIsCarry = s.carry.isSome := by
  rw [Session.bufferIsCarry]
  cases hcarry : s.carry with
  | none => rfl
  | some carry => exact beq_iff_eq.2 (h.length_eq carry hcarry)

/-- A text that has stopped to read as a number does not read as one again. -/
theorem appendDigit (h : s.HoldsTyped answer typed) (hc : startsNumber c = true) :
    (s.appendDigit c).HoldsTyped answer (typed ++ [c]) := by
  have hmem : ∀ c' ∈ typed ++ [c], startsNumber c' = true :=
    List.forall_mem_append.2 ⟨h.startsNumber_of_mem, List.forall_mem_singleton.2 hc⟩
  have hbuffer : (s.append c).buffer = answer.resultText ++ String.ofList (typed ++ [c]) := by
    rw [buffer_append h.lastError_eq, h.buffer_eq, String.ofList_append, String.append_assoc]
  have hafter : (s.append c).lastError = none := s.lastError_append c
  rw [Session.appendDigit, h.bufferIsCarry]
  cases hcarry : s.carry with
  | some carry => exact ⟨h.isFinite_answer, by simp, hmem, hafter, hbuffer, rfl⟩
  | none =>
    refine ⟨h.isFinite_answer, by simp, hmem, hafter, hbuffer, ?_⟩
    have hshort : ¬ReadsFinite s.buffer.toList :=
      carry_carryBuffer_eq_none_iff.1 (h.carry_eq.symm.trans hcarry)
    have hlong : ¬ReadsFinite (s.append c).buffer.toList := by
      rw [h.toList_buffer] at hshort
      rw [hbuffer, String.toList_append, String.toList_ofList]
      exact fun hread =>
        hshort (readsFinite_of_resultText_append h.isFinite_answer h.typed_ne_nil hmem hread)
    exact (carry_append h.lastError_eq c).trans
      (hcarry.trans (carry_carryBuffer_eq_none_iff.2 hlong).symm)

theorem pressAll (h : s.HoldsTyped answer typed) {digits : List Key}
    (hdigits : ∀ key ∈ digits, key.startsNumber = true) :
    (s.pressAll digits).HoldsTyped answer (typed ++ digits.filterMap Key.char?) := by
  induction digits generalizing s typed with
  | nil => simpa [Session.pressAll, performAll] using h
  | cons key digits ih =>
    obtain ⟨hkey, hrest⟩ := List.forall_mem_cons.1 hdigits
    obtain ⟨c, hc, hstart⟩ := Key.startsNumber_eq_true_iff.1 hkey
    have hstep := h.appendDigit hstart
    rw [← s.perform_press_of_startsNumber hc hstart] at hstep
    rw [List.filterMap_cons_some hc, List.append_cons]
    exact ih hstep hrest

end HoldsTyped

theorem holdsTyped_pressAll (hanswer : answer.isFinite = true)
    (hbuffer : s.buffer = answer.resultText)
    (hcarry : s.carry = some ⟨answer, answer.resultText.length⟩) (herror : s.lastError = none)
    {digits : List Key} (hne : digits ≠ []) (hdigits : ∀ key ∈ digits, key.startsNumber = true) :
    (s.pressAll digits).HoldsTyped answer (digits.filterMap Key.char?) := by
  obtain ⟨key, digits, rfl⟩ := List.exists_cons_of_ne_nil hne
  obtain ⟨hkey, hrest⟩ := List.forall_mem_cons.1 hdigits
  obtain ⟨c, hc, hstart⟩ := Key.startsNumber_eq_true_iff.1 hkey
  have hfirst := holdsTyped_of_answer hanswer hbuffer hcarry herror hstart
  rw [← s.perform_press_of_startsNumber hc hstart] at hfirst
  rw [List.filterMap_cons_some hc]
  exact hfirst.pressAll hrest

end

/-! ### Evaluating -/

theorem pressAll_append (s : Session) (keys more : List Key) :
    s.pressAll (keys ++ more) = (s.pressAll keys).pressAll more := by
  rw [pressAll, List.map_append, performAll, List.foldl_append]
  rfl

namespace HoldsTyped

variable {s : Session} {answer : Binary64} {typed : List Char} (h : s.HoldsTyped answer typed)
  {keys : List Key} (hkeys : ∀ key ∈ keys, key ≠ .equals ∧ key ≠ .clear)
  (hfirst : ∀ key ∈ keys.head?, ∃ op, key = .operator op)

include h hkeys hfirst

theorem pressAll_behind :
    (s.pressAll keys).carry = s.carry ∧ (s.pressAll keys).buffer = s.buffer ++ typedText keys :=
  Session.pressAll_behind h.lastError_eq (fun carry hcarry => (h.length_eq carry hcarry).ge) hkeys
    hfirst

/-- Further keys continue with the number that the whole text reads as. -/
theorem evaluate_of_reads {w : Binary64} (hread : Binary64.ofText? s.buffer = some w)
    (hw : w.isFinite = true) :
    (s.pressAll keys).evaluate.1 =
      ((tokenize (typedText keys)).mapError fun e => .lexical (e.shifted s.buffer.length)) >>=
        fun tokens => FourFunction.evaluate (.number w :: tokens) := by
  obtain ⟨hcarry, hbuffer⟩ := h.pressAll_behind hkeys hfirst
  have hwhole : s.carry = some ⟨w, s.buffer.length⟩ :=
    h.carry_eq.trans (carry_carryBuffer_eq_some_iff.2 ⟨w, hread, hw, rfl⟩)
  rw [evaluate_fst, hcarry, hbuffer, hwhole, evaluateBuffer_append]

/-- The scanner objects to a text that reads as no finite number, whatever the further keys are. -/
theorem evaluate_of_not_reads (hread : ¬ReadsFinite s.buffer.toList) :
    ∃ e, (s.pressAll keys).evaluate.1 = .error (.lexical e) := by
  obtain ⟨hcarry, hbuffer⟩ := h.pressAll_behind hkeys hfirst
  have hnone : s.carry = none := h.carry_eq.trans (carry_carryBuffer_eq_none_iff.2 hread)
  rw [evaluate_fst, hcarry, hbuffer, hnone, evaluateBuffer, evaluateText]
  cases htokens : tokenize (s.buffer ++ typedText keys) with
  | error e => exact ⟨e, rfl⟩
  | ok tokens =>
    -- tokens of the whole would include tokens of the unreadable text
    rw [tokenize_append_of_operator s.buffer (head_typedText hfirst), bind_eq_ok_iff] at htokens
    obtain ⟨front, hfront, -⟩ := htokens
    rw [h.buffer_eq] at hfront
    rw [h.toList_buffer] at hread
    exact absurd (readsFinite_of_tokenize_resultText h.isFinite_answer h.startsNumber_of_mem hfront)
      hread

end HoldsTyped

/-- Digits and points typed onto an answer, and further keys behind them, an operator first: these
continue with the number that the text and the digits read as; if there is none, the scanner
objects. -/
theorem evaluate_digits_onto_answer (style : ErrorStyle) (ops : List Operation)
    {expression : String} {answer : Binary64}
    (hlast : ((new style).changesOf ops).getLast? = some (.answered expression answer))
    {digits : List Key} (hne : digits ≠ []) (hdigits : ∀ key ∈ digits, key.startsNumber = true)
    {keys : List Key} (hkeys : ∀ key ∈ keys, key ≠ .equals ∧ key ≠ .clear)
    (hfirst : ∀ key ∈ keys.head?, ∃ op, key = .operator op) :
    let s := (new style).performAll ops
    let literal := answer.resultText ++ typedText digits
    let pressed := s.pressAll (digits ++ keys)
    s.display = answer.resultText ∧ pressed.buffer = literal ++ typedText keys ∧
    (∀ w, Binary64.ofText? literal = some w → w.isFinite = true →
      pressed.evaluate.1 =
        ((tokenize (typedText keys)).mapError fun e => .lexical (e.shifted literal.length)) >>=
          fun tokens => FourFunction.evaluate (.number w :: tokens)) ∧
    ((¬∃ w, Binary64.ofText? literal = some w ∧ w.isFinite = true) →
      ∃ e, pressed.evaluate.1 = .error (.lexical e)) := by
  intro s literal pressed
  have hrests : s.Rests _ := rests_performAll style ops
  rw [hlast] at hrests
  obtain ⟨hbuffer, hcarry, herror⟩ := hrests
  have hanswer : answer.isFinite = true := by
    obtain ⟨shown, behind, -, hfronts⟩ := (coherent_performAll style ops).fronts _ hcarry
    exact hfronts.isFinite_value
  have hholds := holdsTyped_pressAll hanswer hbuffer hcarry herror hne hdigits
  have hliteral : (s.pressAll digits).buffer = literal := hholds.buffer_eq
  have hpressed : pressed = (s.pressAll digits).pressAll keys := s.pressAll_append digits keys
  rw [← hliteral, hpressed]
  refine ⟨?_, (hholds.pressAll_behind hkeys hfirst).2,
    fun w hw hfinite => hholds.evaluate_of_reads hkeys hfirst hw hfinite,
    fun hread => hholds.evaluate_of_not_reads hkeys hfirst ?_⟩
  · rw [display, herror, hbuffer]
  · rwa [ReadsFinite, String.ofList_toList]

/-- The answer `-1` goes on as `-15`; to a second point, as in `-1.5.`, the scanner objects. -/
theorem evaluate_digits_onto_minusOne :
    let s := (new .brief).performAll [.pressText "2-3="]
    let double : List Key := [.operator .mul, .digit 2]
    s.display = "-1" ∧
      (s.pressAll ([.digit 5] ++ double)).evaluate.1 = .ok (.ofBits 0xC03E000000000000) ∧
      ∃ e, (s.pressAll ([.point, .digit 5, .point] ++ double)).evaluate.1 =
        .error (.lexical e) := by
  intro s double
  have hlast : ((new .brief).changesOf [.pressText "2-3="]).getLast? =
      some (.answered "2-3" (.ofBits 0xBFF0000000000000)) := by decide +kernel
  have hfive : ∀ key ∈ [Key.digit 5], key.startsNumber = true := by decide
  have hpoints : ∀ key ∈ [Key.point, .digit 5, .point], key.startsNumber = true := by decide
  have hdouble : ∀ key ∈ double, key ≠ .equals ∧ key ≠ .clear := by decide
  obtain ⟨hdisplay, -, hreads, -⟩ := evaluate_digits_onto_answer .brief _ hlast (by decide) hfive
    hdouble (by simp [double])
  obtain ⟨-, -, -, hobjects⟩ := evaluate_digits_onto_answer .brief _ hlast (by decide) hpoints
    hdouble (by simp [double])
  refine ⟨hdisplay.trans (by decide +kernel), ?_, hobjects ?_⟩
  · rw [hreads (.ofBits 0xC02E000000000000) (by decide +kernel) (by decide +kernel)]
    decide +kernel
  · have hnone : Binary64.ofText? ((Binary64.ofBits 0xBFF0000000000000).resultText ++
        typedText [.point, .digit 5, .point]) = none := by decide +kernel
    simp [hnone]

end Session

end FourFunction
