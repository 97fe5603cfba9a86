import FourFunction.Proofs.Document
import FourFunction.Proofs.ShownObjections

/-!
# Refused keys

The keys of a text are handled up to the first character that is neither a blank nor a button, in
every session (`Session.pressText_refused`).  The command that presses keys tells everything else by
one line: keys type no line feed, and no message quotes one.
-/

namespace FourFunction

def IsButton (c : Char) : Prop :=
  c.isDigit = true ∨ c ∈ ['.', '+', '-', '*', '/', '=', 'C', 'c']

instance : DecidablePred IsButton := fun c =>
  inferInstanceAs (Decidable (c.isDigit = true ∨ c ∈ ['.', '+', '-', '*', '/', '=', 'C', 'c']))

def IsKeyText (keys : String) : Prop := ∀ c ∈ keys.toList, isBlank c = true ∨ IsButton c

instance : DecidablePred IsKeyText := fun keys =>
  inferInstanceAs (Decidable (∀ c ∈ keys.toList, isBlank c = true ∨ IsButton c))

theorem exists_front_of_not_isKeyText {keys : String} (h : ¬IsKeyText keys) :
    ∃ front c back, keys = front.push c ++ back ∧ IsKeyText front ∧ isBlank c = false ∧
      ¬IsButton c := by
  have hsome : (keys.toList.find? fun c => !isBlank c && !decide (IsButton c)).isSome = true := by
    simpa [IsKeyText] using h
  obtain ⟨c, hfind⟩ := Option.isSome_iff_exists.1 hsome
  obtain ⟨hc, front, back, hkeys, hfront⟩ := List.find?_eq_some_iff_append.1 hfind
  refine ⟨.ofList front, c, .ofList back, ?_, fun d hd => ?_, by simpa using hc⟩
  · rw [← String.toList_inj, hkeys]
    simp
  · rw [String.toList_ofList] at hd
    simpa [or_iff_not_imp_left] using hfront d hd

/-! ### Buttons -/

theorem Operator.exists_ofChar?_iff {c : Char} :
    (∃ op, ofChar? c = some op) ↔ c ∈ ['+', '-', '*', '/'] := by
  simp only [ofChar?_eq_some_iff]
  constructor
  · rintro ⟨op, rfl⟩
    cases op <;> decide
  · simp only [List.mem_cons, List.not_mem_nil, or_false]
    rintro (rfl | rfl | rfl | rfl)
    exacts [⟨.add, rfl⟩, ⟨.sub, rfl⟩, ⟨.mul, rfl⟩, ⟨.div, rfl⟩]

namespace Key

theorem exists_ofChar?_iff {c : Char} : (∃ key, ofChar? c = some key) ↔ IsButton c := by
  unfold ofChar? IsButton
  split_ifs with hdigit
  · simp [hdigit]
  · split
    -- the last case is that of the operators
    case h_5 =>
      have hoperator := Operator.exists_ofChar?_iff (c := c)
      simp only [List.mem_cons, List.not_mem_nil, or_false] at hoperator ⊢
      simp only [Option.map_eq_some_iff, exists_comm (α := Key), exists_eq_right', hoperator]
      tauto
    all_goals simp

theorem digit_le_of_ofChar? {c : Char} {d : UInt8} (h : ofChar? c = some (digit d)) : d ≤ 9 := by
  unfold ofChar? at h
  split_ifs at h with hdigit
  · obtain ⟨-, hhigh⟩ := Char.isDigit_iff_toNat.1 hdigit
    have hdistance : c.toNat - '0'.toNat ≤ 9 := Nat.sub_le_sub_right hhigh _
    obtain rfl := Key.digit.inj (Option.some.inj h)
    rw [UInt8.le_iff_toNat_le, Nat.toUInt8, UInt8.toNat_ofNat']
    exact (Nat.mod_le _ _).trans hdistance
  · split at h <;> simp at h

end Key

namespace Session

variable (s : Session)

/-! ### Keys of characters -/

/-- Only digit keys above nine are refused. -/
theorem exists_press_of_digit_le {key : Key} (h : ∀ d, key = .digit d → d ≤ 9) :
    ∃ s', s.press key = .ok s' := by
  cases key with
  | digit d => exact ⟨_, if_pos (h d rfl)⟩
  | point | operator op | equals | clear => exact ⟨_, rfl⟩

theorem press_of_nine_lt {d : UInt8} (h : 9 < d) :
    s.press (.digit d) = .error (.invalidDigit d) :=
  if_neg (UInt8.not_le.2 h)

theorem exists_pressChar_of_isButton {c : Char} (h : IsButton c) :
    ∃ s', s.pressChar c = .ok s' := by
  obtain ⟨key, hkey⟩ := Key.exists_ofChar?_iff.2 h
  rw [pressChar, hkey]
  refine s.exists_press_of_digit_le fun d hd => Key.digit_le_of_ofChar? (c := c) ?_
  rw [hkey, hd]

theorem pressChar_of_not_isButton {c : Char} (h : ¬IsButton c) :
    s.pressChar c = .error (.unsupported c) := by
  have hkey : Key.ofChar? c = none := by
    rw [Option.eq_none_iff_forall_ne_some]
    exact fun key hkey => h (Key.exists_ofChar?_iff.1 ⟨key, hkey⟩)
  rw [pressChar, hkey]

theorem pressChars_append {cs : List Char} (h : (s.pressChars cs).1 = none) (more : List Char) :
    s.pressChars (cs ++ more) = (s.pressChars cs).2.pressChars more := by
  induction cs generalizing s with
  | nil => rfl
  | cons c cs ih =>
    rw [List.cons_append, pressChars, pressChars]
    rw [pressChars] at h
    cases hpress : s.pressChar c with
    | ok s' =>
      rw [hpress] at h
      exact ih s' h
    | error e =>
      rw [hpress] at h
      cases h

theorem pressChars_of_isButton {cs : List Char} (h : ∀ c ∈ cs, IsButton c) :
    (s.pressChars cs).1 = none := by
  induction cs generalizing s with
  | nil => rfl
  | cons c cs ih =>
    obtain ⟨hc, hcs⟩ := List.forall_mem_cons.1 h
    obtain ⟨s', hpress⟩ := s.exists_pressChar_of_isButton hc
    rw [pressChars, hpress]
    exact ih s' hcs

theorem pressChars_cons_of_not_isButton {c : Char} (h : ¬IsButton c) (cs : List Char) :
    s.pressChars (c :: cs) = (some (.unsupported c), s) := by
  rw [pressChars, s.pressChar_of_not_isButton h]

/-! ### Keys of texts -/

/-- A text whose keys are accepted leads to a session that goes on with a text behind it. -/
theorem pressText_append {first : String} (h : (s.pressText first).1 = none) (second : String) :
    s.pressText (first ++ second) = (s.pressText first).2.pressText second := by
  rw [pressText, String.toList_append, List.filter_append]
  exact s.pressChars_append h _

theorem pressText_blanks {blanks : String} (h : ∀ c ∈ blanks.toList, isBlank c = true)
    (front back : String) :
    s.pressText (front ++ blanks ++ back) = s.pressText (front ++ back) := by
  have hnone : blanks.toList.filter (fun c => !isBlank c) = [] := by simpa using h
  simp only [pressText, String.toList_append, List.filter_append, hnone, List.append_nil]

theorem pressText_of_isKeyText {keys : String} (h : IsKeyText keys) :
    (s.pressText keys).1 = none := by
  refine s.pressChars_of_isButton fun c hc => ?_
  obtain ⟨hmem, hblank⟩ := List.mem_filter.1 hc
  exact (h c hmem).resolve_left (by simpa using hblank)

/-- What stands in front of the first refused character has been handled, and nothing else. -/
theorem pressText_refused {front : String} (hfront : IsKeyText front) {c : Char}
    (hblank : isBlank c = false) (hc : ¬IsButton c) (back : String) :
    s.pressText (front.push c ++ back) = (some (.unsupported c), (s.pressText front).2) := by
  have haccepted := s.pressText_of_isKeyText hfront
  rw [String.push_eq_append, String.append_assoc, s.pressText_append haccepted, pressText]
  simp only [String.toList_append, String.toList_singleton, List.singleton_append, List.filter_cons,
    hblank, Bool.not_false, ↓reduceIte]
  exact pressChars_cons_of_not_isButton _ hc _

theorem exists_pressText_refused {keys : String} (h : ¬IsKeyText keys) :
    ∃ front c back, keys = front.push c ++ back ∧ IsKeyText front ∧ isBlank c = false ∧
      ¬IsButton c ∧ s.pressText keys = (some (.unsupported c), (s.pressText front).2) := by
  obtain ⟨front, c, back, rfl, hfront, hblank, hc⟩ := exists_front_of_not_isKeyText h
  exact ⟨front, c, back, rfl, hfront, hblank, hc, s.pressText_refused hfront hblank hc back⟩

theorem pressText_eq_none_iff {keys : String} : (s.pressText keys).1 = none ↔ IsKeyText keys := by
  refine ⟨fun hnone => ?_, s.pressText_of_isKeyText⟩
  by_contra hkeys
  obtain ⟨front, c, back, -, -, -, -, hpressed⟩ := s.exists_pressText_refused hkeys
  rw [hpressed] at hnone
  cases hnone

/-! ### Displays -/

/-- The message of a failure has no line feed, as the buffer that failed has no blanks. -/
theorem newline_notMem_message_of_evaluate {s : Session}
    (hblank : ∀ c ∈ s.buffer.toList, isBlank c = false) {e : CalcError}
    (he : s.evaluate.1 = .error e) : '\n' ∉ e.message.toList := by
  refine CalcError.newline_notMem_message fun lex hlex => ?_
  rw [hlex] at he
  exact hblank lex.char (List.mem_of_getElem? (getElem?_of_lexical he))

theorem lastError_evaluate_eq_some {s : Session} {e : CalcError}
    (h : s.evaluate.2.lastError = some e) : s.evaluate.1 = .error e := by
  have hrests := s.rests_evaluate
  rw [evaluation] at hrests
  cases hvalue : s.evaluate.1 with
  | ok value =>
    obtain ⟨-, -, hnone⟩ := hvalue ▸ hrests
    rw [hnone] at h
    cases h
  | error e' =>
    obtain ⟨-, -, hsome⟩ := hvalue ▸ hrests
    rw [← Option.some.inj (hsome.symm.trans h)]

/-- After every run the error that is shown, if there is one, has a message on one line. -/
theorem newline_notMem_message_of_lastError (style : ErrorStyle) (ops : List Operation) :
    ∀ e, ((new style).performAll ops).lastError = some e → '\n' ∉ e.message.toList := by
  -- the buffer that failed is gone by then, so where it came from goes along the run
  suffices h : ((new style).performAll ops).Origin ((new style).changesOf ops) ∧
      ∀ e, ((new style).performAll ops).lastError = some e → '\n' ∉ e.message.toList from h.2
  refine run_induction (P := fun s cs => s.Origin cs ∧
    ∀ e, s.lastError = some e → '\n' ∉ e.message.toList) ?_ ?_ ?_ ?_ ?_ ops
  · rintro s cs key c s' ⟨horigin, -⟩ hc hpress
    refine ⟨horigin.typed hc hpress, fun e he => ?_⟩
    rw [lastError_press hc hpress] at he
    cases he
  · rintro s cs ⟨horigin, -⟩
    exact ⟨s.origin_evaluate cs, fun e he =>
      newline_notMem_message_of_evaluate horigin.isBlank_of_mem (lastError_evaluate_eq_some he)⟩
  · intro s cs _
    exact ⟨.scratch rfl (by simp [Session.clear]), by simp [Session.clear]⟩
  · rintro s cs time ⟨horigin, hmessage⟩
    exact ⟨horigin.wait time, hmessage⟩
  · exact ⟨.scratch rfl (by simp [new]), by simp [new]⟩

theorem newline_notMem_display (style : ErrorStyle) (ops : List Operation) :
    '\n' ∉ ((new style).performAll ops).display.toList := by
  have horigin := origin_performAll style ops
  have hmessage := newline_notMem_message_of_lastError style ops
  unfold display
  split
  · decide
  · next e herror _ => exact hmessage e herror
  · intro hmem
    exact absurd (horigin.isBlank_of_mem _ hmem) (by decide)

end Session

/-! ### What the command tells -/

namespace Json

variable {α : Type}

def readNullable (reader : Reader α) : Reader (Option α) := fun s =>
  match skipGap s with
  | 'n' :: _ => (readNull s).map fun (_, rest) => (none, rest)
  | s => (reader s).map fun (a, rest) => (some a, rest)

theorem readNullable_null (reader : Reader α) (rest : List Char) :
    readNullable reader ("null".toList ++ rest) = .ok (none, rest) := by
  have hskip : skipGap ("null".toList ++ rest) = "null".toList ++ rest := skipGap_cons (by decide) _
  have hword : word ['u', 'l', 'l'] ('u' :: 'l' :: 'l' :: rest) = .ok rest := rfl
  simp only [readNullable, readNull, hskip]
  simp [hword]

theorem readNullable_quote (text : String) (rest : List Char) :
    readNullable readString ((quote text).toList ++ rest) = .ok (some text, rest) := by
  have hread := readString_quote text rest
  rw [toList_quote_append] at hread ⊢
  have hskip := skipGap_cons (c := '"') (by decide) (text.toList.flatMap escape ++ '"' :: rest)
  rw [readNullable, hskip]
  split
  · next hnull => exact absurd (List.cons.inj hnull).1 (by decide)
  · rw [hread, map_ok]

end Json

open Json

/-- Any of the members of a document may be missing. -/
structure Readout where
  display : Option String
  /-- The kind of the failure that is shown, if there is one. -/
  error : Option (Option String)
  keys : Option String
deriving DecidableEq

namespace Readout

def empty : Readout := ⟨none, none, none⟩

def fields : List (Json.Field Readout) :=
  [.slot "display" display (fun r x => { r with display := some x }) readString,
    .slot "error" error (fun r x => { r with error := some x }) (readNullable readString),
    .slot "keys" keys (fun r x => { r with keys := some x }) readString]

/-- A document is an object with any of the members, or an array of all. -/
def read : Reader Readout := readRecord fields empty some

end Readout

namespace Printer

variable {p : Printer} (keys : String) (s : Session)

def errorMember (s : Session) : String := (s.lastError.map fun e => quote e.kind).getD "null"

theorem display_json (hjson : p.format = .json) :
    p.display keys s =
      object [("display", quote s.display), ("error", errorMember s), ("keys", quote keys)] := by
  rw [display, hjson, errorMember]
  cases s.lastError <;> rfl

theorem controlFree_display (hjson : p.format = .json) :
    ControlFree (p.display keys s).toList := by
  have herror : ControlFree (errorMember s).toList := by
    rw [errorMember]
    cases s.lastError with
    | none => exact (by decide : ControlFree "null".toList)
    | some e => exact controlFree_quote e.kind
  rw [display_json keys s hjson]
  refine controlFree_object ?_
  simp only [List.forall_mem_cons, List.not_mem_nil, false_implies, implies_true, and_true]
  exact ⟨controlFree_quote _, herror, controlFree_quote _⟩

theorem parse_display (hjson : p.format = .json) :
    parse Readout.read (p.display keys s) =
      .ok ⟨some s.display, some (s.lastError.map CalcError.kind), some keys⟩ := by
  have hfills : Fills Readout.fields .empty
      [("display", quote s.display), ("error", errorMember s), ("keys", quote keys)]
      ⟨some s.display, some (s.lastError.map CalcError.kind), some keys⟩ := by
    refine .slot rfl rfl (fun rest _ => readString_quote _ rest) ?_
    refine .slot rfl rfl (b := s.lastError.map CalcError.kind) (fun rest _ => ?_) ?_
    · rw [errorMember]
      cases s.lastError with
      | none => exact readNullable_null _ rest
      | some e => exact readNullable_quote e.kind rest
    · exact .slot rfl rfl (fun rest _ => readString_quote _ rest) (.nil _)
  rw [display_json keys s hjson]
  exact (parse_text_line fun rest _ => hfills.readRecord_eq rfl rest).1

theorem newline_notMem_display (hdisplay : '\n' ∉ s.display.toList) :
    '\n' ∉ (p.display keys s).toList := by
  cases hformat : p.format with
  | json => exact (controlFree_display keys s hformat).newline_notMem
  | text =>
    rw [display, hformat]
    dsimp only
    split_ifs
    · simp [red, controlSequence, hdisplay]
    · exact hdisplay

end Printer

namespace Command

variable {style : ErrorStyle} {keys : String} (p : Printer)

theorem keys_of_refused {e : KeyError} (h : ((Session.new style).pressText keys).1 = some e) :
    Command.keys p style keys = .failure (.key e) := by
  rw [Command.keys]
  generalize (Session.new style).pressText keys = pressed at h
  obtain ⟨refusal, s⟩ := pressed
  cases h
  rfl

theorem keys_of_accepted (h : ((Session.new style).pressText keys).1 = none) :
    Command.keys p style keys = .line (p.display keys ((Session.new style).pressText keys).2) := by
  rw [Command.keys]
  generalize (Session.new style).pressText keys = pressed at h
  obtain ⟨refusal, s⟩ := pressed
  cases h
  rfl

end Command

namespace Session

/-- A text fails exactly at its first character that is neither a blank nor a button, and the keys
in front of it count.  The command then writes nothing; otherwise it succeeds with one line, which
shows the display. -/
theorem keys_up_to_refused (s : Session) :
    (∀ keys, ((s.pressText keys).1 ≠ none ↔
      ∃ c ∈ keys.toList, isBlank c = false ∧ ¬IsButton c)) ∧
    (∀ keys e, (s.pressText keys).1 = some e → ∃ front c back,
      keys = front.push c ++ back ∧ IsKeyText front ∧ isBlank c = false ∧ ¬IsButton c ∧
      e = .unsupported c ∧ (s.pressText front).1 = none ∧
      (s.pressText keys).2 = (s.pressText front).2) ∧
    (∀ first second, (s.pressText first).1 = none →
      s.pressText (first ++ second) = (s.pressText first).2.pressText second) ∧
    (∀ front blanks back, (∀ c ∈ blanks.toList, isBlank c = true) →
      s.pressText (front ++ blanks ++ back) = s.pressText (front ++ back)) ∧
    (∀ d : UInt8, 9 < d → s.press (.digit d) = .error (.invalidDigit d) ∧
      s.perform (.press (.digit d)) = s) ∧
    ∀ (p : Printer) style keys,
      let pressed := (new style).pressText keys
      (∀ e, pressed.1 = some e → Command.keys p style keys = ⟨"", some (.key e)⟩) ∧
      (pressed.1 = none → ∃ line, Command.keys p style keys = ⟨line.push '\n', none⟩ ∧
        '\n' ∉ line.toList ∧
        (p.format = .json → parse Readout.read line =
          .ok ⟨some pressed.2.display, some (pressed.2.lastError.map CalcError.kind), some keys⟩) ∧
        (p.format = .text → p.colored = false → line = pressed.2.display)) := by
  refine ⟨fun keys => ?_, fun keys e he => ?_, fun first second h => s.pressText_append h second,
    fun front blanks back h => s.pressText_blanks h front back, fun d hd => ?_,
    fun p style keys => ?_⟩
  · rw [Ne, s.pressText_eq_none_iff]
    simp [IsKeyText]
  · have hkeys : ¬IsKeyText keys := by
      rw [← s.pressText_eq_none_iff, he]
      exact Option.some_ne_none e
    obtain ⟨front, c, back, hsplit, hfront, hblank, hc, hpressed⟩ :=
      s.exists_pressText_refused hkeys
    rw [hpressed] at he ⊢
    exact ⟨front, c, back, hsplit, hfront, hblank, hc, (Option.some.inj he).symm,
      s.pressText_of_isKeyText hfront, rfl⟩
  · have hpress := s.press_of_nine_lt hd
    refine ⟨hpress, ?_⟩
    rw [perform, hpress]
  · intro pressed
    refine ⟨fun e he => Command.keys_of_refused p he, fun hnone => ⟨p.display keys pressed.2,
      Command.keys_of_accepted p hnone, ?_, fun hjson => Printer.parse_display keys _ hjson, ?_⟩⟩
    · have hdisplay := newline_notMem_display style [.pressText keys]
      exact Printer.newline_notMem_display keys _ hdisplay
    · intro htext hplain
      rw [Printer.display, htext, hplain]
      rfl

/-- A letter is refused after a division by zero, which the display goes on showing. -/
theorem keys_up_to_letter :
    let s := ((new .brief).pressText "1/0 =").2
    s.pressText " x3" = (some (.unsupported 'x'), s) ∧ s.display = "Error" ∧
    s.press (.digit 10) = .error (.invalidDigit 10) ∧ s.perform (.press (.digit 10)) = s ∧
    Command.keys ⟨.json, false⟩ .brief "1/0 = x3" = ⟨"", some (.key (.unsupported 'x'))⟩ ∧
    ∃ line, Command.keys ⟨.json, false⟩ .brief "1/0 =" = ⟨line.push '\n', none⟩ ∧
      '\n' ∉ line.toList ∧
      parse Readout.read line =
        .ok ⟨some "Error", some (some "division_by_zero"), some "1/0 ="⟩ := by
  intro s
  have haccepted : ((new .brief).pressText "1/0 =").1 = none := by decide +kernel
  have hletter : s.pressText " x3" = (some (.unsupported 'x'), s) := by decide +kernel
  have hdisplay : s.display = "Error" := by decide +kernel
  have hkind : s.lastError.map CalcError.kind = some "division_by_zero" := by decide +kernel
  obtain ⟨-, -, hconcat, -, -, hcommand⟩ := keys_up_to_refused (new .brief)
  obtain ⟨-, -, -, -, hdigit, -⟩ := keys_up_to_refused s
  obtain ⟨hpress, hkept⟩ := hdigit 10 (by decide)
  have hrefused : ((new .brief).pressText "1/0 = x3").1 = some (.unsupported 'x') :=
    congrArg Prod.fst ((hconcat "1/0 =" " x3" haccepted).trans hletter)
  obtain ⟨line, hline, hnewline, hdocument, -⟩ :=
    (hcommand ⟨.json, false⟩ .brief "1/0 =").2 haccepted
  refine ⟨hletter, hdisplay, hpress, hkept, (hcommand _ _ _).1 _ hrefused, line, hline, hnewline,
    ?_⟩
  rw [hdocument rfl, ← hdisplay, ← hkind]

end Session

end FourFunction
