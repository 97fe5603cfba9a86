import FourFunction.Proofs.FiniteResults
import FourFunction.Proofs.OneLine

/-!
# Documents of answers

In JSON the answer to an expression is a document.  `Document.read` knows the names of its members
and nothing of how they are written, and takes back what was computed (`Command.eval_document`).
-/

namespace FourFunction

open Json

/-! ### Reading a document -/

namespace Json

variable {σ β : Type}

/-- A field that fills one slot. -/
def Field.slot (name : String) (get : σ → Option β) (set : σ → β → σ) (reader : Reader β) :
    Field σ :=
  ⟨name, fun slots => (get slots).isSome, fun slots s =>
    (reader s).map fun (b, rest) => (set slots b, rest)⟩

theorem Fills.slot {fields : List (Field σ)} {name value : String} {get : σ → Option β}
    {set : σ → β → σ} {reader : Reader β} {slots last : σ} {members : List (String × String)}
    {b : β} (hfield : fields.find? (·.name == name) = some (.slot name get set reader))
    (hget : get slots = none)
    (hread : ∀ rest, Ends rest → reader (value.toList ++ rest) = .ok (b, rest))
    (hbehind : Fills fields (set slots b) members last) :
    Fills fields slots ((name, value) :: members) last := by
  refine .cons hfield ?_ (fun rest hrest => ?_) hbehind
  · simp only [Field.slot, hget, Option.isSome_none]
  · simp only [Field.slot, hread rest hrest, map_ok]

/-- Reads a number as the nearest binary64. -/
def readNearest : Reader Binary64 := fun s => do
  let (n, rest) ← numeral (skipGap s)
  .ok (n.value, rest)

theorem readNearest_number {x : Binary64} (hx : x.isFinite = true) {rest : List Char}
    (hrest : Ends rest) : readNearest ((number x).toList ++ rest) = .ok (x, rest) := by
  obtain ⟨negative, rank, rfl⟩ := Binary64.isFinite_iff.1 hx
  obtain ⟨n, hn, htext, -, hvalue⟩ := exists_numeral_magnitude negative (.shortest .even rank)
  rw [Decimal.toBinary64_shortest, Binary64.ofRank_val] at hvalue
  rw [number, String.toList_ofList, ← htext, readNearest, (skipGap_text hn rest).1,
    numeral_text hn hrest, ok_bind]
  simp only [hvalue]

def readCount : Reader Nat := fun s => do
  let (n, rest) ← numeral (skipGap s)
  match n.natural? with
  | some value => .ok (value, rest)
  | none => .error .mismatch

theorem readCount_natural (n : Nat) {rest : List Char} (hrest : Ends rest) :
    readCount ((natural n).toList ++ rest) = .ok (n, rest) := by
  have hwellFormed := Numeral.wellFormed_ofNat n
  rw [readCount, toList_natural, (skipGap_text hwellFormed rest).1,
    numeral_text hwellFormed hrest, ok_bind]
  simp only [Numeral.natural?_ofNat]

end Json

structure Document where
  expression : Option String
  result : Option Binary64
  display : Option String
  error : Option String
  kind : Option String
  position : Option Nat
deriving DecidableEq

namespace Document

def empty : Document := ⟨none, none, none, none, none, none⟩

def fields : List (Json.Field Document) :=
  [.slot "expression" expression (fun d x => { d with expression := some x }) readString,
    .slot "result" result (fun d x => { d with result := some x }) readNearest,
    .slot "display" display (fun d x => { d with display := some x }) readString,
    .slot "error" error (fun d x => { d with error := some x }) readString,
    .slot "kind" kind (fun d x => { d with kind := some x }) readString,
    .slot "position" position (fun d x => { d with position := some x }) readCount]

/-- The members may come in any order, each once at most. -/
def read : Reader Document := fun s =>
  match skipGap s with
  | '\x7b' :: s => readMembers fields true empty s
  | s => .error (wrongKind s)

theorem read_object {members : List (String × String)} {d : Document}
    (h : Fills fields empty members d) (rest : List Char) :
    read ((object members).toList ++ rest) = .ok (d, rest) := by
  rw [toList_object_append, read, skipGap_cons (by decide)]
  exact h.readMembers_eq true rest

/-! ### The two kinds of answers -/

def ofValue (expression : String) (value : Binary64) : Document :=
  { empty with
    expression := some expression
    result := some value
    display := some value.resultText }

def ofError (expression : String) (e : CalcError) : Document :=
  { empty with
    expression := some expression
    error := some e.message
    kind := some e.kind
    position := e.position? }

theorem fills_ofValue (expression : String) {value : Binary64} (hvalue : value.isFinite = true) :
    Fills fields empty
      [("display", quote value.resultText), ("expression", quote expression),
        ("result", number value)]
      (ofValue expression value) := by
  refine .slot rfl rfl (fun rest _ => readString_quote _ rest) ?_
  refine .slot rfl rfl (fun rest _ => readString_quote _ rest) ?_
  exact .slot rfl rfl (fun rest hrest => readNearest_number hvalue hrest) (.nil _)

theorem fills_ofError (expression : String) (e : CalcError) :
    Fills fields empty
      ([("error", quote e.message), ("expression", quote expression), ("kind", quote e.kind)] ++
        e.position?.toList.map fun position => ("position", natural position))
      (ofError expression e) := by
  refine .slot rfl rfl (fun rest _ => readString_quote _ rest) ?_
  refine .slot rfl rfl (fun rest _ => readString_quote _ rest) ?_
  refine .slot rfl rfl (fun rest _ => readString_quote _ rest) ?_
  rw [ofError]
  -- the place comes last, where there is one
  cases e.position? with
  | none => exact .nil _
  | some position =>
    exact .slot rfl rfl (fun rest hrest => readCount_natural position hrest) (.nil _)

end Document

/-! ### Answers -/

theorem Printer.parse_result {p : Printer} (hjson : p.format = .json) {expression : String}
    {value : Binary64} (hvalue : evaluateText expression = .ok value) :
    parse Document.read (p.result expression value) = .ok (.ofValue expression value) := by
  have hfills := Document.fills_ofValue expression (isFinite_of_evaluateText hvalue)
  rw [result_json hjson]
  exact (parse_text_line fun rest _ => Document.read_object hfills rest).1

theorem Printer.parse_failure {p : Printer} (hjson : p.format = .json) (expression : String)
    (e : CalcError) :
    parse Document.read (p.failure expression e) = .ok (.ofError expression e) := by
  have hfills := Document.fills_ofError expression e
  rw [failure_json hjson]
  exact (parse_text_line fun rest _ => Document.read_object hfills rest).1

namespace Command

/-- In JSON the answer to an expression is one line, read back as the expression and its value, or
the message and kind of its failure.  A place is told of the objections of the scanner only; there
stands the character that the message names. -/
theorem eval_document (colored : Bool) (expression : String) :
    ∃ line document, (eval ⟨.json, colored⟩ expression).output = line.push '\n' ∧
      ControlFree line.toList ∧ '\n' ∉ line.toList ∧
      parse Document.read line = .ok document ∧
      ((eval ⟨.json, colored⟩ expression).error = none ↔
        ∃ value, evaluateText expression = .ok value) ∧
      (∀ value, evaluateText expression = .ok value →
        document = ⟨some expression, some value, some value.resultText, none, none, none⟩) ∧
      (∀ e, evaluateText expression = .error e →
        (eval ⟨.json, colored⟩ expression).error = some (.calculation e) ∧
        document = ⟨some expression, none, none, some e.message, some e.kind, document.position⟩) ∧
      (document.position.isSome = true ↔ ∃ lex, evaluateText expression = .error (.lexical lex)) ∧
      ∀ lex, evaluateText expression = .error (.lexical lex) →
        document.position = some lex.position ∧
        expression.toList[lex.position]? = some lex.char ∧
        document.error = some ("Invalid input: " ++ (lex.kind.message ++ " '" ++
          lex.char.toString ++ "' at position " ++ toString lex.position)) := by
  cases hvalue : evaluateText expression with
  | ok value =>
    have hcontrol := Printer.controlFree_result (p := ⟨.json, colored⟩) rfl expression value
    refine ⟨_, .ofValue expression value, congrArg Outcome.output (eval_of_ok hvalue), hcontrol,
      hcontrol.newline_notMem, Printer.parse_result rfl hvalue, ?_, ?_, nofun, ?_, nofun⟩
    · rw [eval_of_ok hvalue]
      exact ⟨fun _ => ⟨value, rfl⟩, fun _ => rfl⟩
    · rintro value' hvalue'
      obtain rfl := Except.ok.inj hvalue'
      rfl
    · simp [Document.ofValue, Document.empty]
  | error e =>
    have hcontrol := Printer.controlFree_failure (p := ⟨.json, colored⟩) rfl expression e
    have heval := eval_of_error (p := ⟨.json, colored⟩) rfl hvalue
    refine ⟨_, .ofError expression e, congrArg Outcome.output heval, hcontrol,
      hcontrol.newline_notMem, Printer.parse_failure rfl expression e, ?_, nofun, ?_, ?_, ?_⟩
    · rw [heval]
      exact ⟨nofun, nofun⟩
    · rintro e' he'
      obtain rfl := Except.error.inj he'
      rw [heval]
      exact ⟨rfl, rfl⟩
    · cases e <;> simp [Document.ofError, CalcError.position?]
    · rintro lex hlex
      obtain rfl := Except.error.inj hlex
      have htokens := evaluateText_eq_lexical_iff.1 hvalue
      exact ⟨rfl, (getElem?_of_tokenize_eq_error htokens).1, rfl⟩

/-- The no-break space and the line feed in front of the quote count one each. -/
theorem eval_document_of_quote :
    ∃ line document, (eval ⟨.json, true⟩ "\u00a0\n1 \"").output = line.push '\n' ∧
      parse Document.read line = .ok document ∧ document.expression = some "\u00a0\n1 \"" ∧
      document.error = some "Invalid input: Unexpected character '\"' at position 4" ∧
      document.kind = some "lexical" ∧ document.position = some 4 := by
  have hvalue : evaluateText "\u00a0\n1 \"" = .error (.lexical ⟨.unexpectedChar, '"', 4⟩) := by
    decide +kernel
  obtain ⟨line, document, houtput, -, -, hparse, -, -, herror, -, hlexical⟩ :=
    eval_document true "\u00a0\n1 \""
  obtain ⟨-, hdocument⟩ := herror _ hvalue
  obtain ⟨hposition, -, hmessage⟩ := hlexical _ hvalue
  exact ⟨line, document, houtput, hparse, by rw [hdocument], hmessage.trans (by decide +kernel),
    by rw [hdocument]; rfl, hposition⟩

end Command

end FourFunction
