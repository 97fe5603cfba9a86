import FourFunction.Console.Command

/-!
# The line-by-line calculator

Each line is an expression, or a directive that starts with a colon.  The loop ends at `:quit`, at a
line that is not UTF-8, or with the input.  The history can be kept in a file.
-/

namespace FourFunction

/-! ### Lines -/

/-- The bytes of a line without a carriage return at their end. -/
def dropReturn (bytes : List UInt8) : List UInt8 :=
  if bytes.getLast? = some 13 then bytes.dropLast else bytes

def decode? (bytes : List UInt8) : Option String := String.fromUTF8? ⟨bytes.toArray⟩

/-- The lines of a byte stream; `line` holds the bytes of the unfinished one in reverse. -/
def linesFrom (line : List UInt8) : List UInt8 → List (Option String)
  | [] => if line.isEmpty then [] else [decode? line.reverse]
  | byte :: bytes =>
    if byte = 10 then decode? (dropReturn line.reverse) :: linesFrom [] bytes
    else linesFrom (byte :: line) bytes

def textLines (bytes : List UInt8) : List (Option String) := linesFrom [] bytes

/-! ### The loop -/

inductive Directive where
  | nothing
  | quit
  | history
  | clear
  | unknown (line : String)
  | expression (line : String)
deriving DecidableEq, Inhabited

/-- Blanks around a line mean nothing. -/
def Directive.ofLine (line : String) : Directive :=
  let line := trimBlanks line
  match line with
  | "" => .nothing
  | ":quit" | ":q" => .quit
  | ":history" => .history
  | ":clear" => .clear
  | _ => if line.toList.head? = some ':' then .unknown line else .expression line

/-- The times of lines, in milliseconds since 1970, by the number of lines in front. -/
def Clock : Type := Nat → UInt64

namespace Clock

def fixed (time : UInt64) : Clock := fun _ => time

/-- What a clock shows from the given number of lines on. -/
def after (clock : Clock) (n : Nat) : Clock := fun i => clock (n + i)

instance (n : Nat) : OfNat Clock n := ⟨fixed (.ofNat n)⟩

instance : Inhabited Clock := ⟨0⟩

end Clock

/-- A line-by-line calculator, with a clock for the lines to come. -/
structure Repl where
  printer : Printer
  prompts : Bool
  clock : Clock
deriving Inhabited

/-- How expressions get their values. -/
abbrev Evaluator := String → Except CalcError Binary64

inductive Step where
  | next (history : History) (output : String)
  | stop (error : Option CommandError)
deriving Inhabited

namespace Repl

def promptText (r : Repl) : String := if r.prompts then "> " else ""

def written (text : String) : String := text.push '\n'

/-- The calculator after the given number of lines. -/
def after (r : Repl) (n : Nat) : Repl := { r with clock := r.clock.after n }

/-- A success is recorded. -/
def evaluate (r : Repl) (h : History) (expression : String)
    (evaluator : Evaluator := evaluateText) : History × String :=
  match evaluator expression with
  | .ok value =>
    (h.record ⟨expression, value, r.clock 0⟩, written (r.printer.result expression value))
  | .error e => (h, written (r.printer.failure expression e))

def obey (r : Repl) (h : History) (directive : Directive)
    (evaluator : Evaluator := evaluateText) : Step :=
  match directive with
  | .quit => .stop none
  | .nothing => .next h ""
  | .history => .next h (if h.isEmpty then "" else written (r.printer.history h))
  | .clear => .next h.clear ""
  | .unknown line => .next h (written ("Unknown command: " ++ line))
  | .expression line =>
    let (h, output) := r.evaluate h line evaluator
    .next h output

/-- A line that is not UTF-8 has no text and ends the loop. -/
def step (r : Repl) (h : History) (line : Option String)
    (evaluator : Evaluator := evaluateText) : Step :=
  match line with
  | some line => r.obey h (.ofLine line) evaluator
  | none => .stop (some .undecodable)

/-- Gives the history at the end and the outcome. -/
def feed (r : Repl) (h : History) (lines : List (Option String))
    (evaluator : Evaluator := evaluateText) : History × Outcome :=
  match lines with
  | [] => (h, ⟨"", none⟩)
  | line :: lines =>
    match r.step h line evaluator with
    | .stop error => (h, ⟨"", error⟩)
    | .next h output =>
      let (last, outcome) := (r.after 1).feed h lines evaluator
      (last, { outcome with output := output ++ r.promptText ++ outcome.output })

end Repl

/-! ### The history file -/

inductive HistoryFile where
  | unused
  | absent
  | present (content : ByteArray)
deriving Inhabited

namespace HistoryFile

def load (file : HistoryFile) (capacity : Nat) : Except CommandError History :=
  match file with
  | unused | absent => .ok (.empty capacity)
  | present content =>
    match String.fromUTF8? content with
    | none => .error .undecodable
    | some text => (History.ofJson text capacity).mapError .json

def save (file : HistoryFile) (h : History) : HistoryFile :=
  match file with
  | unused => unused
  | absent | present _ => present h.toJson.toUTF8

end HistoryFile

structure ReplOutcome extends Outcome where
  file : HistoryFile
deriving Inhabited

namespace Repl

/-- The history of a run that can start: its size is one at least, and its file can be loaded. -/
def start (size : Nat) (file : HistoryFile) : Except CommandError History :=
  if size = 0 then .error (.invalidArgument "--history-size must be at least 1")
  else file.load size

/-- A whole run over an input.  A run that cannot start leaves the file as it is. -/
def run (r : Repl) (size : Nat) (file : HistoryFile) (input : List UInt8)
    (evaluator : Evaluator := evaluateText) : ReplOutcome :=
  match start size file with
  | .error e => ⟨.failure e, file⟩
  | .ok h =>
    let (last, outcome) := r.feed h (textLines input) evaluator
    ⟨{ outcome with output := r.promptText ++ outcome.output }, file.save last⟩

end Repl

end FourFunction
