import FourFunction.Calculator.History
import FourFunction.Calculator.Key
import FourFunction.Expression.Evaluation

/-!
# A calculator with a keypad

A session holds the text typed so far.  A result stays on the display and is *carried*: an operator
continues with its unrounded value, and digits typed onto it extend its text.
-/

namespace FourFunction

inductive ErrorStyle where
  /-- One word for every failure. -/
  | brief
  | detailed
deriving DecidableEq, Inhabited

/-- A number at the front of the buffer, and the count of characters that stand for it. -/
structure Carry where
  value : Binary64
  length : Nat
deriving DecidableEq, Inhabited

structure Session where
  buffer : String
  carry : Option Carry
  /-- The failure of the last evaluation, until the next key. -/
  lastError : Option CalcError
  history : History
  errorStyle : ErrorStyle
  /-- The time stamped on new entries; its owner sets it. -/
  clock : UInt64
deriving DecidableEq, Inhabited

namespace Session

def new (errorStyle : ErrorStyle) : Session :=
  ⟨"", none, none, History.empty History.defaultCapacity, errorStyle, 0⟩

def display (s : Session) : String :=
  match s.lastError, s.errorStyle with
  | some _, .brief => "Error"
  | some e, .detailed => e.message
  | none, _ => s.buffer

def clear (s : Session) : Session := { s with buffer := "", carry := none, lastError := none }

/-! ### Evaluation -/

/-- A carried number goes in as one token; only the text behind it is scanned. -/
def evaluateBuffer (buffer : String) : Option Carry → Except CalcError Binary64
  | none => evaluateText buffer
  | some carry => do
    let behind := String.ofList (buffer.toList.drop carry.length)
    let tokens ← (tokenize behind).mapError fun e => .lexical (e.shifted carry.length)
    FourFunction.evaluate (.number carry.value :: tokens)

/-- A result replaces the buffer and is recorded; a failure empties it. -/
def evaluate (s : Session) : Except CalcError Binary64 × Session :=
  match evaluateBuffer s.buffer s.carry with
  | .ok value =>
    let shown := value.resultText
    (.ok value,
      { s with
        buffer := shown
        carry := some ⟨value, shown.length⟩
        lastError := none
        history := s.history.record ⟨s.buffer, value, s.clock⟩ })
  | .error e => (.error e, { s with buffer := "", carry := none, lastError := some e })

/-! ### Keys -/

def append (s : Session) (c : Char) : Session :=
  match s.lastError with
  | some _ => { s with buffer := "".push c, carry := none, lastError := none }
  | none => { s with buffer := s.buffer.push c }

/-- Whether the whole buffer is the carried number. -/
def bufferIsCarry (s : Session) : Bool := s.carry.any fun carry => s.buffer.length == carry.length

/-- Carries the whole buffer if it reads as one finite number, and nothing otherwise. -/
def carryBuffer (s : Session) : Session :=
  let value := (Binary64.ofText? s.buffer).filter Binary64.isFinite
  { s with carry := value.map fun x => ⟨x, s.buffer.length⟩ }

/-- Types a digit or a point; typed onto a carried number, it becomes a part of it. -/
def appendDigit (s : Session) (c : Char) : Session :=
  if s.bufferIsCarry then (s.append c).carryBuffer else s.append c

def press (s : Session) (key : Key) : Except KeyError Session :=
  match key with
  | .clear => .ok s.clear
  | .equals => .ok s.evaluate.2
  | .digit d =>
    if d ≤ 9 then .ok (s.appendDigit (Nat.digitChar d.toNat)) else .error (.invalidDigit d)
  | .point => .ok (s.appendDigit '.')
  | .operator op => .ok (s.append op.symbol)

def pressChar (s : Session) (c : Char) : Except KeyError Session :=
  match Key.ofChar? c with
  | some key => s.press key
  | none => .error (.unsupported c)

/-- Handles the keys of characters in their order, up to the first one that is refused. -/
def pressChars (s : Session) : List Char → Option KeyError × Session
  | [] => (none, s)
  | c :: cs =>
    match s.pressChar c with
    | .ok s' => s'.pressChars cs
    | .error e => (some e, s)

/-- Handles the keys of a text, in which blanks mean nothing. -/
def pressText (s : Session) (keys : String) : Option KeyError × Session :=
  s.pressChars (keys.toList.filter fun c => !isBlank c)

end Session

end FourFunction
