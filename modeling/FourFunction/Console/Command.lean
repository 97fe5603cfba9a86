import FourFunction.Console.Printer

/-!
# The commands of the program
-/

namespace FourFunction

inductive CommandError where
  | calculation (error : CalcError)
  | key (error : KeyError)
  | undecodable
  /-- A file cannot be read or written. -/
  | file (reason : String)
  | json (fault : Json.Fault)
  | invalidArgument (reason : String)
deriving DecidableEq, Inhabited

def Json.Fault.message : Json.Fault → String
  | malformed => "malformed text"
  | mismatch => "unexpected value"
  | truncated => "unexpected end"

def undecodableMessage : String := "stream did not contain valid UTF-8"

def CommandError.message : CommandError → String
  | calculation e => e.message
  | key e => e.message
  | undecodable => "I/O error: " ++ undecodableMessage
  | file reason => "I/O error: " ++ reason
  | json fault => "JSON error: " ++ fault.message
  | invalidArgument reason => "Invalid argument: " ++ reason

/-- What a command writes, and the error it ends with. -/
structure Outcome where
  output : String
  error : Option CommandError
deriving DecidableEq, Inhabited

def Outcome.line (text : String) : Outcome := ⟨text.push '\n', none⟩

def Outcome.failure (e : CommandError) : Outcome := ⟨"", some e⟩

namespace Command

/-- In JSON a failure has a document too. -/
def eval (p : Printer) (expression : String) : Outcome :=
  match evaluateText expression with
  | .ok value => .line (p.result expression value)
  | .error e =>
    match p.format with
    | .text => .failure (.calculation e)
    | .json => ⟨(p.failure expression e).push '\n', some (.calculation e)⟩

def tokens (p : Printer) (expression : String) : Outcome :=
  match tokenize expression with
  | .ok tokens => .line (p.tokens tokens)
  | .error e => .failure (.calculation (.lexical e))

/-- A failed evaluation is no failure of the command: the display shows it. -/
def keys (p : Printer) (style : ErrorStyle) (keys : String) : Outcome :=
  match (Session.new style).pressText keys with
  | (none, s) => .line (p.display keys s)
  | (some e, _) => .failure (.key e)

end Command

end FourFunction
