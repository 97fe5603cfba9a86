import FourFunction.Console.Settings
import FourFunction.Expression.Token

/-!
# What the program prints

Objects have their members sorted by name.  Colors are a matter of the text format alone.
-/

namespace FourFunction

structure Printer where
  format : OutputFormat
  colored : Bool
deriving DecidableEq, Inhabited

/-! ### Colors -/

def controlSequence (code : String) : String := "\x1b[" ++ code ++ "m"

def boldGreen (text : String) : String :=
  controlSequence "32" ++ controlSequence "1" ++ text ++ controlSequence "0"

def red (text : String) : String := controlSequence "31" ++ text ++ controlSequence "0"

namespace Printer

/-! ### Answers -/

def result (p : Printer) (expression : String) (value : Binary64) : String :=
  let shown := value.resultText
  match p.format with
  | .text => if p.colored then boldGreen shown else shown
  | .json =>
    Json.object
      [("display", Json.quote shown), ("expression", Json.quote expression),
        ("result", Json.number value)]

/-- The place is given for the objections of the scanner. -/
def failure (p : Printer) (expression : String) (e : CalcError) : String :=
  match p.format with
  | .text =>
    let message := "Error: " ++ e.message
    if p.colored then red message else message
  | .json =>
    let position := match e with
      | .lexical lex => [("position", Json.natural lex.position)]
      | _ => []
    Json.object
      ([("error", Json.quote e.message), ("expression", Json.quote expression),
        ("kind", Json.quote e.kind)] ++ position)

def tokenLine : Token → String
  | .number x => "number   " ++ x.plainText
  | .operator op => "operator " ++ op.symbol.toString

def tokens (p : Printer) (tokens : List Token) : String :=
  match p.format with
  | .text => "\n".intercalate (tokens.map tokenLine)
  | .json => tokensToJson tokens

/-- The display of a session after the given keys. -/
def display (p : Printer) (keys : String) (s : Session) : String :=
  match p.format with
  | .text => if p.colored && s.lastError.isSome then red s.display else s.display
  | .json =>
    let kind := match s.lastError with
      | some e => Json.quote e.kind
      | none => "null"
    Json.object [("display", Json.quote s.display), ("error", kind), ("keys", Json.quote keys)]

def history (p : Printer) (h : History) : String :=
  match p.format with
  | .text => h.lines
  | .json => h.toJson

end Printer

end FourFunction
