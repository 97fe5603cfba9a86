import FourFunction.Decimal.Text
import FourFunction.Json.Composite
import FourFunction.Json.Text

/-!
# Operators and tokens
-/

namespace FourFunction

/-! ### The four operators -/

inductive Operator where
  | add
  | sub
  | mul
  | div
deriving DecidableEq, Inhabited

namespace Operator

def symbol : Operator → Char
  | add => '+'
  | sub => '-'
  | mul => '*'
  | div => '/'

def ofChar? : Char → Option Operator
  | '+' => some add
  | '-' => some sub
  | '*' => some mul
  | '/' => some div
  | _ => none

/-- Whether the operator separates terms; the other two separate the factors of a term. -/
def isAdditive : Operator → Bool
  | add | sub => true
  | mul | div => false

theorem ofChar?_symbol (op : Operator) : ofChar? op.symbol = some op := by cases op <;> rfl

theorem ofChar?_eq_some_iff {c : Char} {op : Operator} : ofChar? c = some op ↔ c = op.symbol := by
  constructor
  · intro h
    unfold ofChar? at h
    split at h <;> simp_all [symbol] <;> subst h <;> rfl
  · rintro rfl
    exact ofChar?_symbol op

end Operator

/-! ### Tokens -/

inductive Token where
  | number (value : Binary64)
  | operator (op : Operator)
deriving DecidableEq, Inhabited

def Token.text : Token → String
  | number x => x.plainText
  | operator op => op.symbol.toString

def Token.isOperator : Token → Bool
  | number _ => false
  | operator _ => true

/-! ### JSON -/

def Operator.name : Operator → String
  | add => "Add"
  | sub => "Sub"
  | mul => "Mul"
  | div => "Div"

def Operator.all : List Operator := [add, sub, mul, div]

def Operator.read : Json.Reader Operator :=
  Json.readChoice (all.map fun op => .constant op.name op)

def Token.toJson : Token → String
  | number x => Json.object [("Number", Json.number x)]
  | operator op => Json.object [("Operator", Json.quote op.name)]

def Token.read : Json.Reader Token :=
  Json.readChoice
    [.holding "Number" fun s => (Json.readNumber s).map fun (x, rest) => (number x, rest),
      .holding "Operator" fun s => (Operator.read s).map fun (op, rest) => (operator op, rest)]

def tokensToJson (tokens : List Token) : String := Json.array (tokens.map Token.toJson)

def tokensOfJson (text : String) : Except Json.Fault (List Token) :=
  Json.parse (Json.readList Token.read) text

end FourFunction
