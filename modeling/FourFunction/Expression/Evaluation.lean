import FourFunction.Expression.Scanner

/-!
# The value of an expression

`foldTokens` evaluates in one pass over any token list and reports a misplaced token where it meets
it; `evaluate` checks the whole arrangement first.  What single operations give is a parameter.
-/

namespace FourFunction

/-! ### Arrangements -/

/-- The first place where a token follows one of its own sort. -/
def adjacent? : List Token → (position : Nat) → Option ArrangementError
  | .operator _ :: .operator _ :: _, position => some (.adjacentOperators position)
  | .number _ :: .number _ :: _, position => some (.adjacentNumbers position)
  | _ :: token :: rest, position => adjacent? (token :: rest) (position + 1)
  | _, _ => none

/-- Whether the token is an infinity or a NaN, which the scanner never gives. -/
def Token.isNonFinite : Token → Bool
  | number x => !x.isFinite
  | operator _ => false

def checkArrangement (tokens : List Token) : Except ArrangementError Unit :=
  match tokens with
  | [] => .error .empty
  | first :: _ =>
    if first.isOperator then .error .leadingOperator
    else match adjacent? tokens 1 with
    | some e => .error e
    | none =>
      if tokens.getLast?.any Token.isOperator then .error .trailingOperator
      else match tokens.findIdx? Token.isNonFinite with
      | some position => .error (.nonFiniteNumber position)
      | none => .ok ()

/-! ### Single operations -/

def finiteOr (x : Binary64) : Except CalcError Binary64 :=
  if x.isFinite then .ok x else .error .overflow

def Operator.apply (op : Operator) (a b : Binary64) : Except CalcError Binary64 :=
  match op with
  | .add => finiteOr (a.add b)
  | .sub => finiteOr (a.sub b)
  | .mul => finiteOr (a.mul b)
  | .div => if b.isZero then .error .divisionByZero else finiteOr (a.div b)

/-- What each operator gives for two operands. -/
abbrev Arithmetic := Operator → Binary64 → Binary64 → Except CalcError Binary64

/-! ### Expressions -/

def Token.operand (token : Token) (position : Nat) : Except CalcError Binary64 :=
  match token with
  | .number x =>
      if x.isFinite then .ok x else .error (.structural (.nonFiniteNumber position))
  | .operator _ =>
      .error (.structural (if position = 0 then .leadingOperator else .adjacentOperators position))

/-- A sum that waits for its last term, and the additive operator in front of that term. -/
abbrev Pending := Option (Binary64 × Operator)

section

variable (apply : Arithmetic)

def settle (pending : Pending) (term : Binary64) : Except CalcError Binary64 :=
  match pending with
  | none => .ok term
  | some (sum, op) => apply op sum term

/-- Goes on behind the tokens before `position`, which left the pending sum and the term. -/
def foldRest (pending : Pending) (term : Binary64) (position : Nat) :
    List Token → Except CalcError Binary64
  | [] => settle apply pending term
  | .number _ :: _ => do
      let _ ← settle apply pending term
      .error (.structural (.adjacentNumbers position))
  | [.operator op] => do
      if op.isAdditive then
        let _ ← settle apply pending term
      .error (.structural .trailingOperator)
  | .operator op :: token :: rest =>
      if op.isAdditive then do
        let sum ← settle apply pending term
        let operand ← token.operand (position + 1)
        foldRest (some (sum, op)) operand (position + 2) rest
      else do
        let operand ← token.operand (position + 1)
        let product ← apply op term operand
        foldRest pending product (position + 2) rest

/-- Evaluates in one pass, without checking the arrangement first. -/
def foldTokensWith : List Token → Except CalcError Binary64
  | [] => .error (.structural .empty)
  | token :: rest => do
      let operand ← token.operand 0
      foldRest apply none operand 1 rest

/-- Evaluates a token list whose arrangement is checked in full first. -/
def evaluateWith (tokens : List Token) : Except CalcError Binary64 := do
  (checkArrangement tokens).mapError .structural
  foldTokensWith apply tokens

end

def foldTokens (tokens : List Token) : Except CalcError Binary64 :=
  foldTokensWith Operator.apply tokens

def evaluate (tokens : List Token) : Except CalcError Binary64 := evaluateWith Operator.apply tokens

def evaluateText (text : String) : Except CalcError Binary64 := do
  let tokens ← (tokenize text).mapError .lexical
  evaluate tokens

end FourFunction
