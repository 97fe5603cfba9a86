/-!
# Why a calculation fails
-/

namespace FourFunction

inductive LexErrorKind where
  | unexpectedChar
  | extraDecimalPoint
  /-- A decimal point with no digit on either side. -/
  | bareDecimalPoint
  /-- A number too large for a finite value. -/
  | literalOutOfRange
deriving DecidableEq, Inhabited

/-- The offending character, and its place counted in characters. -/
structure LexError where
  kind : LexErrorKind
  char : Char
  position : Nat
deriving DecidableEq, Inhabited

/-- Positions are token indices; of two adjacent tokens, that of the second one. -/
inductive ArrangementError where
  | empty
  | leadingOperator
  | trailingOperator
  | adjacentOperators (position : Nat)
  | adjacentNumbers (position : Nat)
  | nonFiniteNumber (position : Nat)
deriving DecidableEq, Inhabited

inductive CalcError where
  | lexical (error : LexError)
  | structural (error : ArrangementError)
  | divisionByZero
  | overflow
deriving DecidableEq, Inhabited

/-! ### Wording -/

def LexErrorKind.message : LexErrorKind → String
  | unexpectedChar => "Unexpected character"
  | extraDecimalPoint => "Extra decimal point"
  | bareDecimalPoint => "Decimal point without digits"
  | literalOutOfRange => "Number literal out of range starting with"

def LexError.message (e : LexError) : String :=
  e.kind.message ++ " '" ++ e.char.toString ++ "' at position " ++ toString e.position

def LexError.shifted (e : LexError) (offset : Nat) : LexError :=
  { e with position := e.position + offset }

def ArrangementError.message : ArrangementError → String
  | empty => "empty expression"
  | leadingOperator => "expression starts with an operator"
  | trailingOperator => "expression ends with an operator"
  | adjacentOperators position =>
      "operator follows another operator at token " ++ toString position
  | adjacentNumbers position => "number follows another number at token " ++ toString position
  | nonFiniteNumber position => "number at token " ++ toString position ++ " is not finite"

def ArrangementError.position? : ArrangementError → Option Nat
  | adjacentOperators position => some position
  | adjacentNumbers position => some position
  | nonFiniteNumber position => some position
  | _ => none

def CalcError.message : CalcError → String
  | lexical e => "Invalid input: " ++ e.message
  | structural e => "Malformed expression: " ++ e.message
  | divisionByZero => "Division by zero"
  | overflow => "Overflow: result exceeds maximum value"

def CalcError.kind : CalcError → String
  | lexical _ => "lexical"
  | structural _ => "structural"
  | divisionByZero => "division_by_zero"
  | overflow => "overflow"

@[simp] theorem LexError.shifted_zero (e : LexError) : e.shifted 0 = e := rfl

theorem LexError.shifted_shifted (e : LexError) (m n : Nat) :
    (e.shifted m).shifted n = e.shifted (m + n) := by
  simp [shifted, Nat.add_assoc]

end FourFunction
