import FourFunction.Expression.Token

/-!
# Keys of the keypad
-/

namespace FourFunction

/-- A key.  Digit keys above nine have no button. -/
inductive Key where
  | digit (value : UInt8)
  | point
  | operator (op : Operator)
  | equals
  | clear
deriving DecidableEq, Inhabited

/-- Why a key is refused. -/
inductive KeyError where
  | unsupported (char : Char)
  | invalidDigit (digit : UInt8)
deriving DecidableEq, Inhabited

def KeyError.message : KeyError → String
  | unsupported char => "No key for '" ++ char.toString ++ "'"
  | invalidDigit digit => "Invalid digit key " ++ toString digit.toNat

namespace Key

def ofChar? (c : Char) : Option Key :=
  if c.isDigit then some (digit (c.toNat - '0'.toNat).toUInt8)
  else match c with
    | '.' => some point
    | '=' => some equals
    | 'C' | 'c' => some clear
    | _ => (Operator.ofChar? c).map operator

/-- The character a key types; the keys that act type none. -/
def char? : Key → Option Char
  | digit d => if d ≤ 9 then some (Nat.digitChar d.toNat) else none
  | point => some '.'
  | operator op => some op.symbol
  | equals | clear => none

end Key

end FourFunction
