import FourFunction.Decimal.Basic

/-!
# Reading numerals

A numeral is an optional sign, digits with at most one point, and an optional exponent; or one of
the words `inf`, `infinity` and `nan` in any case.
-/

namespace FourFunction

/-- The longest run of digits at the front of a text, and what follows it. -/
def splitDigits (s : List Char) : List Char × List Char :=
  (s.takeWhile Char.isDigit, s.dropWhile Char.isDigit)

/-- The digits behind a point at the front of a text, and what follows them. -/
def splitFraction : List Char → List Char × List Char
  | '.' :: s => splitDigits s
  | s => ([], s)

/-- The sign at the front of a text, whether it is a minus, and what follows it. -/
def splitSign : List Char → Bool × List Char
  | '-' :: s => (true, s)
  | '+' :: s => (false, s)
  | s => (false, s)

def signedValue (negative : Bool) (digits : List Char) : Int :=
  if negative then -(Nat.ofDigitChars 10 digits 0 : Int) else Nat.ofDigitChars 10 digits 0

/-- Zero if the text is empty, else `e`, an optional sign and digits. -/
def exponent? : List Char → Option Int
  | [] => some 0
  | c :: s =>
      let (negative, digits) := splitSign s
      if (c == 'e' || c == 'E') && !digits.isEmpty && digits.all Char.isDigit then
        some (signedValue negative digits)
      else none

def Decimal.ofNumeral? (s : List Char) : Option Decimal :=
  let (whole, afterWhole) := splitDigits s
  let (fraction, rest) := splitFraction afterWhole
  if whole.isEmpty && fraction.isEmpty then none
  else (exponent? rest).map (Decimal.ofParts whole fraction)

def Binary64.ofText? (text : String) : Option Binary64 :=
  let (negative, s) := splitSign text.toList
  match (String.ofList s).toLower with
  | "inf" | "infinity" => some (.infinite negative)
  | "nan" => some .nan
  | _ => (Decimal.ofNumeral? s).map (Decimal.toBinary64 negative)

end FourFunction
