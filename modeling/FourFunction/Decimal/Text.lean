import FourFunction.Decimal.Basic

/-!
# Numbers as texts

`Decimal.shortest` finds the decimal with the fewest significant digits that is read as a given
rank.  It is written positionally or with an exponent.
-/

namespace FourFunction

/-! ### The shortest decimal that reads back -/

/-- Which of two equally near shortest decimals is taken. -/
inductive TieRule where
  | up
  | even
deriving DecidableEq

/-- Whether the upper of two neighbours is taken for `num / den`, the lower one being `low`. -/
def TieRule.takesUpper (tie : TieRule) (low num den : Nat) : Bool :=
  let remainder := num - low * den
  if den < 2 * remainder then true
  else if 2 * remainder < den then false
  else match tie with
    | .up => true
    | .even => low % 2 == 1

namespace Decimal

/-- The decimal of `n` significant digits that is read as `rank`; of two, the nearer. -/
def shortestAt? (tie : TieRule) (rank n : Nat) : Option Decimal :=
  let place := lastPlace rank n
  let num := gridNum rank place
  let den := gridDen place
  let lower : Decimal := ⟨num / den, place⟩
  let upper : Decimal := ⟨num / den + 1, place⟩
  if lower.nearestRank = rank then
    if upper.nearestRank = rank ∧ tie.takesUpper (num / den) num den then some upper
    else some lower
  else if upper.nearestRank = rank then some upper
  else none

/-- Seventeen digits distinguish all ranks; the exact decimal stands behind the search. -/
def shortest (tie : TieRule) (rank : Nat) : Decimal :=
  ((List.range' 1 17).findSome? (shortestAt? tie rank)).getD (exact rank)

end Decimal

/-! ### Written forms -/

namespace Decimal

def significantDigits (d : Decimal) : List Char :=
  ((Nat.toDigits 10 d.coefficient).reverse.dropWhile (· == '0')).reverse

def scientificExponent (d : Decimal) : Int := d.exponent + digitCount d.coefficient - 1

/-- Digits written positionally, the first at the power of ten `lead`. -/
def plainDigits (digits : List Char) (lead : Int) : List Char :=
  if lead < 0 then '0' :: '.' :: List.replicate (-lead - 1).toNat '0' ++ digits
  else
    let whole := lead.toNat + 1
    if digits.length ≤ whole then digits ++ List.replicate (whole - digits.length) '0'
    else digits.take whole ++ '.' :: digits.drop whole

def mantissa : List Char → List Char
  | [] => []
  | [c] => [c]
  | c :: rest => c :: '.' :: rest

def signedExponent (e : Int) : List Char :=
  (if e < 0 then '-' else '+') :: Nat.toDigits 10 e.natAbs

def plain (d : Decimal) : List Char :=
  if d.coefficient = 0 then ['0'] else plainDigits d.significantDigits d.scientificExponent

def scientific (d : Decimal) : List Char :=
  mantissa d.significantDigits ++ 'e' :: signedExponent d.scientificExponent

end Decimal

def signed (negative : Bool) (text : List Char) : List Char :=
  if negative then '-' :: text else text

/-! ### Texts of binary64 numbers -/

/-- The shortest digits, written positionally; of two equally near numbers, the greater. -/
def Binary64.plainText : Binary64 → String
  | .finite s r => String.ofList (signed s (Decimal.shortest .up r).plain)
  | .infinite s => String.ofList (signed s ['i', 'n', 'f'])
  | .nan => "NaN"

def resultDigits : Nat := 15

/-- The least rank that is written positionally. -/
def plainFrom : Nat := Decimal.nearestRank ⟨1, -6⟩

/-- The least rank above the positional ones. -/
def plainBelow : Nat := Decimal.nearestRank ⟨1, 21⟩

def shownRank (rank : Nat) : Nat := (Decimal.rounded rank resultDigits).nearestRank

/-- Close to the largest number the 15-digit decimal may be past the finite range. -/
def shownText (rank : Nat) : List Char :=
  if Binary64.ranks ≤ rank then ['i', 'n', 'f']
  else if plainFrom ≤ rank ∧ rank < plainBelow then (Decimal.shortest .up rank).plain
  else (Decimal.shortest .up rank).scientific

/-- Both zeros are shown as `0`. -/
def Binary64.resultText : Binary64 → String
  | .finite s r =>
      if r.val = 0 then "0" else String.ofList (signed s (shownText (shownRank r)))
  | x => x.plainText

end FourFunction
