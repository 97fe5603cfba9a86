import FourFunction.Binary64.Arithmetic

/-!
# Decimals and their nearest binary64 rank

A `Decimal` is read as the nearest binary64 magnitude.  Conversely a rank has an exact decimal, and
nearest decimals of a given number of significant digits.
-/

namespace FourFunction

/-- The number `coefficient * 10 ^ exponent`. -/
structure Decimal where
  coefficient : Nat
  exponent : Int
deriving DecidableEq, Inhabited

namespace Decimal

/-- The decimal of digits, a point, more digits and an exponent. -/
def ofParts (whole fraction : List Char) (exponent : Int) : Decimal :=
  ⟨Nat.ofDigitChars 10 (whole ++ fraction) 0, exponent - fraction.length⟩

/-- The power of ten is computed only where the answer depends on it: from `10 ^ 309` on every
positive decimal overflows, and below `2 ^ (-1076)` every one is nearest to zero. -/
def nearestRank (d : Decimal) : Nat :=
  if d.coefficient = 0 then 0
  else if 309 ≤ d.exponent then Binary64.ranks
  else if d.coefficient.log2 + 1077 < 3 * -d.exponent then 0
  else
    Binary64.nearestRank (d.coefficient * Nat.pow 10 d.exponent.toNat * Binary64.unitsPerOne)
      (Nat.pow 10 (-d.exponent).toNat)

def toBinary64 (negative : Bool) (d : Decimal) : Binary64 :=
  Binary64.ofRank negative d.nearestRank

/-- The magnitude of a rank; a unit of `2 ^ (-1074)` is `5 ^ 1074` units of `10 ^ (-1074)`. -/
def exact (rank : Nat) : Decimal := ⟨Binary64.units rank * Nat.pow 5 1074, -1074⟩

/-! ### Decimal places of a rank -/

def digitCount (n : Nat) : Nat := (Nat.toDigits 10 n).length

/-- The `k` with `10 ^ k ≤ magnitude < 10 ^ (k + 1)` for a positive rank, read off the whole part of
the magnitude in units of `10 ^ (-324)`. -/
def leadingPlace (rank : Nat) : Int :=
  digitCount (Binary64.units rank * Nat.pow 10 324 / Binary64.unitsPerOne) - 325

def lastPlace (rank n : Nat) : Int := leadingPlace rank + 1 - n

/-- The magnitude in units of `10 ^ place` is `gridNum / gridDen`. -/
def gridNum (rank : Nat) (place : Int) : Nat := Binary64.units rank * Nat.pow 10 (-place).toNat

def gridDen (place : Int) : Nat := Binary64.unitsPerOne * Nat.pow 10 place.toNat

/-- The decimal of `n` significant digits nearest the magnitude of a positive rank. -/
def rounded (rank n : Nat) : Decimal :=
  let place := lastPlace rank n
  ⟨roundedQuotient (gridNum rank place) (gridDen place), place⟩

/-! ### Small facts -/

@[simp] theorem nearestRank_zero (e : Int) : nearestRank ⟨0, e⟩ = 0 := by simp [nearestRank]

end Decimal

end FourFunction
