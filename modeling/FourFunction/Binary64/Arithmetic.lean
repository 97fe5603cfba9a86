import FourFunction.Binary64.Basic

/-!
# Rounding and arithmetic of binary64 numbers

`Binary64.nearestRank` is the one rounding of the library.  The four operations compute the exact
result in units and round it once.
-/

namespace FourFunction

/-- The whole number nearest `num / den`; of two equally near ones, the even one. -/
def roundedQuotient (num den : Nat) : Nat :=
  let quotient := num / den
  let remainder := num % den
  if 2 * remainder < den then quotient
  else if den < 2 * remainder then quotient + 1
  else if quotient % 2 = 0 then quotient
  else quotient + 1

namespace Binary64

/-- The rank nearest `num / den` units, or the even one of two.  Ranks past the finite ones
overflow. -/
def nearestRank (num den : Nat) : Nat :=
  let spacing := (num / den).log2 - 52
  spacing * binade + roundedQuotient num (den * Nat.pow 2 spacing)

def nearest (negative : Bool) (num den : Nat) : Binary64 :=
  ofRank negative (nearestRank num den)

def signedUnits (negative : Bool) (rank : Nat) : Int :=
  if negative then -(units rank : Int) else units rank

/-- The sum.  A sum of exactly zero is negative only if both terms are negative. -/
def add : Binary64 → Binary64 → Binary64
  | .finite s a, .finite t b =>
      let sum := signedUnits s a + signedUnits t b
      if sum = 0 then ofRank (s && t) 0 else nearest (sum < 0) sum.natAbs 1
  | .nan, _ => .nan
  | _, .nan => .nan
  | .infinite s, .infinite t => if s = t then .infinite s else .nan
  | .infinite s, .finite _ _ => .infinite s
  | .finite _ _, .infinite t => .infinite t

def sub (x y : Binary64) : Binary64 := add x y.neg

def mul : Binary64 → Binary64 → Binary64
  | .finite s a, .finite t b => nearest (s != t) (units a * units b) unitsPerOne
  | .nan, _ => .nan
  | _, .nan => .nan
  | .infinite s, .infinite t => .infinite (s != t)
  | .infinite s, .finite t b => if b.val = 0 then .nan else .infinite (s != t)
  | .finite s a, .infinite t => if a.val = 0 then .nan else .infinite (s != t)

def div : Binary64 → Binary64 → Binary64
  | .finite s a, .finite t b =>
      if b.val = 0 then (if a.val = 0 then .nan else .infinite (s != t))
      else nearest (s != t) (units a * unitsPerOne) (units b)
  | .nan, _ => .nan
  | _, .nan => .nan
  | .infinite _, .infinite _ => .nan
  | .infinite s, .finite t _ => .infinite (s != t)
  | .finite s _, .infinite t => ofRank (s != t) 0

end Binary64

end FourFunction
