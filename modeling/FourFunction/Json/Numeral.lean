import FourFunction.Decimal.Numeral

/-!
# Reading JSON numbers

The value of a number is computed in binary64 arithmetic from the digits that fit in 64 bits, so it
may be off the nearest one.
-/

namespace FourFunction

/-! ### Values -/

namespace Decimal

def powerOfTen (k : Nat) : Binary64 := (⟨1, k⟩ : Decimal).toBinary64 false

/-- Divides by `10 ^ 308` the given number of times, or until nothing is left. -/
def divideDown : Nat → Binary64 → Binary64
  | 0, x => x
  | n + 1, x => if x.isZero then x else divideDown n (x.div (powerOfTen 308))

/-- The coefficient times or over a power of ten, rounded at each step. -/
def scaled (d : Decimal) : Binary64 :=
  let coefficient := (⟨d.coefficient, 0⟩ : Decimal).toBinary64 false
  let places := d.exponent.natAbs
  if d.exponent < 0 then
    let steps := (places - 1) / 308
    (divideDown steps coefficient).div (powerOfTen (places - 308 * steps))
  else if places ≤ 308 then coefficient.mul (powerOfTen places)
  else if coefficient.isZero then coefficient
  else .infinite false

end Decimal

namespace Json

structure Numeral where
  negative : Bool
  whole : List Char
  fraction : List Char
  exponent : Option Int
deriving DecidableEq, Inhabited

namespace Numeral

/-- Appends digits to a number below `2 ^ 64`; gives it and the digits left over. -/
def absorb (n : Nat) : List Char → Nat × List Char
  | [] => (n, [])
  | c :: cs =>
    let next := 10 * n + (c.toNat - '0'.toNat)
    if next < UInt64.size then absorb next cs else (n, c :: cs)

/-- Digits left over keep their places in front of the point and are dropped behind it. -/
def kept (n : Numeral) : Decimal :=
  let (whole, excess) := absorb 0 n.whole
  let (coefficient, dropped) := absorb whole n.fraction
  ⟨coefficient, n.exponent.getD 0 + excess.length - (n.fraction.length - dropped.length : Nat)⟩

def toBinary64 (n : Numeral) : Binary64 :=
  if n.negative then n.kept.scaled.neg else n.kept.scaled

/-- The natural number a numeral holds, if it has neither sign nor point nor exponent. -/
def natural? (n : Numeral) : Option Nat :=
  if n.negative || !n.fraction.isEmpty || n.exponent.isSome then none
  else some (Nat.ofDigitChars 10 n.whole 0)

end Numeral

/-! ### Texts -/

inductive Fault where
  | malformed
  /-- The text is JSON so far, but not the value that was asked for. -/
  | mismatch
  | truncated
deriving DecidableEq, Inhabited

abbrev Reader (α : Type) := List Char → Except Fault (α × List Char)

def digits (s : List Char) : Except Fault (List Char × List Char) :=
  let (run, rest) := splitDigits s
  if run.isEmpty then .error (if s.isEmpty then .truncated else .malformed) else .ok (run, rest)

def wholePart (s : List Char) : Except Fault (List Char × List Char) := do
  let (run, rest) ← digits s
  if run.head? = some '0' ∧ run.length ≠ 1 then .error .malformed else .ok (run, rest)

def fractionPart : List Char → Except Fault (List Char × List Char)
  | '.' :: s => digits s
  | s => .ok ([], s)

def exponentPart : List Char → Except Fault (Option Int × List Char)
  | c :: s =>
    if c = 'e' ∨ c = 'E' then do
      let (negative, afterSign) := splitSign s
      let (run, rest) ← digits afterSign
      .ok (some (signedValue negative run), rest)
    else .ok (none, c :: s)
  | [] => .ok (none, [])

def numeral (s : List Char) : Except Fault (Numeral × List Char) := do
  let negative := s.head? = some '-'
  let (whole, afterWhole) ← wholePart (if negative then s.drop 1 else s)
  let (fraction, afterFraction) ← fractionPart afterWhole
  let (exponent, rest) ← exponentPart afterFraction
  .ok (⟨negative, whole, fraction, exponent⟩, rest)

def finiteNumeral (s : List Char) : Except Fault (Numeral × List Char) := do
  let (n, rest) ← numeral s
  if n.toBinary64.isFinite then .ok (n, rest) else .error .malformed

def startsNumeral (c : Char) : Bool := c == '-' || c.isDigit

end Json

end FourFunction
