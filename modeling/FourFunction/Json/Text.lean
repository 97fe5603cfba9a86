import FourFunction.Decimal.Text

/-!
# JSON texts

Compact JSON.  A string escapes the quote, the backslash and the control characters only.  A number
has the shortest digits that read back, and always a point or an exponent.
-/

namespace FourFunction.Json

/-! ### Strings -/

def fourDigits (n : Nat) : List Char := ['0', '0', Nat.digitChar (n / 16), Nat.digitChar (n % 16)]

def escape (c : Char) : List Char :=
  match c with
  | '"' => ['\\', '"']
  | '\\' => ['\\', '\\']
  | '\x08' => ['\\', 'b']
  | '\t' => ['\\', 't']
  | '\n' => ['\\', 'n']
  | '\x0c' => ['\\', 'f']
  | '\r' => ['\\', 'r']
  | c => if c.toNat < 0x20 then '\\' :: 'u' :: fourDigits c.toNat else [c]

def quote (s : String) : String := String.ofList ('"' :: s.toList.flatMap escape ++ ['"'])

/-! ### Numbers -/

def withFraction (plain : List Char) : List Char :=
  if plain.contains '.' then plain else plain ++ ['.', '0']

/-- Positional from `10 ^ (-5)` up to `10 ^ 16`, with an exponent outside. -/
def magnitude (d : Decimal) : List Char :=
  if d.coefficient = 0 ∨ (-5 ≤ d.scientificExponent ∧ d.scientificExponent < 16) then
    withFraction d.plain
  else d.scientific

/-- A number that is not finite is written as `null`. -/
def number : Binary64 → String
  | .finite s r => String.ofList (signed s (magnitude (Decimal.shortest .even r)))
  | _ => "null"

def natural (n : Nat) : String := toString n

def boolean (b : Bool) : String := if b then "true" else "false"

/-! ### Arrays and objects -/

def array (items : List String) : String := "[" ++ ",".intercalate items ++ "]"

def member (name value : String) : String := quote name ++ ":" ++ value

def object (members : List (String × String)) : String :=
  "\x7b" ++ ",".intercalate (members.map fun m => member m.1 m.2) ++ "\x7d"

end FourFunction.Json
