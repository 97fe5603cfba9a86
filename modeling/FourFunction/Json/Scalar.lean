import FourFunction.Json.Numeral

/-!
# Reading JSON scalars

A reader takes a value off the front of a text, blanks before it included, and gives the value and
what follows it.
-/

namespace FourFunction.Json

def isGap (c : Char) : Bool := c == ' ' || c == '\n' || c == '\t' || c == '\r'

def skipGap (s : List Char) : List Char := s.dropWhile isGap

def word : List Char → List Char → Except Fault (List Char)
  | [], s => .ok s
  | _ :: _, [] => .error .truncated
  | w :: ws, c :: s => if c = w then word ws s else .error .malformed

/-! ### Strings -/

def hexDigit? (c : Char) : Option Nat :=
  if c.isDigit then some (c.toNat - '0'.toNat)
  else if 'a' ≤ c ∧ c ≤ 'f' then some (c.toNat - 'a'.toNat + 10)
  else if 'A' ≤ c ∧ c ≤ 'F' then some (c.toNat - 'A'.toNat + 10)
  else none

/-- A text ends too early for four digits if it has fewer than four bytes in UTF-8. -/
def hexUnit (s : List Char) : Except Fault Nat :=
  match s with
  | a :: b :: c :: d :: _ =>
    match hexDigit? a, hexDigit? b, hexDigit? c, hexDigit? d with
    | some a, some b, some c, some d => .ok (((a * 16 + b) * 16 + c) * 16 + d)
    | _, _, _, _ => .error .malformed
  | _ => .error (if (s.map Char.utf8Size).foldr (· + ·) 0 < 4 then .truncated else .malformed)

def isHighSurrogate (unit : Nat) : Bool := 0xD800 ≤ unit && unit ≤ 0xDBFF

def isLowSurrogate (unit : Nat) : Bool := 0xDC00 ≤ unit && unit ≤ 0xDFFF

def ofSurrogates (high low : Nat) : Char :=
  Char.ofNat (0x10000 + (high - 0xD800) * 0x400 + (low - 0xDC00))

/-- The character of the units after `\u`, and the number of characters they take. -/
def unicodeEscape (s : List Char) : Except Fault (Char × Nat) := do
  let unit ← hexUnit s
  if isLowSurrogate unit then .error .malformed
  else if isHighSurrogate unit then
    match s.drop 4 with
    | [] | ['\\'] => .error .truncated
    | '\\' :: 'u' :: rest => do
      let low ← hexUnit rest
      if isLowSurrogate low then .ok (ofSurrogates unit low, 10) else .error .malformed
    | _ => .error .malformed
  else .ok (Char.ofNat unit, 4)

def shortEscape? : Char → Option Char
  | '"' => some '"'
  | '\\' => some '\\'
  | '/' => some '/'
  | 'b' => some '\x08'
  | 'f' => some '\x0c'
  | 'n' => some '\n'
  | 'r' => some '\r'
  | 't' => some '\t'
  | _ => none

/-- The character an escape stands for, and the number of characters it takes. -/
def escaped : List Char → Except Fault (Char × Nat)
  | [] => .error .truncated
  | 'u' :: s => (unicodeEscape s).map fun (c, taken) => (c, taken + 1)
  | c :: _ =>
    match shortEscape? c with
    | some d => .ok (d, 1)
    | none => .error .malformed

def isControl (c : Char) : Bool := c.toNat < 0x20

def stringBody : List Char → Except Fault (List Char × List Char)
  | [] => .error .truncated
  | '"' :: s => .ok ([], s)
  | '\\' :: s => do
    let (c, taken) ← escaped s
    let (cs, rest) ← stringBody (s.drop taken)
    .ok (c :: cs, rest)
  | c :: s =>
    if isControl c then .error .malformed
    else do
      let (cs, rest) ← stringBody s
      .ok (c :: cs, rest)
termination_by s => s.length

/-! ### Readers -/

/-- Takes a scalar of any kind. -/
def scalar : List Char → Except Fault (List Char)
  | [] => .error .truncated
  | 'n' :: s => word ['u', 'l', 'l'] s
  | 't' :: s => word ['r', 'u', 'e'] s
  | 'f' :: s => word ['a', 'l', 's', 'e'] s
  | '"' :: s => (stringBody s).map Prod.snd
  | c :: s =>
    if startsNumeral c then (finiteNumeral (c :: s)).map Prod.snd else .error .malformed

/-- A scalar of the wrong kind is read to its end, an array or object refused at once. -/
def wrongKind (s : List Char) : Fault :=
  match s with
  | '[' :: _ | '\x7b' :: _ => .mismatch
  | _ =>
    match scalar s with
    | .ok _ => .mismatch
    | .error fault => fault

def readNumber : Reader Binary64 := fun s => do
  let s := skipGap s
  if s.head?.any startsNumeral then
    let (n, rest) ← finiteNumeral s
    .ok (n.toBinary64, rest)
  else .error (wrongKind s)

/-- Reads a natural number below `2 ^ 64`. -/
def readNatural : Reader UInt64 := fun s => do
  let s := skipGap s
  if s.head?.any startsNumeral then
    let (n, rest) ← finiteNumeral s
    match n.natural? with
    | some value =>
      if value < UInt64.size then .ok (UInt64.ofNat value, rest) else .error .mismatch
    | none => .error .mismatch
  else .error (wrongKind s)

def readString : Reader String := fun s =>
  match skipGap s with
  | '"' :: s => (stringBody s).map fun (cs, rest) => (String.ofList cs, rest)
  | s => .error (wrongKind s)

def readBoolean : Reader Bool := fun s =>
  match skipGap s with
  | 't' :: s => (word ['r', 'u', 'e'] s).map (true, ·)
  | 'f' :: s => (word ['a', 'l', 's', 'e'] s).map (false, ·)
  | s => .error (wrongKind s)

def readNull : Reader Unit := fun s =>
  match skipGap s with
  | 'n' :: s => (word ['u', 'l', 'l'] s).map ((), ·)
  | s => .error (wrongKind s)

def parse (reader : Reader α) (text : String) : Except Fault α := do
  let (value, rest) ← reader text.toList
  if (skipGap rest).isEmpty then .ok value else .error .malformed

end FourFunction.Json
