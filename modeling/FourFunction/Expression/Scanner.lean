import FourFunction.Decimal.Numeral
import FourFunction.Expression.Error
import FourFunction.Expression.Token

/-!
# Scanning a text into tokens

A `Scanner` is a place in a text.  It can be used again after an error: it then stands before the
offending character, or behind a number that was read and refused.
-/

namespace FourFunction

/-! ### Blanks -/

/-- Whether a character has the property `White_Space`. -/
def isBlank (c : Char) : Bool :=
  let n := c.toNat
  (9 ≤ n && n ≤ 13) || n == 32 || n == 0x85 || n == 0xA0 || n == 0x1680 ||
    (0x2000 ≤ n && n ≤ 0x200A) || n == 0x2028 || n == 0x2029 || n == 0x202F || n == 0x205F ||
    n == 0x3000

def trimBlanks (text : String) : String :=
  String.ofList (((text.toList.dropWhile isBlank).reverse.dropWhile isBlank).reverse)

/-! ### One token -/

/-- A number out of range is named by its first character. -/
def numberToken (first : Char) (whole fraction : List Char) : Except LexError Token :=
  let value := (Decimal.ofParts whole fraction 0).toBinary64 false
  if value.isFinite then .ok (.number value) else .error ⟨.literalOutOfRange, first, 0⟩

/-- Reads a number that starts with `first`, a digit or a point.  Gives the count of characters
read, and the token or an error placed from the front of the text. -/
def scanNumber (first : Char) (rest : List Char) : Nat × Except LexError Token :=
  let (whole, afterWhole) := splitDigits (first :: rest)
  match afterWhole with
  | '.' :: afterPoint =>
      let (fraction, afterFraction) := splitDigits afterPoint
      let taken := whole.length + 1 + fraction.length
      (taken,
        if afterFraction.head? = some '.' then .error ⟨.extraDecimalPoint, '.', taken⟩
        else if whole.isEmpty && fraction.isEmpty then .error ⟨.bareDecimalPoint, '.', 0⟩
        else numberToken first whole fraction)
  | _ => (whole.length, numberToken first whole [])

def startsNumber (c : Char) : Bool := c.isDigit || c == '.'

/-- Reads a token that starts with `first`, no blank. -/
def scanToken (first : Char) (rest : List Char) : Nat × Except LexError Token :=
  if startsNumber first then scanNumber first rest
  else match Operator.ofChar? first with
    | some op => (1, .ok (.operator op))
    | none => (0, .error ⟨.unexpectedChar, first, 0⟩)

theorem scanNumber_pos {first : Char} {rest : List Char} (h : startsNumber first = true) :
    0 < (scanNumber first rest).1 := by
  simp only [scanNumber, splitDigits]
  split
  · omega
  · next hne =>
    by_cases hd : first.isDigit = true
    · simp [hd]
    · have hp : first = '.' := by simpa [startsNumber, hd] using h
      subst hp
      exact absurd rfl (hne rest)

theorem scanToken_pos {first : Char} {rest : List Char} {t : Token}
    (h : (scanToken first rest).2 = .ok t) : 0 < (scanToken first rest).1 := by
  unfold scanToken at h ⊢
  split at h
  · next hs => rw [if_pos hs]; exact scanNumber_pos hs
  · next hs =>
    rw [if_neg hs]
    split at h
    · simp
    · simp at h

/-! ### Places in a text -/

/-- What is still to be read, and how much was read, in characters and in bytes. -/
structure Scanner where
  rest : List Char
  column : Nat
  offset : Nat
deriving DecidableEq, Inhabited

namespace Scanner

def ofText (text : String) : Scanner := ⟨text.toList, 0, 0⟩

def byteCount (s : List Char) : Nat := (s.map Char.utf8Size).foldr (· + ·) 0

def advance (s : Scanner) (n : Nat) : Scanner :=
  ⟨s.rest.drop n, s.column + n, s.offset + byteCount (s.rest.take n)⟩

def skipBlanks (s : Scanner) : Scanner := s.advance (s.rest.takeWhile isBlank).length

/-- There is no token at the end of the text. -/
def next (s : Scanner) : Except LexError (Option Token) × Scanner :=
  let start := s.skipBlanks
  match start.rest with
  | [] => (.ok none, start)
  | first :: rest =>
      match scanToken first rest with
      | (taken, .ok token) => (.ok (some token), start.advance taken)
      | (taken, .error e) => (.error (e.shifted start.column), start.advance taken)

theorem length_rest_skipBlanks_le (s : Scanner) : s.skipBlanks.rest.length ≤ s.rest.length := by
  simp [skipBlanks, advance]

theorem length_rest_lt_of_next {s s' : Scanner} {t : Token} (h : s.next = (.ok (some t), s')) :
    s'.rest.length < s.rest.length := by
  have hle := s.length_rest_skipBlanks_le
  unfold next at h
  dsimp only at h
  split at h
  · simp at h
  · next first rest hrest =>
    split at h
    · next taken token hscan =>
      have hpos : 0 < (scanToken first rest).1 := scanToken_pos (by rw [hscan])
      rw [hscan] at hpos
      simp only [Prod.mk.injEq] at h
      rw [← h.2]
      simp only [advance, List.length_drop]
      rw [hrest] at hle ⊢
      simp only [List.length_cons] at hle ⊢
      omega
    · simp at h

/-- Reads the tokens up to the end of the text or the first error. -/
def all (s : Scanner) : Except LexError (List Token) × Scanner :=
  match _h : s.next with
  | (.error e, s') => (.error e, s')
  | (.ok none, s') => (.ok [], s')
  | (.ok (some token), s') =>
      let (tokens, last) := s'.all
      (tokens.map (token :: ·), last)
termination_by s.rest.length
decreasing_by exact length_rest_lt_of_next _h

end Scanner

def tokenize (text : String) : Except LexError (List Token) := (Scanner.ofText text).all.1

end FourFunction
