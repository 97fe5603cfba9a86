import FourFunction.Json.Scalar

/-!
# Passing over JSON values

`skip` looks at the form of a value only: numbers of any size pass, and so do escapes of single
surrogates.  A list of the open brackets lets them nest without limit.
-/

namespace FourFunction.Json

def skipString : List Char → Except Fault (List Char)
  | [] => .error .truncated
  | '"' :: s => .ok s
  | ['\\'] => .error .truncated
  | '\\' :: 'u' :: s => do
    let _ ← hexUnit s
    skipString (s.drop 4)
  | '\\' :: c :: s => if (shortEscape? c).isSome then skipString s else .error .malformed
  | c :: s => if isControl c then .error .malformed else skipString s
termination_by s => s.length

/-- A number that ends too early counts as malformed. -/
def skipScalar : List Char → Except Fault (List Char)
  | '"' :: s => skipString s
  | c :: s =>
    if startsNumeral c then
      match numeral (c :: s) with
      | .ok (_, rest) => .ok rest
      | .error _ => .error .malformed
    else scalar (c :: s)
  | [] => .error .truncated

inductive Bracket where
  | array
  | object
deriving DecidableEq

def Bracket.closing : Bracket → Char
  | array => ']'
  | object => '\x7d'

inductive Expected where
  | value
  /-- What comes first in an open bracket, or its end. -/
  | first
  | name
  | separator

def Bracket.item : Bracket → Expected
  | array => .value
  | object => .name

def skipName (s : List Char) : Except Fault (List Char) :=
  match s with
  | '"' :: s => do
    let rest ← skipString s
    match skipGap rest with
    | ':' :: rest => .ok rest
    | [] => .error .truncated
    | _ => .error .malformed
  | _ => .error .malformed

/-- Gives what is expected next, which brackets are open then, and the rest. -/
def skipStep (expected : Expected) (brackets : List Bracket) (c : Char) (s : List Char) :
    Except Fault (Expected × List Bracket × List Char) :=
  match expected, brackets with
  | .value, _ => value
  | .first, bracket :: outer =>
    if c = bracket.closing then .ok (.separator, outer, s)
    else match bracket with
      | .array => value
      | .object => name
  | .name, _ => name
  | .separator, bracket :: outer =>
    if c = ',' then .ok (bracket.item, brackets, s)
    else if c = bracket.closing then .ok (.separator, outer, s)
    else .error .malformed
  | _, [] => .error .malformed
where
  value : Except Fault (Expected × List Bracket × List Char) :=
    if c = '[' then .ok (.first, .array :: brackets, s)
    else if c = '\x7b' then .ok (.first, .object :: brackets, s)
    else (skipScalar (c :: s)).map (.separator, brackets, ·)
  name : Except Fault (Expected × List Bracket × List Char) :=
    (skipName (c :: s)).map (.value, brackets, ·)

/-- Each step takes a character at least; the check of that ends the recursion. -/
def skipFrom (expected : Expected) (brackets : List Bracket) (s : List Char) :
    Except Fault (List Char) :=
  match expected, brackets with
  | .separator, [] => .ok s
  | _, _ =>
    match skipGap s with
    | [] => .error .truncated
    | c :: afterGap => do
      let (expected, brackets, rest) ← skipStep expected brackets c afterGap
      if _h : rest.length < s.length then skipFrom expected brackets rest else .error .malformed
termination_by s.length

def skip (s : List Char) : Except Fault (List Char) := skipFrom .value [] s

end FourFunction.Json
