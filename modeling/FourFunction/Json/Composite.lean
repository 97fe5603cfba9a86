import FourFunction.Json.Skip

/-!
# Reading JSON arrays, objects and choices

`readList` reads an array of like values, `readRecord` a record from an object or from an array of
its values in order, and `readChoice` a tagged alternative.
-/

namespace FourFunction.Json

variable {α σ : Type}

/-- Only a string can be a name: any other value there is malformed. -/
def memberName : Reader String := fun s =>
  match skipGap s with
  | [] => .error .truncated
  | '"' :: s => (stringBody s).map fun (cs, rest) => (String.ofList cs, rest)
  | _ => .error .malformed

def colon (s : List Char) : Except Fault (List Char) :=
  match skipGap s with
  | ':' :: rest => .ok rest
  | [] => .error .truncated
  | _ => .error .malformed

/-! ### Arrays -/

/-- An item takes a character at least; the check of that ends the recursion. -/
def readItems (item : Reader α) (s : List Char) : Except Fault (List α × List Char) :=
  match skipGap s with
  | ']' :: rest => .ok ([], rest)
  | ',' :: afterComma => do
    let (a, rest) ← item afterComma
    if _h : rest.length < s.length then
      let (as, last) ← readItems item rest
      .ok (a :: as, last)
    else .error .malformed
  | [] => .error .truncated
  | _ => .error .malformed
termination_by s.length

def readList (item : Reader α) : Reader (List α) := fun s =>
  match skipGap s with
  | '[' :: afterBracket =>
    match skipGap afterBracket with
    | ']' :: rest => .ok ([], rest)
    | _ => do
      let (a, rest) ← item afterBracket
      let (as, last) ← readItems item rest
      .ok (a :: as, last)
  | s => .error (wrongKind s)

/-! ### Records -/

/-- One field of a record that is read into slots. -/
structure Field (σ : Type) where
  name : String
  isSet : σ → Bool
  read : σ → Reader σ

def nextValue? (first : Bool) (s : List Char) : Except Fault (Option (List Char)) :=
  match skipGap s with
  | [] => .error .truncated
  | ']' :: _ => .ok none
  | c :: rest =>
    if first then .ok (some (c :: rest))
    else if c = ',' then .ok (some rest)
    else .error .malformed

/-- Reads the fields as the values of an array. -/
def readInOrder (first : Bool) (slots : σ) : List (Field σ) → List Char →
    Except Fault (σ × List Char)
  | [], s =>
    match skipGap s with
    | ']' :: rest => .ok (slots, rest)
    | [] => .error .truncated
    | _ => .error .malformed
  | field :: fields, s => do
    match ← nextValue? first s with
    | none => .error .mismatch
    | some s =>
      let (slots, rest) ← field.read slots s
      readInOrder false slots fields rest

def nextName? (first : Bool) (s : List Char) : Except Fault (Option (String × List Char)) :=
  match skipGap s with
  | [] => .error .truncated
  | '\x7d' :: _ => .ok none
  | c :: rest =>
    if first then (memberName (c :: rest)).map some
    else if c = ',' then (memberName rest).map some
    else .error .malformed

/-- A field goes to its slot, which must be empty; any other member is passed over. -/
def readMember (fields : List (Field σ)) (slots : σ) (name : String) (s : List Char) :
    Except Fault (σ × List Char) :=
  match fields.find? (·.name == name) with
  | some field =>
    if field.isSet slots then .error .mismatch
    else do
      let s ← colon s
      field.read slots s
  | none => do
    let s ← colon s
    let rest ← skip s
    .ok (slots, rest)

/-- A member takes a character at least; the check of that ends the recursion. -/
def readMembers (fields : List (Field σ)) (first : Bool) (slots : σ) (s : List Char) :
    Except Fault (σ × List Char) := do
  match ← nextName? first s with
  | none => .ok (slots, (skipGap s).drop 1)
  | some (name, afterName) =>
    let (slots, rest) ← readMember fields slots name afterName
    if _h : rest.length < s.length then readMembers fields false slots rest
    else .error .malformed
termination_by s.length

/-- The slots start as `start`, and `finish` makes the record of filled slots. -/
def readRecord (fields : List (Field σ)) (start : σ) (finish : σ → Option α) :
    Reader α := fun s =>
  match skipGap s with
  | '\x7b' :: s => do
    let (slots, rest) ← readMembers fields true start s
    complete slots rest
  | '[' :: s => do
    let (slots, rest) ← readInOrder true start fields s
    complete slots rest
  | s => .error (wrongKind s)
where
  complete (slots : σ) (rest : List Char) : Except Fault (α × List Char) :=
    match finish slots with
    | some a => .ok (a, rest)
    | none => .error .mismatch

/-! ### Choices -/

/-- A value where the bare name is enough, or content where the name is a member. -/
structure Alternative (α : Type) where
  name : String
  bare? : Option α
  content : Reader α

/-- A bare name, or a member that is `null`. -/
def Alternative.constant (name : String) (a : α) : Alternative α :=
  ⟨name, some a, fun s => (readNull s).map fun (_, rest) => (a, rest)⟩

def Alternative.holding (name : String) (content : Reader α) : Alternative α :=
  ⟨name, none, content⟩

def readChoice (alternatives : List (Alternative α)) : Reader α := fun s =>
  match skipGap s with
  | '"' :: s => do
    let (name, rest) ← stringBody s
    match (named (String.ofList name)).bind (·.bare?) with
    | some a => .ok (a, rest)
    | none => .error .mismatch
  | '\x7b' :: s => do
    let (name, rest) ← memberName s
    match named name with
    | none => .error .mismatch
    | some alternative =>
      let rest ← colon rest
      let (a, rest) ← alternative.content rest
      match skipGap rest with
      | '\x7d' :: rest => .ok (a, rest)
      | [] => .error .truncated
      | _ => .error .malformed
  | [] => .error .truncated
  | _ => .error .malformed
where
  named (name : String) : Option (Alternative α) := alternatives.find? (·.name == name)

end FourFunction.Json
