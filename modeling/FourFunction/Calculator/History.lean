import FourFunction.Decimal.Text
import FourFunction.Json.Composite
import FourFunction.Json.Text

/-!
# The history of results

A history keeps the newest results.  It is saved as a JSON array and can be read back with another
capacity.
-/

namespace FourFunction

/-- An evaluated expression, its unrounded value and its time in milliseconds since 1970. -/
structure Entry where
  expression : String
  result : Binary64
  timestamp : UInt64
deriving DecidableEq, Inhabited

/-- The newest results, oldest first. -/
structure History where
  entries : List Entry
  capacity : Nat
deriving DecidableEq, Inhabited

/-! ### Entries -/

namespace Entry

def line (e : Entry) : String := e.expression ++ " = " ++ e.result.resultText

def toJson (e : Entry) : String :=
  Json.object
    [("expression", Json.quote e.expression), ("result", Json.number e.result),
      ("timestamp", Json.natural e.timestamp.toNat)]

/-- What is read of an entry so far. -/
structure Slots where
  expression : Option String
  result : Option Binary64
  timestamp : Option UInt64

def fields : List (Json.Field Slots) :=
  [⟨"expression", (·.expression.isSome), fun slots s =>
      (Json.readString s).map fun (x, rest) => ({ slots with expression := some x }, rest)⟩,
    ⟨"result", (·.result.isSome), fun slots s =>
      (Json.readNumber s).map fun (x, rest) => ({ slots with result := some x }, rest)⟩,
    ⟨"timestamp", (·.timestamp.isSome), fun slots s =>
      (Json.readNatural s).map fun (x, rest) => ({ slots with timestamp := some x }, rest)⟩]

def Slots.entry? (slots : Slots) : Option Entry := do
  some ⟨← slots.expression, ← slots.result, ← slots.timestamp⟩

def read : Json.Reader Entry := Json.readRecord fields ⟨none, none, none⟩ Slots.entry?

end Entry

/-! ### Histories -/

namespace History

def defaultCapacity : Nat := 100

def empty (capacity : Nat) : History := ⟨[], max capacity 1⟩

def length (h : History) : Nat := h.entries.length

def isEmpty (h : History) : Bool := h.entries.isEmpty

/-- A full history loses its oldest entry first. -/
def record (h : History) (e : Entry) : History :=
  let kept := if h.entries.length = h.capacity then h.entries.drop 1 else h.entries
  { h with entries := kept ++ [e] }

def clear (h : History) : History := { h with entries := [] }

def lines (h : History) : String := "\n".intercalate (h.entries.map Entry.line)

def toJson (h : History) : String := Json.array (h.entries.map Entry.toJson)

def ofEntries (entries : List Entry) (capacity : Nat) : History :=
  let bound := max capacity 1
  ⟨entries.drop (entries.length - bound), bound⟩

/-- The history that a JSON text holds, cut down to a capacity. -/
def ofJson (text : String) (capacity : Nat) : Except Json.Fault History :=
  (Json.parse (Json.readList Entry.read) text).map (ofEntries · capacity)

end History

end FourFunction
