import FourFunction.Calculator.Session
import FourFunction.Json.Composite
import FourFunction.Json.Text

/-!
# Settings of the program
-/

namespace FourFunction

inductive Verbosity where
  | quiet
  | normal
  | verbose
  | debug
deriving DecidableEq, Inhabited

inductive ColorChoice where
  | always
  | auto
  | never
deriving DecidableEq, Inhabited

inductive OutputFormat where
  | text
  | json
deriving DecidableEq, Inhabited

structure Settings where
  verbosity : Verbosity
  color : ColorChoice
  format : OutputFormat
  detailedErrors : Bool
deriving DecidableEq, Inhabited

/-! ### Meaning -/

namespace Verbosity

/-- Quiet wins over verbose flags. -/
def ofFlags (quiet : Bool) (verbose : Nat) : Verbosity :=
  if quiet then .quiet
  else match verbose with
    | 0 => .normal
    | 1 => .verbose
    | _ => .debug

def isQuiet (v : Verbosity) : Bool := v == .quiet

def isVerbose (v : Verbosity) : Bool := v == .verbose || v == .debug

/-- The least severe messages that are reported. -/
def level : Verbosity → String
  | quiet => "error"
  | normal => "warn"
  | verbose => "debug"
  | debug => "trace"

def name : Verbosity → String
  | quiet => "Quiet"
  | normal => "Normal"
  | verbose => "Verbose"
  | debug => "Debug"

def all : List Verbosity := [quiet, normal, verbose, debug]

end Verbosity

namespace ColorChoice

/-- Whether output is colored, given whether it is a terminal. -/
def colors (choice : ColorChoice) (terminal : Bool) : Bool :=
  match choice with
  | always => true
  | auto => terminal
  | never => false

def name : ColorChoice → String
  | always => "Always"
  | auto => "Auto"
  | never => "Never"

def all : List ColorChoice := [always, auto, never]

end ColorChoice

namespace OutputFormat

def name : OutputFormat → String
  | text => "Text"
  | json => "Json"

def all : List OutputFormat := [text, json]

end OutputFormat

def Settings.errorStyle (s : Settings) : ErrorStyle :=
  if s.detailedErrors then .detailed else .brief

/-! ### JSON -/

namespace Settings

def toJson (s : Settings) : String :=
  Json.object
    [("verbosity", Json.quote s.verbosity.name), ("color", Json.quote s.color.name),
      ("format", Json.quote s.format.name), ("detailed_errors", Json.boolean s.detailedErrors)]

structure Slots where
  verbosity : Option Verbosity
  color : Option ColorChoice
  format : Option OutputFormat
  detailedErrors : Option Bool

def fields : List (Json.Field Slots) :=
  [⟨"verbosity", (·.verbosity.isSome), fun slots s =>
      (Json.readChoice (Verbosity.all.map fun v => .constant v.name v) s).map
        fun (x, rest) => ({ slots with verbosity := some x }, rest)⟩,
    ⟨"color", (·.color.isSome), fun slots s =>
      (Json.readChoice (ColorChoice.all.map fun v => .constant v.name v) s).map
        fun (x, rest) => ({ slots with color := some x }, rest)⟩,
    ⟨"format", (·.format.isSome), fun slots s =>
      (Json.readChoice (OutputFormat.all.map fun v => .constant v.name v) s).map
        fun (x, rest) => ({ slots with format := some x }, rest)⟩,
    ⟨"detailed_errors", (·.detailedErrors.isSome), fun slots s =>
      (Json.readBoolean s).map fun (x, rest) => ({ slots with detailedErrors := some x }, rest)⟩]

def Slots.settings? (slots : Slots) : Option Settings := do
  some ⟨← slots.verbosity, ← slots.color, ← slots.format, ← slots.detailedErrors⟩

/-- Every field is required. -/
def ofJson (text : String) : Except Json.Fault Settings :=
  Json.parse (Json.readRecord fields ⟨none, none, none, none⟩ Slots.settings?) text

end Settings

end FourFunction
