import FourFunction.Console.Settings

/-!
# Switches of the command line

There are two levels of switches: those of the program itself, and those of the command that it
runs.
-/

namespace FourFunction

inductive CommandName where
  | eval
  | tokens
  | keys
  | repl
  | help
deriving DecidableEq, Inhabited

namespace CommandName

def word : CommandName → String
  | eval => "eval"
  | tokens => "tokens"
  | keys => "keys"
  | repl => "repl"
  | help => "help"

def all : List CommandName := [eval, tokens, keys, repl, help]

def ofWord? (text : String) : Option CommandName := all.find? (·.word == text)

end CommandName

inductive UsageError where
  | nothingGiven
  | missingCommand
  | missingArgument
  | unknownArgument
  | unknownCommand
  /-- A switch has no value, or none that it admits. -/
  | invalidValue
  | unreadableNumber
  | repeatedSwitch
  | unneededValue
  | helpAsked
  /-- The level is that of a command or of the program. -/
  | versionAsked (command : Option CommandName)
deriving DecidableEq, Inhabited

inductive Switch where
  | verbose
  | quiet
  | color
  | format
  | help
  | version
  | detailedErrors
  | historySize
  | historyFile
deriving DecidableEq, Inhabited

namespace Switch

def name : Switch → String
  | verbose => "verbose"
  | quiet => "quiet"
  | color => "color"
  | format => "format"
  | help => "help"
  | version => "version"
  | detailedErrors => "detailed-errors"
  | historySize => "history-size"
  | historyFile => "history-file"

def letter? : Switch → Option Char
  | verbose => some 'v'
  | quiet => some 'q'
  | help => some 'h'
  | version => some 'V'
  | _ => none

def takesValue : Switch → Bool
  | color | format | historySize | historyFile => true
  | _ => false

def shared : List Switch := [verbose, quiet, color, format, help, version]

end Switch

/-! ### Values -/

def ColorChoice.ofWord? : String → Option ColorChoice
  | "auto" => some .auto
  | "always" => some .always
  | "never" => some .never
  | _ => none

def OutputFormat.ofWord? : String → Option OutputFormat
  | "text" => some .text
  | "json" => some .json
  | _ => none

/-- The number a text holds: digits, with a plus sign or none, below `2 ^ 64`. -/
def sizeOfText? (text : String) : Option Nat :=
  let digits := match text.toList with
    | '+' :: s => s
    | s => s
  let value := Nat.ofDigitChars 10 digits 0
  if !digits.isEmpty && digits.all Char.isDigit && value < UInt64.size then some value else none

structure Given where
  verbose : Nat
  quiet : Bool
  color : Option ColorChoice
  format : Option OutputFormat
  detailedErrors : Bool
  historySize : Option Nat
  historyFile : Option String
deriving DecidableEq, Inhabited

namespace Given

def nothing : Given := ⟨0, false, none, none, false, none, none⟩

def has (g : Given) : Switch → Bool
  | .color => g.color.isSome
  | .format => g.format.isSome
  | .historySize => g.historySize.isSome
  | .historyFile => g.historyFile.isSome
  | .quiet => g.quiet
  | .detailedErrors => g.detailedErrors
  | .verbose | .help | .version => false

/-- That a switch is repeated counts before what its value is. -/
def set (g : Given) (switch : Switch) (value : String) : Except UsageError Given :=
  if g.has switch then .error .repeatedSwitch
  else match switch with
    | .color =>
      match ColorChoice.ofWord? value with
      | some choice => .ok { g with color := some choice }
      | none => .error .invalidValue
    | .format =>
      match OutputFormat.ofWord? value with
      | some format => .ok { g with format := some format }
      | none => .error .invalidValue
    | .historySize =>
      match sizeOfText? value with
      | some size => .ok { g with historySize := some size }
      | none => .error .unreadableNumber
    | .historyFile =>
      if value.isEmpty then .error .invalidValue else .ok { g with historyFile := some value }
    | _ => .error .unneededValue

/-- Verbose switches are counted, up to 255. -/
def raise (g : Given) (command : Option CommandName) (switch : Switch) : Except UsageError Given :=
  if g.has switch then .error .repeatedSwitch
  else match switch with
    | .verbose => .ok { g with verbose := min (g.verbose + 1) 255 }
    | .quiet => .ok { g with quiet := true }
    | .detailedErrors => .ok { g with detailedErrors := true }
    | .help => .error .helpAsked
    | .version => .error (.versionAsked command)
    | _ => .error .invalidValue

end Given

end FourFunction
