import FourFunction.Console.Arguments
import FourFunction.Console.Repl

/-!
# The program as a function
-/

namespace FourFunction

namespace Program

/-- What a run finds around it. -/
structure Surroundings where
  /-- The variable that names the format where no switch does. -/
  formatVariable : Option String
  interactive : Bool
  /-- Whether the output is a terminal that shows colors. -/
  showsColors : Bool
  clock : Clock
  input : List UInt8
  files : String → HistoryFile

structure Effects where
  exitCode : UInt8
  output : String
  errors : String
  /-- A file to write, and its content. -/
  saved : Option (String × HistoryFile)
deriving Inhabited

/-- On the level of a command, a hyphen and the command follow the name of the program. -/
def title : Option CommandName → String
  | none => "quadcalc"
  | some command => "quadcalc-" ++ command.word

def version (command : Option CommandName) : String := title command ++ " 0.4.1\n"

def usage : String :=
  "Four-function arithmetic evaluator\n\n" ++
  "Usage: quadcalc [OPTIONS] <COMMAND>\n\n" ++
  "Commands:\n" ++
  "  eval <EXPRESSION>...                  Evaluate an expression and print the result\n" ++
  "  tokens <EXPRESSION>...                Print the tokens of an expression\n" ++
  "  keys [--detailed-errors] <KEYS>       Press keypad keys and print the display\n" ++
  "  repl [--history-size <N>] [--history-file <FILE>]\n" ++
  "                                        Read expressions, one per line\n" ++
  "  help                                  Print this help\n\n" ++
  "Options:\n" ++
  "  -v, --verbose          Verbosity level\n" ++
  "  -q, --quiet            Errors only\n" ++
  "      --color <WHEN>     auto, always or never\n" ++
  "      --format <FORMAT>  text or json\n" ++
  "  -h, --help             Print help\n" ++
  "  -V, --version          Print version\n"

/-- What is said of arguments that cannot be run. -/
def complaint : UsageError → String
  | .nothingGiven => ""
  | .missingCommand => "error: a command is required\n\n"
  | .missingArgument => "error: the command needs an argument\n\n"
  | .unknownArgument => "error: unexpected argument\n\n"
  | .unknownCommand => "error: unrecognized command\n\n"
  | .invalidValue => "error: invalid value for an option\n\n"
  | .unreadableNumber => "error: invalid number for an option\n\n"
  | .repeatedSwitch => "error: an option cannot be used multiple times\n\n"
  | .unneededValue => "error: unexpected value for an option\n\n"
  | .helpAsked | .versionAsked _ => ""

def refuse (e : UsageError) : Effects :=
  match e with
  | .helpAsked => ⟨0, usage, "", none⟩
  | .versionAsked command => ⟨0, version command, "", none⟩
  | e => ⟨2, "", complaint e ++ usage, none⟩

def conclude (outcome : Outcome) (saved : Option (String × HistoryFile)) : Effects :=
  match outcome.error with
  | none => ⟨0, outcome.output, "", saved⟩
  | some e => ⟨1, outcome.output, "Error: " ++ e.message ++ "\n", saved⟩

def settings (i : Invocation) : Settings :=
  { verbosity := .ofFlags i.quiet i.verbose
    color := i.color
    format := i.format
    detailedErrors := match i.task with
      | .keys _ detailed => detailed
      | _ => false }

/-- Colors are shown only where the output shows them. -/
def printer (i : Invocation) (showsColors : Bool) : Printer :=
  ⟨i.format, i.color.colors showsColors && showsColors⟩

/-- It prompts on a terminal, unless it is quiet. -/
def repl (i : Invocation) (around : Surroundings) : Repl :=
  { printer := printer i around.showsColors
    prompts := around.interactive && !(settings i).verbosity.isQuiet
    clock := around.clock }

def execute (i : Invocation) (around : Surroundings) : Effects :=
  let p := printer i around.showsColors
  match i.task with
  | .eval expression => conclude (Command.eval p expression) none
  | .tokens expression => conclude (Command.tokens p expression) none
  | .keys keys _ => conclude (Command.keys p (settings i).errorStyle keys) none
  | .repl size path? =>
    let file := (path?.map around.files).getD .unused
    let outcome := (repl i around).run size file around.input
    conclude outcome.toOutcome (path?.map fun path => (path, outcome.file))

def run (arguments : List String) (around : Surroundings) : Effects :=
  match Invocation.ofArguments arguments around.formatVariable with
  | .error e => refuse e
  | .ok invocation => execute invocation around

end Program

end FourFunction
