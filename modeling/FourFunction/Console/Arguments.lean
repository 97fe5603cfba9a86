import FourFunction.Console.Switch

/-!
# Reading the command line

The program's own switches come first, then the name of a command, then its switches and operands.
The value of a switch that stands as an argument of its own is examined only when the next switch or
operand of its level is taken, or at the end of the level.
-/

namespace FourFunction

inductive Task where
  | eval (expression : String)
  | tokens (expression : String)
  | keys (keys : String) (detailedErrors : Bool)
  | repl (historySize : Nat) (historyFile : Option String)
deriving DecidableEq, Inhabited

structure Invocation where
  verbose : Nat
  quiet : Bool
  color : ColorChoice
  format : OutputFormat
  task : Task
deriving DecidableEq, Inhabited

/-! ### Levels -/

/-- How many operands a level takes.  Operands may start with a hyphen. -/
inductive Operands where
  | none
  | one
  /-- One at least; behind the first one, every argument is an operand. -/
  | many
deriving DecidableEq, Inhabited

structure Level where
  /-- The command whose level it is; the program's own level has none. -/
  command : Option CommandName
  switches : List Switch
  operands : Operands
deriving Inhabited

def Level.ofProgram : Level := ⟨none, Switch.shared, .none⟩

def Level.ofCommand (name : CommandName) : Level :=
  match name with
  | .eval | .tokens => ⟨name, Switch.shared, .many⟩
  | .keys => ⟨name, Switch.shared ++ [.detailedErrors], .one⟩
  | .repl => ⟨name, Switch.shared ++ [.historySize, .historyFile], .none⟩
  | .help => ⟨name, [], .none⟩

def Level.hasCommands (level : Level) : Bool := level.command.isNone

def Level.named? (level : Level) (name : String) : Option Switch :=
  level.switches.find? (·.name == name)

def Level.lettered? (level : Level) (letter : Char) : Option Switch :=
  level.switches.find? (·.letter? == some letter)

/-! ### Arguments -/

inductive Argument where
  | separator
  /-- Two hyphens and a name, maybe with a value behind an equals sign. -/
  | long (name : String) (value : Option String)
  | letters (letters : List Char)
  | plain
deriving DecidableEq, Inhabited

def Argument.ofText (text : String) : Argument :=
  match text.toList with
  | ['-', '-'] => separator
  | '-' :: '-' :: s =>
    let name := String.ofList (s.takeWhile (· != '='))
    match s.dropWhile (· != '=') with
    | _ :: value => long name (some (String.ofList value))
    | [] => long name none
  | '-' :: s => letters s
  | _ => plain

structure Progress where
  given : Given
  /-- A switch whose value has not been examined, and the value if it is there. -/
  pending : Option (Switch × Option String)
  operands : List String
  separated : Bool
deriving DecidableEq, Inhabited

namespace Progress

def start : Progress := ⟨.nothing, none, [], false⟩

/-- Whether the next argument is the value of a switch. -/
def awaitsValue (p : Progress) : Bool := p.pending.any (·.2.isNone)

def settle (p : Progress) : Except UsageError Progress :=
  match p.pending with
  | none => .ok p
  | some (_, none) => .error .invalidValue
  | some (switch, some value) => do
    let given ← p.given.set switch value
    .ok { p with given := given, pending := none }

def raise (p : Progress) (level : Level) (switch : Switch) : Except UsageError Progress := do
  let p ← p.settle
  let given ← p.given.raise level.command switch
  .ok { p with given := given }

/-- Takes a switch with the value that is attached to it, or announces its value. -/
def assign (p : Progress) (switch : Switch) (value? : Option String) :
    Except UsageError Progress := do
  let p ← p.settle
  match value? with
  | some value =>
    let given ← p.given.set switch value
    .ok { p with given := given }
  | none => .ok { p with pending := some (switch, none) }

def takesOperand (p : Progress) (level : Level) : Bool :=
  match level.operands with
  | .none => false
  | .one => p.operands.isEmpty
  | .many => true

def operand (p : Progress) (level : Level) (text : String) : Except UsageError Progress :=
  if p.takesOperand level then do
    let p ← p.settle
    .ok { p with operands := p.operands ++ [text] }
  else if level.hasCommands && !(p.separated && (CommandName.ofWord? text).isSome) then
    .error .unknownCommand
  else .error .unknownArgument

def word (p : Progress) (level : Level) (text : String) : Except UsageError Progress :=
  match p.pending with
  | some (switch, none) => .ok { p with pending := some (switch, some text) }
  | _ => p.operand level text

/-- Takes an argument.  Where an operand can stand, an unknown switch is a word. -/
def argument (p : Progress) (level : Level) (text : String) : Except UsageError Progress :=
  if p.separated || (level.operands == .many && !p.operands.isEmpty) then p.operand level text
  else match Argument.ofText text with
    | .separator => .ok { p with separated := true }
    | .plain => p.word level text
    | .long name value? =>
      match level.named? name with
      | some switch =>
        if switch.takesValue then p.assign switch value?
        else if value?.isSome then .error .unneededValue
        else p.raise level switch
      | none => if p.takesOperand level then p.word level text else .error .unknownArgument
    | .letters letters =>
      let known := letters.all fun c => (level.lettered? c).isSome
      if letters.isEmpty || (p.takesOperand level && !known) then p.word level text
      else letters.foldlM (raiseLetter level) p
where
  raiseLetter (level : Level) (p : Progress) (letter : Char) : Except UsageError Progress :=
    match level.lettered? letter with
    | some switch => p.raise level switch
    | none => .error .unknownArgument

/-- Whether an argument that names a command is taken as that name. -/
def takesCommand (p : Progress) (level : Level) : Bool :=
  level.hasCommands && !p.separated && !p.awaitsValue

/-- Reads a level.  Gives the command that follows, with its arguments, if there is one. -/
def read (level : Level) (p : Progress) :
    List String → Except UsageError (Progress × Option (CommandName × List String))
  | [] => .ok (p, none)
  | text :: rest =>
    match if p.takesCommand level then CommandName.ofWord? text else none with
    | some name => .ok (p, some (name, rest))
    | none => do
      let p ← p.argument level text
      p.read level rest

/-- Ends a level.  The format that the environment names stands in where the level has none. -/
def finish (p : Progress) (formatVariable : Option String) :
    Except UsageError (Given × Option OutputFormat) := do
  let p ← p.settle
  match p.given.format, formatVariable with
  | none, some value =>
    match OutputFormat.ofWord? value with
    | some format => .ok (p.given, some format)
    | none => .error .invalidValue
  | _, _ => .ok (p.given, none)

end Progress

/-! ### Command lines -/

def Task.of? (name : CommandName) (g : Given) (operands : List String) : Option Task :=
  match name, operands with
  | .eval, _ :: _ => some (.eval (" ".intercalate operands))
  | .tokens, _ :: _ => some (.tokens (" ".intercalate operands))
  | .keys, text :: _ => some (.keys text g.detailedErrors)
  | .repl, _ => some (.repl (g.historySize.getD 100) g.historyFile)
  | _, _ => none

def helpOn : List String → UsageError
  | [] => .helpAsked
  | [name] => if (CommandName.ofWord? name).isSome then .helpAsked else .unknownCommand
  | _ => .unknownCommand

/-- The format is that of the command's level, or of the program's, or of the environment, or text.
-/
def Invocation.ofArguments (arguments : List String) (formatVariable : Option String) :
    Except UsageError Invocation := do
  let (outer, command?) ← Progress.start.read .ofProgram arguments
  match command? with
  | none =>
    let (given, fallback) ← outer.finish formatVariable
    .error (if given = .nothing ∧ fallback = none then .nothingGiven else .missingCommand)
  | some (.help, rest) => .error (helpOn rest)
  | some (name, rest) =>
    let (inner, _) ← Progress.start.read (.ofCommand name) rest
    let (own, fallback) ← inner.finish formatVariable
    let some task := Task.of? name own inner.operands | .error .missingArgument
    let (general, _) ← outer.finish formatVariable
    .ok
      { verbose := if own.verbose = 0 then general.verbose else own.verbose
        quiet := own.quiet || general.quiet
        color := (own.color.or general.color).getD .auto
        format := ((own.format.or general.format).or fallback).getD .text
        task := task }

end FourFunction
