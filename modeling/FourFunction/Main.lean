import FourFunction.Console.Program
import Std.Time.DateTime.Timestamp

/-!
# The executable

The line-by-line calculator runs through `Repl.step` here, so that a terminal sees each answer
before it types the next line.
-/

namespace FourFunction

namespace Program

def currentTime : IO UInt64 := do
  let now ← Std.Time.Timestamp.now
  return UInt64.ofNat now.toMillisecondsSinceUnixEpoch.val.toNat

def leave (effects : Effects) : IO UInt32 := do
  IO.print effects.output
  IO.eprint effects.errors
  return effects.exitCode.toUInt32

def examine (path : String) : IO HistoryFile := do
  try
    return .present (← IO.FS.readBinFile path)
  catch
    | .noFileOrDirectory .. => return .absent
    | e => throw e

/-- Handles lines as they come; `line` holds the bytes of the unfinished one in reverse. -/
partial def converse (r : Repl) (h : History) (input : IO.FS.Stream) (line : List UInt8) :
    IO (History × Option CommandError) := do
  let chunk ← input.read 4096
  if chunk.isEmpty then
    if line.isEmpty then return (h, none)
    match ← handle h (decode? line.reverse) with
    | .stop error => return (h, error)
    | .next h _ => return (h, none)
  let mut h := h
  let mut line := line
  for byte in chunk do
    if byte = 10 then
      match ← handle h (decode? (dropReturn line.reverse)) with
      | .stop error => return (h, error)
      | .next next _ =>
        h := next
        line := []
    else
      line := byte :: line
  converse r h input line
where
  handle (h : History) (line : Option String) : IO Step := do
    let step := { r with clock := .fixed (← currentTime) }.step h line
    if let .next _ output := step then
      IO.print (output ++ r.promptText)
      (← IO.getStdout).flush
    return step

def serve (r : Repl) (size : Nat) (path? : Option String) : IO (Option CommandError) := do
  try
    let file ← if size = 0 then pure .unused else (path?.mapM examine).map (·.getD .unused)
    match Repl.start size file with
    | .error e => return some e
    | .ok h =>
      IO.print r.promptText
      (← IO.getStdout).flush
      let (last, error) ← converse r h (← IO.getStdin) []
      if let (some path, .present content) := (path?, file.save last) then
        IO.FS.writeBinFile path content
      return error
  catch e => return some (.file e.toString)

def start (arguments : List String) : IO UInt32 := do
  let formatVariable ← IO.getEnv "QUADCALC_FORMAT"
  let around : Surroundings :=
    { formatVariable := formatVariable
      interactive := ← (← IO.getStdin).isTty
      showsColors := ← (← IO.getStdout).isTty
      clock := .fixed (← currentTime)
      input := []
      files := fun _ => .unused }
  match Invocation.ofArguments arguments formatVariable with
  | .error e => leave (refuse e)
  | .ok invocation =>
    match invocation.task with
    | .repl size path? =>
      leave (conclude ⟨"", ← serve (repl invocation around) size path?⟩ none)
    | _ => leave (execute invocation around)

end Program

end FourFunction

def main (arguments : List String) : IO UInt32 := FourFunction.Program.start arguments
