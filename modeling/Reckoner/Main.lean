import Reckoner.CommandLine
import Reckoner.Evaluation.Outcome
import Reckoner.Terminal
import Std.Time.DateTime.Timestamp

/-!
# The program

The outer layer: reads the command line, the settings and the lines of a session, and writes what the
library answers.
-/

namespace Reckoner.Program

/-- What is found at a path. -/
def readSettingsFile (path : String) : IO SettingsFile :=
  try
    return .document (← IO.FS.readFile path)
  catch
    | .noFileOrDirectory .. => return .missing
    | _ => return .unreadable

/-- Where settings are looked for unless a file is named. -/
def usualSettingsFile? : IO (Option String) := do
  let folder ← IO.getEnv "XDG_CONFIG_HOME"
  let home ← IO.getEnv "HOME"
  return (folder <|> home.map (· ++ "/.config")).map (· ++ "/reckoner/config.toml")

/-- The settings for a session. -/
def loadSettings (named : Option String) : IO (Except SettingsError Settings) := do
  match named with
  | some path => return Settings.ofFile path (← readSettingsFile path)
  | none =>
    match ← usualSettingsFile? with
    | some path => return Settings.ofUsualFile path (← readSettingsFile path)
    | none => return .ok Settings.default

/-- Writes lines to standard output at once. -/
def write (lines : List String) : IO Unit := do
  let output ← IO.getStdout
  for line in lines do
    output.putStrLn line
  output.flush

/-- Seconds since the Unix epoch, for the stamps of entries. -/
def now : IO UInt64 :=
  return UInt64.ofNat (← Std.Time.Timestamp.now).toSecondsSinceUnixEpoch.val.toNat

/-- Holds a session until a line or the input ends it. -/
partial def converse (input : IO.FS.Stream) (t : Terminal) : IO Unit := do
  let read ← input.getLine
  match Text.lines read with
  | [] => return
  | line :: _ =>
    match t.respond (← now) line with
    | none => return
    | some (next, written) =>
      write written
      converse input next

/-- Does what a command line asks for and returns the exit status. -/
def run (command : CommandLine) : IO UInt32 := do
  match ← loadSettings command.settingsFile with
  | .error e =>
    IO.eprintln ("Error: " ++ e.message)
    return 1
  | .ok settings =>
    match command.task with
    | .eval expression asJson =>
      let report := (Outcome.ofExpression expression).report asJson
      write report.output
      for line in report.errors do
        IO.eprintln line
      return report.status
    | .repl =>
      let t := Terminal.start settings command.withoutTape
      write t.display
      converse (← IO.getStdin) t
      return 0

end Reckoner.Program

/-- Runs the program. -/
def main (arguments : List String) : IO UInt32 := do
  match Reckoner.CommandLine.ofArguments? arguments with
  | some command => Reckoner.Program.run command
  | none =>
    IO.eprintln Reckoner.CommandLine.usage
    return 2
