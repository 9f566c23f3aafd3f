/-!
# The command line

What a user asks for by the words of a command line: one evaluation (`eval`), or a session at the
terminal (`repl`), which is also meant when neither is named.
-/

namespace Reckoner

/-- What is to be done. -/
inductive Task
  /-- Evaluates one formula. -/
  | eval (expression : String) (asJson : Bool)
  /-- Holds a session. -/
  | repl
  deriving DecidableEq, Repr

/-- What a command line asks for. -/
structure CommandLine where
  /-- The file of settings to read in place of the usual one. -/
  settingsFile : Option String
  /-- Whether the tape is switched off. -/
  withoutTape : Bool
  task : Task
  deriving DecidableEq, Repr

namespace CommandLine

/-- The words of a command line sorted out. -/
structure Words where
  settingsFile : Option String := none
  withoutTape : Bool := false
  asJson : Bool := false
  /-- The words that are no options, in reverse order. -/
  plain : List String := []

/-- Sorts words into options and others; after `--` no word is an option. Without a file behind it,
`--config` makes no sense. -/
def sort? (sorted : Words) : List String → Option Words
  | [] => some sorted
  | "--" :: rest => some { sorted with plain := rest.reverse ++ sorted.plain }
  | "--no-history" :: rest => sort? { sorted with withoutTape := true } rest
  | "--json" :: rest => sort? { sorted with asJson := true } rest
  | "--config" :: file :: rest => sort? { sorted with settingsFile := some file } rest
  | ["--config"] => none
  | word :: rest => sort? { sorted with plain := word :: sorted.plain } rest

/-- What is asked for by the words that are no options. -/
def task? (asJson : Bool) : List String → Option Task
  | "eval" :: word :: words => some (.eval (" ".intercalate (word :: words)) asJson)
  | ["repl"] | [] => if asJson then none else some .repl
  | _ => none

/-- What a command line asks for, if it makes sense. -/
def ofArguments? (arguments : List String) : Option CommandLine := do
  let sorted ← sort? {} arguments
  let task ← task? sorted.asJson sorted.plain.reverse
  some ⟨sorted.settingsFile, sorted.withoutTape, task⟩

/-- How the program is called. -/
def usage : String :=
  "usage: reckoner [--config FILE] [--no-history] [repl | eval [--json] [--] WORDS...]"

end CommandLine
end Reckoner
