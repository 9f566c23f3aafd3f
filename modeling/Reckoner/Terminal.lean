import Reckoner.Keystroke.Reading
import Reckoner.Keystroke.Retyping
import Reckoner.Readout
import Reckoner.Settings
import Reckoner.Tape
import Reckoner.Text.Lines

/-!
# The terminal

A machine and its tape, worked through lines of text. A line is a command about the tape or the session,
or else keystrokes. The calculations these complete are sent to an inbox, from which the tape takes them
over: before every line, and again once a line's keystrokes are pressed. What a line does depends on
nothing but the terminal, the line and the time, which stamps the new entries.
-/

namespace Reckoner

/-- A machine with its tape. -/
structure Terminal where
  machine : Machine
  tape : Tape UInt64
  /-- Completed calculations that the tape has not taken over yet. -/
  inbox : Inbox UInt64
  /-- Whether completed calculations are sent to the inbox. -/
  keepsTape : Bool
  /-- Whether the thousands of an answer are grouped. -/
  groupThousands : Bool

/-- What a line asks a terminal to do. -/
inductive Command
  /-- Ends the session. -/
  | quit
  /-- Lists the tape. -/
  | list
  /-- Erases the tape. -/
  | erase
  /-- Types the newest formula of the tape again, or the one with a number in the list. -/
  | recall (number : Option String)
  /-- Presses keys. -/
  | keys (line : String)
  deriving DecidableEq, Repr

namespace Command

/-- Numbers that a line can hold are below this bound. -/
def numberBound : Nat := UInt64.size

/-- The command that a line is; words after those a command needs are passed over. -/
def ofLine (line : String) : Command :=
  match Text.words line with
  | "quit" :: _ => .quit
  | "exit" :: _ => .quit
  | "history" :: "clear" :: _ => .erase
  | "history" :: _ => .list
  | "recall" :: rest => .recall rest.head?
  | _ => .keys line

/-- The number that a word is: digits, perhaps with a plus sign. -/
def number? (word : String) : Option Nat :=
  let digits := match word.toList with
    | '+' :: rest => rest
    | chars => chars
  let n := Nat.ofDigitChars 10 digits 0
  if !digits.isEmpty && digits.all Char.isDigit && decide (n < numberBound) then some n else none

end Command

namespace Terminal

/-- A terminal with the given settings; the tape may be switched off whatever they say. -/
def start (settings : Settings) (withoutTape : Bool) : Terminal where
  machine := .initial
  tape := .blank settings.history.limit
  inbox := .empty
  keepsTape := settings.history.enabled && !withoutTape
  groupThousands := settings.groupThousands

/-- The lines of the display. -/
def display (t : Terminal) : List String :=
  (Readout.ofMachine t.machine t.groupThousands).lines

/-- A completed calculation as an entry of the tape. -/
def entry (now : UInt64) (c : Completion) : Entry UInt64 :=
  ⟨c.expression, c.result, now⟩

/-- The terminal after some keystrokes. -/
def press (t : Terminal) (now : UInt64) (keys : List Keystroke) : Terminal :=
  let completed := if t.keepsTape then t.machine.completions keys else []
  { t with
    machine := t.machine.run keys
    inbox := t.inbox.sendAll (completed.map (entry now)) }

/-- The terminal once the tape has taken over what waits in the inbox. -/
def collect (t : Terminal) : Terminal :=
  { t with tape := t.tape.recordAll t.inbox.waiting, inbox := { t.inbox with waiting := [] } }

/-- A line of the list of entries: the number, the formula and the result. -/
def listLine (number : Nat) (e : Entry UInt64) : String :=
  String.ofList ((Nat.toDigits 10 number).leftpad 3 ' ') ++ ". " ++ e.expression ++ " = " ++ e.result

/-- The list of the tape's entries, numbered from one at the newest. -/
def listing (tape : Tape UInt64) : List String :=
  if tape.entries.isEmpty then ["no calculations yet"]
  else
    ("last " ++ toString tape.entries.length ++ " of at most " ++ toString tape.limit ++ ":") ::
      tape.entries.mapIdx fun i e => listLine (i + 1) e

/-- The entry that a recall asks for. -/
def recalled? (t : Terminal) : Option String → Option (Entry UInt64)
  | none => t.tape.latest?
  | some word => (Command.number? word).bind t.tape.numbered?

/-- The terminal after a command and the lines it writes, unless the command ends the session. -/
def perform (t : Terminal) (now : UInt64) : Command → Option (Terminal × List String)
  | .quit => none
  | .list => some (t, listing t.tape)
  | .erase => some ({ t with tape := t.tape.erase }, ["history cleared"])
  | .recall number =>
    match t.recalled? number with
    | some e =>
      let next := t.press now (Keystroke.retyping e.expression)
      some (next, next.display)
    | none => some (t, "no such history entry" :: t.display)
  | .keys line =>
    let next := (t.press now (Keystroke.ofLine line)).collect
    some (next, next.display)

/-- The terminal after a line and the lines it writes, unless the line ends the session. -/
def respond (t : Terminal) (now : UInt64) (line : String) : Option (Terminal × List String) :=
  t.collect.perform now (Command.ofLine line)

/-- The lines written in answer to lines up to the one that ends the session. -/
def answers (t : Terminal) (now : UInt64) : List String → List String
  | [] => []
  | line :: rest =>
    match t.respond now line with
    | none => []
    | some (next, written) => written ++ next.answers now rest

/-- All lines written in a session on a text. -/
def transcript (t : Terminal) (now : UInt64) (input : String) : List String :=
  t.display ++ t.answers now (Text.lines input)

end Terminal
end Reckoner
