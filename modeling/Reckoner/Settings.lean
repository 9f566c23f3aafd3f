import Reckoner.Tape
import Reckoner.Toml.Table

/-!
# Settings

What a user can settle beforehand, read from a TOML document. Every setting has a default and settings of
other names are passed over, but a setting of the wrong type spoils the document, and so does a number that
denotes none. A table of settings may also be given as an array of its first settings in order; what
stands behind them there is not looked at.
-/

namespace Reckoner

/-- The settings of the tape. -/
structure TapeSettings where
  enabled : Bool
  limit : Nat
  deriving DecidableEq, Repr

/-- The settings. -/
structure Settings where
  /-- How much is logged. -/
  logLevel : String
  history : TapeSettings
  /-- Whether the thousands of an answer are grouped. -/
  groupThousands : Bool
  deriving DecidableEq, Repr

/-- What is found where a file of settings is looked for. -/
inductive SettingsFile
  | missing
  | unreadable
  | document (text : String)
  deriving DecidableEq, Repr

/-- Why there are no settings. -/
inductive SettingsError
  /-- The text is no document of settings. -/
  | malformed
  /-- The file that was asked for cannot be read. -/
  | unreadable (path : String)
  /-- The file is no document of settings. -/
  | invalidFile (path : String)
  deriving DecidableEq, Repr

namespace SettingsError

/-- What is said about the settings that there are none of. -/
def message : SettingsError → String
  | .malformed => "Failed to parse TOML"
  | .unreadable path => "Failed to read config file " ++ path
  | .invalidFile path => "Invalid config file " ++ path

end SettingsError

namespace Settings

open Toml

/-- The settings that hold unless others are made. -/
def default : Settings where
  logLevel := "warn"
  history := ⟨true, Tape.defaultLimit⟩
  groupThousands := false

/-- The limit of a tape is below this bound. -/
def limitBound : Nat := UInt64.size

/-- The truth value that a setting is, or the given one if it is not made. -/
def boolean? (otherwise : Bool) : Option Node → Option Bool
  | none => some otherwise
  | some (.scalar (.boolean b)) => some b
  | some _ => none

/-- The count that a setting is, or the given one if it is not made. -/
def count? (otherwise : Nat) : Option Node → Option Nat
  | none => some otherwise
  | some (.scalar (.integer base spelling)) =>
    match Scalar.int? base spelling with
    | some n => if 0 ≤ n ∧ n < limitBound then some n.toNat else none
    | none => none
  | some _ => none

/-- The text that a setting is, or the given one if it is not made. -/
def text? (otherwise : String) : Option Node → Option String
  | none => some otherwise
  | some (.string s) => some s
  | some _ => none

/-- Whether the settings of other names, which are passed over, denote anything. -/
def othersDenote (names : List String) (fields : Fields) : Bool :=
  fields.all fun field => names.contains field.1 || field.2.denotes

/-- The settings of a table with the given names, whichever way the table is given; a date counts as a
table without settings. Of an array nothing is looked at behind the last of them. -/
def members? (names : List String) : Option Node → Option (List (Option Node))
  | none => some (names.map fun _ => none)
  | some (.table _ fields) =>
    if othersDenote names fields then some (names.map (Fields.get? fields)) else none
  | some (.array items) => some (names.mapIdx fun i _ => items[i]?)
  | some (.tables elements) => some (names.mapIdx fun i _ => elements[i]?.map (.table .header))
  | some (.scalar .date) => some (names.map fun _ => none)
  | some _ => none

/-- The settings of the tape. -/
def history? (node : Option Node) : Option TapeSettings := do
  match ← members? ["enabled", "limit"] node with
  | [enabled, limit] =>
    some ⟨← boolean? default.history.enabled enabled, ← count? default.history.limit limit⟩
  | _ => none

/-- The settings of the display: whether thousands are grouped. -/
def display? (node : Option Node) : Option Bool := do
  match ← members? ["group_thousands"] node with
  | [groupThousands] => boolean? default.groupThousands groupThousands
  | _ => none

/-- The settings that a table makes. -/
def ofFields? (fields : Fields) : Option Settings := do
  match ← members? ["log_level", "history", "display"] (some (.table .header fields)) with
  | [logLevel, history, display] =>
    some ⟨← text? default.logLevel logLevel, ← history? history, ← display? display⟩
  | _ => none

/-- The settings that a document makes. -/
def ofToml (document : String) : Except SettingsError Settings :=
  match (Toml.ofText? document).bind ofFields? with
  | some s => .ok s
  | none => .error .malformed

/-- The settings in a file that was asked for, which has to be there. -/
def ofFile (path : String) : SettingsFile → Except SettingsError Settings
  | .missing | .unreadable => .error (.unreadable path)
  | .document text =>
    match ofToml text with
    | .ok s => .ok s
    | .error _ => .error (.invalidFile path)

/-- The settings in the file that is looked for unless another is asked for; it need not be there. -/
def ofUsualFile (path : String) : SettingsFile → Except SettingsError Settings
  | .missing => .ok default
  | file => ofFile path file

end Settings
end Reckoner
