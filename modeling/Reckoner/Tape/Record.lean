import Reckoner.Json.Reading
import Reckoner.Tape

/-!
# Entries as JSON

An entry of the tape, stamped with seconds, is kept as an object with its three fields in order. It is
read from an object that has each of these fields once, in any order and among fields of other names, or
from an array of just the three values.
-/

namespace Reckoner.Entry

/-- Stamps are below this bound. -/
def stampBound : Nat := UInt64.size

/-- The members of an entry's object. -/
def members (e : Entry UInt64) : List (String × Json.Value) :=
  [("expression", Json.ofString e.expression), ("result", Json.ofString e.result),
   ("created_at", Json.ofNat e.stamp.toNat)]

/-- The JSON text of an entry. -/
def json (e : Entry UInt64) : String :=
  String.ofList (Json.ofMembers e.members).text

/-- The entry with the given values for its fields. -/
def ofValues? (expression result stamp : Json.Value) : Option (Entry UInt64) :=
  match expression.toString?, result.toString?, stamp.toNat? stampBound with
  | some expression, some result, some stamp => some ⟨expression, result, UInt64.ofNat stamp⟩
  | _, _, _ => none

/-- The value of the one field with a given name. -/
def field? (fields : List (String × Json.Value)) (name : String) : Option Json.Value :=
  match fields.filter (·.1 == name) with
  | [field] => some field.2
  | _ => none

/-- The entry that an object's fields describe. -/
def ofFields? (fields : List (String × Json.Value)) : Option (Entry UInt64) :=
  match field? fields "expression", field? fields "result", field? fields "created_at" with
  | some expression, some result, some stamp => ofValues? expression result stamp
  | _, _, _ => none

/-- A member of an object with its name decoded. -/
def namedField? (member : List Json.Piece × Json.Value) : Option (String × Json.Value) :=
  (Json.toString? member.1).map fun name => (name, member.2)

/-- The entry that a JSON value describes. -/
def ofValue? : Json.Value → Option (Entry UInt64)
  | .object members => (members.mapM namedField?).bind ofFields?
  | .array [expression, result, stamp] => ofValues? expression result stamp
  | _ => none

/-- The entry that a JSON text describes. -/
def ofJson? (text : String) : Option (Entry UInt64) :=
  (Json.ofText? text.toList).bind ofValue?

end Reckoner.Entry
