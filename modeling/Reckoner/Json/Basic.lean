/-!
# JSON values and their text

JSON values as they are written: a number keeps its numeral and a string the pieces it is spelled with,
so that a surrogate that pairs with nothing is a piece like any other and only a string that is decoded
has to do without. Texts are compact.
-/

namespace Reckoner.Json

/-- A piece of a string: a character, or half of one that is spelled as a surrogate. -/
inductive Piece
  | char (c : Char)
  | surrogate (unit : Nat)
  deriving DecidableEq, Repr

/-- A JSON value as it is written. -/
inductive Value
  | null
  | boolean (b : Bool)
  | number (numeral : List Char)
  | string (pieces : List Piece)
  | array (items : List Value)
  | object (members : List (List Piece × Value))

/-- The value of a character of a hexadecimal numeral. -/
def hexDigit? (c : Char) : Option Nat :=
  if '0' ≤ c ∧ c ≤ '9' then some (c.toNat - '0'.toNat)
  else if 'a' ≤ c ∧ c ≤ 'f' then some (c.toNat - 'a'.toNat + 10)
  else if 'A' ≤ c ∧ c ≤ 'F' then some (c.toNat - 'A'.toNat + 10)
  else none

/-- A number below `16^4` in four hexadecimal digits. -/
def fourHexDigits (n : Nat) : List Char :=
  [n / 4096, n / 256 % 16, n / 16 % 16, n % 16].map Nat.digitChar

/-- The characters that are escaped by a letter, each with its letter. -/
def letterEscapes : List (Char × Char) :=
  [('"', '"'), ('\\', '\\'), ('\x08', 'b'), ('\x0c', 'f'), ('\n', 'n'), ('\r', 'r'), ('\t', 't')]

/-- A character inside a string: escaped if it is a quote, a backslash or a control character. -/
def charText (c : Char) : List Char :=
  match letterEscapes.lookup c with
  | some letter => ['\\', letter]
  | none => if c < ' ' then '\\' :: 'u' :: fourHexDigits c.toNat else [c]

/-- The text of a piece of a string. -/
def pieceText : Piece → List Char
  | .char c => charText c
  | .surrogate unit => '\\' :: 'u' :: fourHexDigits unit

/-- The text of a string. -/
def stringText (pieces : List Piece) : List Char :=
  '"' :: pieces.flatMap pieceText ++ ['"']

/-- Texts behind one another with commas between them. -/
def commaSeparated (texts : List (List Char)) : List Char :=
  [','].intercalate texts

mutual

/-- The text of a value. -/
def Value.text : Value → List Char
  | .null => "null".toList
  | .boolean true => "true".toList
  | .boolean false => "false".toList
  | .number numeral => numeral
  | .string pieces => stringText pieces
  | .array items => '[' :: commaSeparated (itemTexts items) ++ [']']
  | .object members => '{' :: commaSeparated (memberTexts members) ++ ['}']

/-- The texts of an array's items. -/
def itemTexts : List Value → List (List Char)
  | [] => []
  | item :: rest => item.text :: itemTexts rest

/-- The texts of an object's members. -/
def memberTexts : List (List Piece × Value) → List (List Char)
  | [] => []
  | (name, value) :: rest => (stringText name ++ ':' :: value.text) :: memberTexts rest

end

/-- The pieces that spell a string. -/
def pieces (s : String) : List Piece :=
  s.toList.map .char

/-- A string as a value. -/
def ofString (s : String) : Value :=
  .string (pieces s)

/-- A natural number as a value. -/
def ofNat (n : Nat) : Value :=
  .number (Nat.toDigits 10 n)

/-- An object with the given members in order. -/
def ofMembers (members : List (String × Value)) : Value :=
  .object (members.map fun m => (pieces m.1, m.2))

end Reckoner.Json
