import Reckoner.Json.Basic

/-!
# Reading JSON

Readers take a phrase off the front of a text and return what is left. A value may stand between JSON's
own four blanks; there is no comma after a last item. A read string is decoded by joining its surrogates
to characters, which fails where one pairs with nothing.
-/

namespace Reckoner.Json

/-- Takes a phrase off the front of a text. -/
abbrev Reader (α : Type) := List Char → Option (α × List Char)

/-- A text without the blanks in front of it. -/
def skipBlanks (text : List Char) : List Char :=
  text.dropWhile fun c => c == ' ' || c == '\n' || c == '\t' || c == '\r'

/-- The piece that four hexadecimal digits behind `\u` spell. -/
def hexPiece? (a b c d : Char) : Option Piece := do
  let unit := ((← hexDigit? a) * 16 + (← hexDigit? b)) * 256 + (← hexDigit? c) * 16 + (← hexDigit? d)
  if 0xd800 ≤ unit ∧ unit < 0xe000 then some (.surrogate unit) else some (.char (Char.ofNat unit))

/-- The character that a letter behind a backslash stands for. -/
def escapedChar? (letter : Char) : Option Char :=
  if letter = '/' then some '/'
  else (letterEscapes.find? fun escape => escape.2 == letter).map (·.1)

/-- The rest of a string after its opening quote. -/
def readPieces : Reader (List Piece)
  | [] => none
  | '"' :: rest => some ([], rest)
  | '\\' :: 'u' :: a :: b :: c :: d :: rest =>
    match hexPiece? a b c d with
    | some piece => (readPieces rest).map fun (pieces, rest) => (piece :: pieces, rest)
    | none => none
  | '\\' :: letter :: rest =>
    match escapedChar? letter with
    | some c => (readPieces rest).map fun (pieces, rest) => (.char c :: pieces, rest)
    | none => none
  | c :: rest =>
    if c < ' ' ∨ c = '\\' then none
    else (readPieces rest).map fun (pieces, rest) => (.char c :: pieces, rest)

/-- Digits off the front of a text, at least one. -/
def readDigits : Reader (List Char) := fun text =>
  let digits := text.takeWhile Char.isDigit
  if digits.isEmpty then none else some (digits, text.dropWhile Char.isDigit)

/-- A whole part: zero, or digits that do not start with zero. -/
def readWhole : Reader (List Char)
  | '0' :: rest => some (['0'], rest)
  | text => readDigits text

/-- A fraction with its point, if a point follows. -/
def readFraction : Reader (List Char)
  | '.' :: rest => (readDigits rest).map fun (digits, rest) => ('.' :: digits, rest)
  | text => some ([], text)

/-- The sign of an exponent, if one follows. -/
def readExponentSign : List Char → List Char × List Char
  | '+' :: rest => (['+'], rest)
  | '-' :: rest => (['-'], rest)
  | text => ([], text)

/-- An exponent with its letter, if a letter follows. -/
def readExponent : Reader (List Char)
  | [] => some ([], [])
  | c :: rest =>
    if c = 'e' ∨ c = 'E' then
      let (sign, rest) := readExponentSign rest
      (readDigits rest).map fun (digits, rest) => (c :: sign ++ digits, rest)
    else some ([], c :: rest)

/-- A numeral without its sign. -/
def readUnsigned : Reader (List Char) := fun text => do
  let (whole, text) ← readWhole text
  let (fraction, text) ← readFraction text
  let (exponent, text) ← readExponent text
  some (whole ++ fraction ++ exponent, text)

/-- A numeral. -/
def readNumeral : Reader (List Char)
  | '-' :: rest => (readUnsigned rest).map fun (numeral, rest) => ('-' :: numeral, rest)
  | text => readUnsigned text

/-- Items with commas between them up to a closing character, at least one of them and at most a given
number. -/
def readItems {α : Type} (item : Reader α) (close : Char) : Nat → Reader (List α)
  | 0, _ => none
  | n + 1, text =>
    match item text with
    | none => none
    | some (a, rest) =>
      match skipBlanks rest with
      | [] => none
      | c :: rest =>
        if c = ',' then (readItems item close n rest).map fun (items, rest) => (a :: items, rest)
        else if c = close then some ([a], rest)
        else none

/-- Items up to a closing character, perhaps none and at most a given number. -/
def readListed {α : Type} (item : Reader α) (close : Char) (bound : Nat) : Reader (List α) := fun text =>
  match skipBlanks text with
  | [] => none
  | c :: rest => if c = close then some ([], rest) else readItems item close bound (c :: rest)

/-- A member of an object, over a reader of values. -/
def readMember (value : Reader Value) : Reader (List Piece × Value) := fun text =>
  match skipBlanks text with
  | '"' :: rest =>
    match readPieces rest with
    | none => none
    | some (name, rest) =>
      match skipBlanks rest with
      | ':' :: rest => (value rest).map fun (v, rest) => ((name, v), rest)
      | _ => none
  | _ => none

/-- A value, nested less deeply than a given bound and with at most `bound` items in any array or
object. -/
def readValue (bound : Nat) : Nat → Reader Value
  | 0, _ => none
  | depth + 1, text =>
    match skipBlanks text with
    | 'n' :: 'u' :: 'l' :: 'l' :: rest => some (.null, rest)
    | 't' :: 'r' :: 'u' :: 'e' :: rest => some (.boolean true, rest)
    | 'f' :: 'a' :: 'l' :: 's' :: 'e' :: rest => some (.boolean false, rest)
    | '"' :: rest => (readPieces rest).map fun (pieces, rest) => (.string pieces, rest)
    | '[' :: rest =>
      (readListed (readValue bound depth) ']' bound rest).map fun (items, rest) => (.array items, rest)
    | '{' :: rest =>
      (readListed (readMember (readValue bound depth)) '}' bound rest).map fun (members, rest) =>
        (.object members, rest)
    | text => (readNumeral text).map fun (numeral, rest) => (.number numeral, rest)

/-- The value that a whole text is; neither is a value nested more deeply than its text is long, nor has
it more items. -/
def ofText? (text : List Char) : Option Value :=
  let bound := text.length + 1
  match readValue bound bound text with
  | some (v, rest) => if (skipBlanks rest).isEmpty then some v else none
  | none => none

/-- The characters that pieces spell. -/
def decode? : List Piece → Option (List Char)
  | [] => some []
  | .char c :: rest => (decode? rest).map (c :: ·)
  | .surrogate high :: .surrogate low :: rest =>
    if 0xd800 ≤ high ∧ high < 0xdc00 ∧ 0xdc00 ≤ low ∧ low < 0xe000 then
      (decode? rest).map (Char.ofNat (0x10000 + (high - 0xd800) * 0x400 + (low - 0xdc00)) :: ·)
    else none
  | [.surrogate _] => none
  | .surrogate _ :: .char _ :: _ => none

/-- The string that pieces spell. -/
def toString? (pieces : List Piece) : Option String :=
  (decode? pieces).map String.ofList

/-- The string that a value is. -/
def Value.toString? : Value → Option String
  | .string pieces => Json.toString? pieces
  | _ => none

/-- The natural number below a bound that a value is; it has to be written as digits alone. -/
def Value.toNat? (bound : Nat) : Value → Option Nat
  | .number numeral =>
    let n := Nat.ofDigitChars 10 numeral 0
    if numeral.all Char.isDigit ∧ n < bound then some n else none
  | _ => none

end Reckoner.Json
