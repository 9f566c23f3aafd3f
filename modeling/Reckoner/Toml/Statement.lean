import Reckoner.Toml.Quoted
import Reckoner.Toml.Scalar

/-!
# Statements of TOML

The grammar of a document: a document is a list of statements, one to a line, and a statement names a
table, names an array of tables or gives a key its value. What the statements amount to is not decided
here.
-/

namespace Reckoner.Toml

/-- A key with its dots taken apart. -/
abbrev Path := List String

/-- A value as it is written; the keys of a table in braces may be dotted. -/
inductive Written
  | string (s : String)
  | scalar (s : Scalar)
  | array (items : List Written)
  | table (entries : List (Path × Written))

/-- A line of a document that says something. -/
inductive Statement
  | table (path : Path)
  | tableArray (path : Path)
  | assignment (path : Path) (value : Written)

namespace Statement

open Reader

/-- Whether a character can stand in a key without quotes. -/
def isBareChar (c : Char) : Bool :=
  c.isAlphanum || c == '_' || c == '-'

/-- A key without dots. -/
def simpleKey : Reader String := do
  match ← peek? with
  | some '"' | some '\'' => Quoted.line
  | _ =>
    let chars ← takeWhile isBareChar
    if chars.isEmpty then failure else return String.ofList chars

/-- A key of at most a given number of parts. -/
def keyParts : Nat → Reader Path
  | 0 => failure
  | n + 1 => do
    let part ← simpleKey
    skipSpaces
    if ← accept "." then
      skipSpaces
      return part :: (← keyParts n)
    else return [part]

/-- How many parts a dotted key may have. -/
def maxKeyParts : Nat := 80

/-- A key with the spaces after it. -/
def key : Reader Path :=
  keyParts maxKeyParts

/-- Items with commas between them up to a closing text; the last may be followed by a comma. -/
def items {α : Type} (item : Reader α) (close : String) : Nat → Reader (List α)
  | 0 => failure
  | n + 1 => do
    skipGap
    if ← accept close then return []
    let a ← item
    skipGap
    if ← accept "," then return a :: (← items item close n)
    expect close
    return [a]

/-- A key and its value, over a reader of values and of what may stand around the equals sign. -/
def entry (gap : Reader Unit) (value : Reader Written) : Reader (Path × Written) := do
  let path ← key
  gap
  expect "="
  gap
  return (path, ← value)

/-- Whether a character can stand in a word of a scalar that is no string. -/
def isWordChar (c : Char) : Bool :=
  !"=,[]#\x7b\x7d \t\r\n".toList.contains c

/-- Whether a character can start such a word. -/
def startsWord (c : Char) : Bool :=
  isWordChar c && c != '"' && c != '\''

/-- The words of a scalar that is no string, with the spaces between them, at most a given number. -/
def scalarWords : Nat → Reader (List Char)
  | 0 => failure
  | n + 1 => do
    let word ← takeWhile isWordChar
    let rest ← get
    let spaces := rest.takeWhile fun c => c == ' ' || c == '\t'
    if !spaces.isEmpty && (rest.drop spaces.length).head?.any startsWord then
      set (rest.drop spaces.length)
      return word ++ spaces ++ (← scalarWords n)
    else return word

/-- A scalar that is no string. -/
def scalar : Reader Written := do
  match Scalar.ofChars? (← withLength scalarWords) with
  | some s => return .scalar s
  | none => failure

/-- How deeply arrays and tables may be nested. -/
def maxNesting : Nat := 80

/-- A value without parts. -/
def simpleValue : Reader Written := do
  match ← peek? with
  | some '"' | some '\'' => return .string (← Quoted.string)
  | _ => scalar

/-- A value in which arrays and tables are nested no deeper than a given bound. -/
def value : Nat → Reader Written
  | 0 => simpleValue
  | depth + 1 => do
    if ← accept "[" then return .array (← withLength (items (value depth) "]"))
    else if ← accept "\x7b" then
      return .table (← withLength (items (entry skipGap (value depth)) "\x7d"))
    else simpleValue

/-- The key of a header between its brackets. -/
def header (close : String) : Reader Path := do
  skipSpaces
  let path ← key
  expect close
  return path

/-- A statement. -/
def statement : Reader Statement := do
  if ← accept "[[" then return .tableArray (← header "]]")
  else if ← accept "[" then return .table (← header "]")
  else
    let (path, value) ← entry skipSpaces (value maxNesting)
    return .assignment path value

/-- The statements of at most a given number of lines. -/
def statements : Nat → Reader (List Statement)
  | 0 => failure
  | n + 1 => do
    skipSpaces
    let here ← match ← peek? with
      | none | some '#' | some '\n' | some '\r' => pure []
      | _ => do
        let s ← statement
        skipSpaces
        pure [s]
    skipComment
    if ← atEnd then return here
    if ← acceptNewline then return here ++ (← statements n) else failure

/-- The statements of a document. -/
def ofText? (text : String) : Option (List Statement) :=
  let chars := text.toList
  let chars := if chars.head? = some '\ufeff' then chars.drop 1 else chars
  ((withLength statements).run chars).map (·.1)

end Statement
end Reckoner.Toml
