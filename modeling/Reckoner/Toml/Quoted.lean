import Reckoner.Toml.Reader

/-!
# Strings of TOML

The four kinds of strings: basic ones with escapes and literal ones without, each on one line or between
triple quotes on several.
-/

namespace Reckoner.Toml.Quoted

open Reader

/-- The value of a character of a hexadecimal numeral. -/
def hexDigit? (c : Char) : Option Nat :=
  if '0' ≤ c ∧ c ≤ '9' then some (c.toNat - '0'.toNat)
  else if 'a' ≤ c ∧ c ≤ 'f' then some (c.toNat - 'a'.toNat + 10)
  else if 'A' ≤ c ∧ c ≤ 'F' then some (c.toNat - 'A'.toNat + 10)
  else none

/-- The character whose code point comes next in a number of hexadecimal digits. -/
def codePoint : Nat → Nat → Reader Char
  | 0, n => if n.isValidChar then return Char.ofNat n else failure
  | digits + 1, n => do
    match hexDigit? (← next) with
    | some d => codePoint digits (16 * n + d)
    | none => failure

/-- What a backslash stands for together with what follows it. -/
def escaped : Reader Char := do
  match ← next with
  | 'b' => return '\x08'
  | 't' => return '\t'
  | 'n' => return '\n'
  | 'f' => return '\x0c'
  | 'r' => return '\r'
  | 'e' => return '\x1b'
  | '"' => return '"'
  | '\\' => return '\\'
  | 'x' => codePoint 2 0
  | 'u' => codePoint 4 0
  | 'U' => codePoint 8 0
  | _ => failure

/-- The rest of a basic string on one line. -/
def basic : Nat → Reader (List Char)
  | 0 => failure
  | n + 1 => do
    match ← next with
    | '"' => return []
    | '\\' => return (← escaped) :: (← basic n)
    | c => if isTextChar c then return c :: (← basic n) else failure

/-- The rest of a literal string on one line. -/
def literal : Reader (List Char) := do
  let chars ← takeWhile fun c => isTextChar c && c != '\''
  expect "'"
  return chars

/-- Takes a closing triple quote if one comes next, with up to two quotes of the string before it, and
returns those. -/
def closing? (quote : String) : Reader (Option (List Char)) := do
  let triple := quote ++ quote ++ quote
  if ← accept (triple ++ quote ++ quote) then return some (quote ++ quote).toList
  else if ← accept (triple ++ quote) then return some quote.toList
  else if ← accept triple then return some []
  else return none

/-- Takes spaces and line endings, at most a given number of line endings. -/
def skipBlankLines : Nat → Reader Unit
  | 0 => return
  | n + 1 => do
    skipSpaces
    if ← acceptNewline then skipBlankLines n

/-- Takes the end of a line behind a backslash and all spaces and line endings after it, if the line ends
there, and says whether it did. -/
def continued : Reader Bool := fun text =>
  match text.dropWhile fun c => c == ' ' || c == '\t' with
  | '\n' :: _ | '\r' :: '\n' :: _ => (withLength skipBlankLines text).map fun (_, rest) => (true, rest)
  | _ => some (false, text)

/-- The next character of a string on several lines, with a line ending in its own spelling. -/
def lineChar : Reader (List Char) := do
  if ← accept "\r\n" then return ['\r', '\n']
  let c ← next
  if c == '\n' || isTextChar c then return [c] else failure

/-- The rest of a basic string on several lines. -/
def basicLines : Nat → Reader (List Char)
  | 0 => failure
  | n + 1 => do
    if let some quotes ← closing? "\"" then return quotes
    if ← accept "\\" then
      if ← continued then basicLines n else return (← escaped) :: (← basicLines n)
    else return (← lineChar) ++ (← basicLines n)

/-- The rest of a literal string on several lines. -/
def literalLines : Nat → Reader (List Char)
  | 0 => failure
  | n + 1 => do
    if let some quotes ← closing? "'" then return quotes
    return (← lineChar) ++ (← literalLines n)

/-- A string on one line, from its opening quote. -/
def line : Reader String := do
  if ← accept "\"" then return String.ofList (← withLength basic)
  else
    expect "'"
    return String.ofList (← literal)

/-- A string of any kind, from its opening quote; a line ending right after a triple quote is not part of
the string. -/
def string : Reader String := do
  if ← accept "\"\"\"" then
    discard acceptNewline
    return String.ofList (← withLength basicLines)
  else if ← accept "'''" then
    discard acceptNewline
    return String.ofList (← withLength literalLines)
  else line

end Reckoner.Toml.Quoted
