/-!
# Readers of TOML

The small readers that TOML's grammar is put together from. A reader takes a phrase off the front of a
text, or fails.
-/

namespace Reckoner.Toml

/-- Takes a phrase off the front of a text. -/
abbrev Reader := StateT (List Char) Option

namespace Reader

/-- Takes the next character. -/
def next : Reader Char := fun
  | c :: rest => some (c, rest)
  | [] => none

/-- The next character, without taking it. -/
def peek? : Reader (Option Char) :=
  return (← get).head?

/-- Takes a given text if it comes next, and says whether it did. -/
def accept (expected : String) : Reader Bool := fun text =>
  if expected.toList.isPrefixOf text then some (true, text.drop expected.length)
  else some (false, text)

/-- Takes a given text, which has to come next. -/
def expect (expected : String) : Reader Unit := do
  unless ← accept expected do failure

/-- Takes characters as long as they are of a kind. -/
def takeWhile (p : Char → Bool) : Reader (List Char) := fun text =>
  some (text.takeWhile p, text.dropWhile p)

/-- Whether nothing is left. -/
def atEnd : Reader Bool :=
  return (← get).isEmpty

/-- Runs a reader with the length of the text that is left, which bounds its steps. -/
def withLength {α : Type} (reader : Nat → Reader α) : Reader α := do
  reader ((← get).length + 1)

/-- Whether a character may stand in comments and in strings. -/
def isTextChar (c : Char) : Bool :=
  c == '\t' || ' ' ≤ c && c != '\x7f'

/-- Takes spaces and tabs. -/
def skipSpaces : Reader Unit :=
  discard (takeWhile fun c => c == ' ' || c == '\t')

/-- Takes a line ending if one comes next, and says whether it did. -/
def acceptNewline : Reader Bool := do
  if ← accept "\n" then return true else accept "\r\n"

/-- Takes a comment if one comes next. -/
def skipComment : Reader Unit := do
  if ← accept "#" then discard (takeWhile isTextChar)

/-- A text without the spaces, comments and line endings in front of it. -/
def afterGap (inComment : Bool) : List Char → List Char
  | [] => []
  | c :: rest =>
    if inComment && isTextChar c then afterGap true rest
    else if c == '\n' then afterGap false rest
    else if c == '\r' then
      match rest with
      | '\n' :: rest => afterGap false rest
      | _ => c :: rest
    else if inComment then c :: rest
    else if c == '#' then afterGap true rest
    else if c == ' ' || c == '\t' then afterGap false rest
    else c :: rest

/-- Takes spaces, comments and line endings. -/
def skipGap : Reader Unit :=
  modify (afterGap false)

end Reader
end Reckoner.Toml
