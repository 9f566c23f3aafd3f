/-!
# Lines

The lines of a text. A line feed ends a line and a carriage return directly before it belongs to the
ending; text after the last line feed is a last line that nothing ends.
-/

namespace Reckoner.Text

/-- A line without the carriage return that stands at its end. -/
def withoutReturn (line : List Char) : List Char :=
  if line.getLast? = some '\r' then line.dropLast else line

/-- The lines of a text in order. -/
def lines (text : String) : List String :=
  let pieces := text.toList.splitOn '\n'
  let ended := pieces.dropLast.map withoutReturn
  let last := pieces.getLast?.toList.filter (!·.isEmpty)
  (ended ++ last).map String.ofList

end Reckoner.Text
