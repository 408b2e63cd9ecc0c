/-!
# Lines

A text is its lines with a line feed between each two, so a text without a line feed is one line
and the empty text is one empty line.
-/

namespace ChuckLayout.Line

def split (text : List Char) : List (List Char) :=
  text.splitOn '\n'

def join (lines : List (List Char)) : List Char :=
  ['\n'].intercalate lines

theorem join_split (text : List Char) : join (split text) = text :=
  List.intercalate_splitOn '\n'

/-- Lines are found again in the text that they are joined to. -/
theorem split_join {lines : List (List Char)} (hfeed : ∀ line ∈ lines, '\n' ∉ line)
    (hlines : lines ≠ []) : split (join lines) = lines :=
  List.splitOn_intercalate '\n' hfeed hlines

/-- A line without the one carriage return that may end it. -/
def dropReturn (line : List Char) : List Char :=
  if line.getLast? = some '\r' then line.dropLast else line

end ChuckLayout.Line
