/-! Characters that would be read as part of the surrounding format are written in another way: as
character references inside markup, and with a backslash before a quotation mark inside a quoted
string. -/

namespace ShiftReduce.Text

/-- Writes `s` wherever `c` stands. -/
def replaceChar (c : Char) (s : String) (cs : List Char) : List Char :=
  cs.flatMap fun d => if d = c then s.toList else [d]

/-- The text with character references for the characters that have a meaning in markup. Ampersands
come first, so that those of the references stay. -/
def escapeMarkup (s : String) : String :=
  let cs := replaceChar '&' "&amp;" s.toList
  let cs := replaceChar '<' "&lt;" cs
  let cs := replaceChar '>' "&gt;" cs
  String.ofList (replaceChar '"' "&quot;" cs)

/-- The text with a backslash before each quotation mark. -/
def escapeQuotes (s : String) : String :=
  String.ofList (replaceChar '"' "\\\"" s.toList)

end ShiftReduce.Text
