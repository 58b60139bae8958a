import ShiftReduce.Description.RuleLine

/-! The lines of a grammar description. Blank lines and lines that begin with `#` say nothing, a line
that begins with `%` is a directive with arguments, and any other line has to be a rule line. White
space at the ends of a line does not count. -/

namespace ShiftReduce

inductive DescriptionLine where
  | silent
  | directive (name : String) (arguments : List String)
  | rules (line : RuleLine)
  /-- A line that is neither of the others nor a rule line. -/
  | malformed
deriving DecidableEq, Repr

namespace DescriptionLine

/-- What a line says once the white space at its ends is gone. -/
def ofTrimmed : List Char → DescriptionLine
  | [] => silent
  | '#' :: _ => silent
  | '%' :: cs =>
    match (Text.words ('%' :: cs)).map String.ofList with
    | [] => malformed
    | name :: arguments => directive name arguments
  | cs =>
    match RuleLine.ofChars? cs with
    | some line => rules line
    | none => malformed

def ofChars (cs : List Char) : DescriptionLine := ofTrimmed (Text.trim cs)

end DescriptionLine

end ShiftReduce
