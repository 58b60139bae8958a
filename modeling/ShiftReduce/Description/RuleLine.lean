import ShiftReduce.Text.Blank

/-! Rule lines such as `expr -> expr + term | term`. A line falls into names, arrows and bars, with
spaces and tabs between them where one likes. A name goes on as long as it can: it ends at white
space, at a bar and at an arrow, so a dash belongs to it unless the next character makes an arrow of
it. The line names a left-hand side, then come an arrow and the alternatives with bars between them.
An alternative may be empty. -/

namespace ShiftReduce

structure RuleLine where
  lhs : String
  alternatives : List (List String)
deriving DecidableEq, Repr

namespace RuleLine

inductive Lexeme where
  | name (text : String)
  | arrow
  | bar
deriving DecidableEq, Repr

def isNameChar (c : Char) : Bool := !Text.isBlank c && c != '|'

def startsArrow : List Char → Bool
  | c :: d :: _ => c == '-' && d == '>'
  | _ => false

/-- The length of the longest piece at the beginning that belongs to a name. -/
def nameLength : List Char → Nat
  | [] => 0
  | c :: cs => if startsArrow (c :: cs) || !isNameChar c then 0 else nameLength cs + 1

/-- The names, arrows and bars of a line. There are none if white space other than spaces and tabs
stands between them. -/
def lexemes : List Char → Option (List Lexeme)
  | [] => some []
  | c :: cs =>
    if startsArrow (c :: cs) then (lexemes cs.tail).map (.arrow :: ·)
    else if c = ' ' ∨ c = '\t' then lexemes cs
    else if c = '|' then (lexemes cs).map (.bar :: ·)
    else if Text.isBlank c then none
    else
      let n := nameLength cs
      (lexemes (cs.drop n)).map (.name (String.ofList (c :: cs.take n)) :: ·)
termination_by cs => cs.length
decreasing_by all_goals simp only [List.length_cons, List.length_tail, List.length_drop]; omega

/-- The alternatives on the right of the arrow, at least one. -/
def readAlternatives : List Lexeme → Option (List (List String))
  | [] => some [[]]
  | .arrow :: _ => none
  | .bar :: l => (readAlternatives l).map ([] :: ·)
  | .name s :: l =>
    match readAlternatives l with
    | some (a :: rest) => some ((s :: a) :: rest)
    | _ => none

/-- The rules that a line stands for, if it is a rule line. -/
def ofChars? (cs : List Char) : Option RuleLine :=
  match lexemes cs with
  | some (.name lhs :: .arrow :: l) => (readAlternatives l).map (⟨lhs, ·⟩)
  | _ => none

end RuleLine

end ShiftReduce
