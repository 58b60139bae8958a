/-! Blank characters: those with the Unicode property White_Space. -/

namespace ShiftReduce.Text

/-- Whether a character is white space. Joiners and the byte order mark are not. -/
def isBlank (c : Char) : Bool :=
  (0x9 ≤ c.toNat && c.toNat ≤ 0xd) || c.toNat == 0x20 || c.toNat == 0x85 || c.toNat == 0xa0 ||
    c.toNat == 0x1680 || (0x2000 ≤ c.toNat && c.toNat ≤ 0x200a) || c.toNat == 0x2028 ||
    c.toNat == 0x2029 || c.toNat == 0x202f || c.toNat == 0x205f || c.toNat == 0x3000

/-- The text without the blanks at both ends. -/
def trim (cs : List Char) : List Char :=
  ((cs.dropWhile isBlank).reverse.dropWhile isBlank).reverse

/-- The pieces of a text between its line feeds. -/
def lines : List Char → List (List Char)
  | [] => [[]]
  | '\n' :: cs => [] :: lines cs
  | c :: cs =>
    match lines cs with
    | [] => [[c]]
    | l :: ls => (c :: l) :: ls

/-- The longest pieces of a text that hold no blank. -/
def words : List Char → List (List Char)
  | [] => []
  | [c] => if isBlank c then [] else [[c]]
  | c :: d :: cs =>
    if isBlank c then words (d :: cs)
    else if isBlank d then [c] :: words (d :: cs)
    else
      match words (d :: cs) with
      | [] => [[c]]
      | w :: ws => (c :: w) :: ws

end ShiftReduce.Text
