import ShiftReduce.Text.Weightless

/-! Letters that are written as one sign with letters before them, in a few scripts. What a sign takes
depends on the letters before it, so a text is read from its end: a `Ligature` is the part that has been
read so far, and each character before it may go on with it. -/

namespace ShiftReduce.Text

/-- The last part of a sign that more letters may go into. -/
inductive Ligature where
  /-- An Arabic alef, before which a lam may stand. -/
  | alef
  /-- A Hebrew lamed, before which an alef may be joined. -/
  | lamed
  /-- A Buginese ya, before which a vowel may be joined. -/
  | ya
  /-- A joined Buginese vowel and ya. -/
  | vowelYa
  | consonant
  /-- A Tifinagh consonant after the sign that joins consonants. -/
  | joinedConsonant
  /-- One of the Lisu tones that are written after others. -/
  | tone
  /-- An Old Turkic letter that a vowel may be joined to. -/
  | orkhon
  /-- A Khmer letter that can be written below another. -/
  | khmer
deriving DecidableEq, Repr

def joiner : Nat := 0x200d

/-- The Arabic letters of the form of lam. -/
def lams : CharClass := ⟨#[
  (0x644, 0x644), (0x6b5, 0x6b8), (0x76a, 0x76a), (0x8a6, 0x8a6), (0x8c7, 0x8c7)]⟩

/-- The Arabic letters of the form of alef. -/
def alefs : CharClass := ⟨#[
  (0x622, 0x623), (0x625, 0x625), (0x627, 0x627), (0x671, 0x673), (0x675, 0x675), (0x773, 0x774),
  (0x870, 0x882)]⟩

/-- The Khmer letters that have a form below the line. -/
def khmerLetters : CharClass := ⟨#[
  (0x1780, 0x1782), (0x1784, 0x1787), (0x1789, 0x178c), (0x178e, 0x1793), (0x1795, 0x1798),
  (0x179b, 0x179d), (0x17a0, 0x17a0), (0x17a2, 0x17a2), (0x17a7, 0x17a7), (0x17ab, 0x17ac),
  (0x17af, 0x17af)]⟩

def tifinaghConsonants : CharClass := ⟨#[(0x2d31, 0x2d65), (0x2d6f, 0x2d6f)]⟩

/-- The weightless characters that Arabic letters do not join across. -/
def unjoined : CharClass := ⟨#[
  (0x605, 0x605), (0x890, 0x891), (0x8e2, 0x8e2), (0x9be, 0x9be), (0x9d7, 0x9d7), (0xb3e, 0xb3e),
  (0xb57, 0xb57), (0xbbe, 0xbbe), (0xbd7, 0xbd7), (0xcc0, 0xcc0), (0xcc2, 0xcc2), (0xcc7, 0xcc8),
  (0xcca, 0xccb), (0xcd5, 0xcd6), (0xd3e, 0xd3e), (0xd4e, 0xd4e), (0xd57, 0xd57), (0xdcf, 0xdcf),
  (0xddf, 0xddf), (0x1160, 0x11ff), (0x180e, 0x180e), (0x1b35, 0x1b35), (0x1b3b, 0x1b3b),
  (0x1b3d, 0x1b3d), (0x1b43, 0x1b43), (0x200c, 0x200d), (0x2065, 0x2069), (0x302e, 0x302f),
  (0x3164, 0x3164), (0xa8fa, 0xa8fa), (0xd7b0, 0xd7c6), (0xd7cb, 0xd7fb), (0xff9e, 0xffa0),
  (0xfff0, 0xfff8), (0x111c2, 0x111c3), (0x1133e, 0x1133e), (0x11357, 0x11357), (0x114b0, 0x114b0),
  (0x114bd, 0x114bd), (0x115af, 0x115af), (0x11930, 0x11930), (0x1193f, 0x1193f),
  (0x11941, 0x11941), (0x11a3a, 0x11a3a), (0x11a84, 0x11a89), (0x11d46, 0x11d46),
  (0x11f02, 0x11f02), (0x1d165, 0x1d165), (0x1d16e, 0x1d172), (0xe0000, 0xe0000),
  (0xe0002, 0xe001f), (0xe0080, 0xe00ff), (0xe01f0, 0xe0fff)]⟩

/-- The marks that any ligature but the Arabic ones may hold: those that are ignored by default. -/
def ignoredMarks : CharClass := ⟨#[
  (0x34f, 0x34f), (0x17b4, 0x17b5), (0x180b, 0x180d), (0x180f, 0x180f), (0xfe00, 0xfe0f),
  (0xe0100, 0xe01ef)]⟩

namespace Ligature

/-- The part of a sign that a letter is, if letters before it may go into the sign. -/
def ofChar? (c : Char) : Option Ligature :=
  let n := c.toNat
  if alefs.contains c then some alef
  else if n = 0x5dc then some lamed
  else if n = 0x1a10 then some ya
  else if n = 0x10c03 then some orkhon
  else if khmerLetters.contains c then some khmer
  else if tifinaghConsonants.contains c then some consonant
  else if n = 0xa4fc ∨ n = 0xa4fd then some tone
  else none

/-- What a character adds to the part of a sign after it. -/
inductive Step where
  /-- It completes the sign, and changes what the sign takes. -/
  | complete (change : Int)
  /-- It becomes part of the sign, which can still go on, and changes what the sign takes. -/
  | extend (change : Int) (part : Ligature)
  /-- It stands inside the sign and adds nothing. -/
  | pass
  /-- It joins the sign to what stands before. -/
  | join
deriving DecidableEq, Repr

/-- How a character goes on with the part of a sign after it, if it does. Some letters have to be joined
to the sign. -/
def step? (part : Ligature) (joined : Bool) (c : Char) : Option Step :=
  let n := c.toNat
  if part = alef then
    if lams.contains c then some (.complete 0)
    else if weightless.contains c && !unjoined.contains c then some .pass
    else none
  else if n = joiner then some .join
  else if ignoredMarks.contains c then some .pass
  else
    match part with
    | alef => none
    | lamed => if joined ∧ n = 0x5d0 then some (.complete 0) else none
    | ya => if joined ∧ n = 0x1a17 then some (.extend 0 vowelYa) else none
    | vowelYa => if n = 0x1a15 then some (.complete 0) else none
    | consonant =>
      if n = 0x2d7f then some (.extend 1 joinedConsonant)
      else if joined && tifinaghConsonants.contains c then some (.complete 0)
      else none
    | joinedConsonant => if tifinaghConsonants.contains c then some (.complete (-1)) else none
    | tone => if 0xa4f8 ≤ n ∧ n ≤ 0xa4fb then some (.complete 0) else none
    | orkhon => if joined ∧ n = 0x10c32 then some (.complete 0) else none
    | khmer => if n = 0x17d2 then some (.complete (-1)) else none

end Ligature

end ShiftReduce.Text
