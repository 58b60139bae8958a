import ShiftReduce.Text.Emoji
import ShiftReduce.Text.Ligature
import ShiftReduce.Text.Wide

/-! The width of a line of text, counted in places of a grid. By itself a character takes one place, or
none if it is weightless, or two if it is wide. Together characters may take less or more: letters flow
into one sign, variation selectors and modifiers change the emoji before them, and joiners make one
emoji of several. All of this depends on what comes next, so a line is measured from its end. Sequences
that set the colours of a terminal do not show, and are taken off in the end. -/

namespace ShiftReduce.Text

/-! ### Characters by themselves -/

/-- The places that a character takes by itself. -/
def charWidth (c : Char) : Nat :=
  if c.toNat < 0x300 then if c.toNat = 0xad then 0 else 1
  else if weightless.contains c then 0
  else if c.toNat = 0x17d8 then 3
  else if wide.contains c then 2
  else 1

/-- What stands after a character, so far as it matters for the width of the character. -/
inductive Following where
  | other
  /-- The rest of a sign of several letters, which may have been joined to what stands before. -/
  | ligature (part : Ligature) (joined : Bool)
  | emoji
  /-- A modifier, which needs an emoji before it. -/
  | modifier
  /-- A joiner and an emoji. -/
  | joinedEmoji
  /-- An enclosing keycap, a joiner and an emoji. -/
  | joinedKeycap
  /-- One regional indicator. -/
  | indicator
  /-- Two regional indicators or more. -/
  | indicators
  /-- One regional indicator, a joiner and an emoji. -/
  | joinedIndicator
  /-- Pairs of regional indicators, a joiner and an emoji. -/
  | joinedPairs
  /-- A regional indicator before such pairs. -/
  | joinedOdd
  /-- The end of a sequence of tags, with some letters and then some digits. -/
  | tags (letters digits : Nat)
deriving DecidableEq, Repr

/-- What follows a character, with the variation selectors that it may be subject to. -/
structure Context where
  following : Following := .other
  emojiStyle : Bool := false
  textStyle : Bool := false
deriving DecidableEq, Repr

/-- What a character is for those before it. -/
def Following.ofChar (c : Char) : Following :=
  if weightless.contains c then .other
  else if isRegionalIndicator c then .indicator
  else if isModifier c then .modifier
  else if Text.emoji.contains c then .emoji
  else
    match Ligature.ofChar? c with
    | some part => .ligature part false
    | none => .other

/-! ### Characters before others -/

/-- How an emoji or a part of one goes on with what follows it, and the places that this adds. -/
def Following.joinEmoji? (c : Char) : Following → Option (Int × Following)
  | emoji => if c.toNat = joiner then some (0, joinedEmoji) else none
  | modifier =>
    if modifierBases.contains c then some (0, emoji)
    else if c.toNat = joiner then some (0, joinedEmoji)
    else none
  | joinedEmoji =>
    if c.toNat = 0x20e3 then some (0, joinedKeycap)
    else if isRegionalIndicator c then some (1, joinedIndicator)
    else if isModifier c then some (0, modifier)
    else if c.toNat = 0xe007f then some (0, tags 0 0)
    else if Text.emoji.contains c then some (0, emoji)
    else none
  | indicator => if isRegionalIndicator c then some (1, indicators) else none
  | indicators =>
    if isRegionalIndicator c then some (1, indicators)
    else if c.toNat = joiner then some (0, joinedEmoji)
    else none
  | joinedIndicator => if isRegionalIndicator c then some (-1, joinedPairs) else none
  | joinedPairs =>
    if isRegionalIndicator c then some (3, joinedOdd)
    else if c.toNat = joiner then some (0, joinedEmoji)
    else none
  | joinedOdd =>
    if isRegionalIndicator c then some (-1, joinedPairs)
    else if c.toNat = joiner then some (0, joinedEmoji)
    else none
  | tags letters digits =>
    if 0xe0061 ≤ c.toNat ∧ c.toNat ≤ 0xe007a then
      if digits = 0 ∧ letters < 6 then some (0, tags (letters + 1) 0) else none
    else if 0xe0030 ≤ c.toNat ∧ c.toNat ≤ 0xe0039 then
      if digits = 0 ∧ letters < 5 ∨ 0 < digits ∧ digits < 3 then some (0, tags letters (digits + 1))
      else none
    else if c.toNat = 0x1f3f4 ∧ (digits = 3 ∨ digits = 0 ∧ 3 ≤ letters) then some (0, emoji)
    else none
  | _ => none

/-- How a character goes on with what follows it, and the places that this adds. -/
def Following.join? (c : Char) : Following → Option (Int × Following)
  | ligature part joined =>
    (part.step? joined c).map fun
      | .complete change => (change, other)
      | .extend change next => (change, ligature next false)
      | .pass => (0, ligature part joined)
      | .join => (0, ligature part true)
  | f => f.joinEmoji? c

/-- Whether the rest of a sign of several letters follows. -/
def Following.isLigature : Following → Bool
  | ligature _ _ => true
  | _ => false

/-- What follows when a selector turns out to select nothing: it only leaves ligatures as they are. -/
def Following.past (f : Following) : Following := if f.isLigature then f else other

/-- The context before the selector of emoji style. -/
def Context.selectEmoji (k : Context) : Context :=
  match k.following with
  | .ligature _ _ => { k with emojiStyle := true }
  | .joinedEmoji | .joinedKeycap => ⟨k.following, true, false⟩
  | _ => ⟨.other, true, false⟩

/-- The context before the selector of text style. -/
def Context.selectText (k : Context) : Context :=
  if k.following.isLigature then { k with textStyle := true } else ⟨.other, false, true⟩

/-- The context for a character that emoji style does not apply to. -/
def Context.pastEmojiStyle (k : Context) : Context :=
  if k.emojiStyle then
    if k.following.isLigature then { k with emojiStyle := false } else {}
  else k

/-- The places that a character adds, and the context for those before it. -/
def Context.place (c : Char) (k : Context) : Int × Context :=
  if k.emojiStyle && variationBases.contains c then
    let joined := k.following == .joinedEmoji || k.following == .joinedKeycap
    (if joined then 0 else 2, { following := .emoji })
  else
    let k := k.pastEmojiStyle
    if c.toNat ≤ 0xa0 then (1, {})
    else if c.toNat = 0xfe0f then (0, k.selectEmoji)
    else if c.toNat = 0xfe0e then (0, k.selectText)
    else if k.textStyle && shrinksAsText c then (1, {})
    else
      let f := if k.textStyle then k.following.past else k.following
      match f.join? c with
      | some (n, f) => (n, { following := f })
      | none => (charWidth c, { following := .ofChar c })

def placesOf (cs : List Char) : Int :=
  (cs.foldr (fun c (r : Int × Context) =>
    let (n, k) := r.2.place c
    (r.1 + n, k)) (0, {})).1

/-! ### Sequences that do not show -/

/-- Where a reader is that looks for sequences such as `ESC [ 31 m`. -/
inductive Scan where
  | text
  | escape
  | sequence
deriving DecidableEq, Repr

/-- Whether a character takes room by itself. Control characters do not. -/
def takesRoom (c : Char) : Bool :=
  !(c.toNat < 0x20 || 0x7f ≤ c.toNat && c.toNat < 0xa0) && charWidth c != 0

/-- How many characters that take room stand inside sequences, after the escape character. -/
def hiddenFrom : Scan → List Char → Nat
  | _, [] => 0
  | .text, c :: cs => hiddenFrom (if c = '\x1b' then .escape else .text) cs
  | .escape, c :: cs => if c = '[' then hiddenFrom .sequence cs + 1 else hiddenFrom .text cs
  | .sequence, c :: cs =>
    hiddenFrom (if c = 'm' then .text else .sequence) cs + (if takesRoom c then 1 else 0)

def width (line : String) : Nat :=
  (placesOf line.toList - hiddenFrom .text line.toList).toNat

end ShiftReduce.Text
