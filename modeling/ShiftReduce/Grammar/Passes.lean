import ShiftReduce.Grammar.Sets
import ShiftReduce.Loop

/-! The nullable symbols and the FIRST and FOLLOW sets, worked out in passes over the rules. A pass takes
up rule after rule and puts into the sets what the rule shows, so a rule sees what the rules before it
have put there. Passes follow one another until one of them has changed nothing. The nullable symbols
and the FIRST sets are worked out together, and the FOLLOW sets when both are there. -/

namespace ShiftReduce

/-- The sets of the symbols while they are worked out. -/
structure Draft where
  nullable : Array Bool
  /-- The FIRST sets, and in the later passes the FOLLOW sets. -/
  sets : Array SymbolSet
  /-- Whether anything has been put in since the pass began. -/
  changed : Bool

namespace Draft

def isNullable (d : Draft) (s : Symbol) : Bool := d.nullable[s]?.getD false

def set (d : Draft) (s : Symbol) : SymbolSet := d.sets[s]?.getD ∅

/-! ### Putting something in -/

/-- Puts `x` into the set of `s`. -/
def enter (s : Symbol) (d : Draft) (x : Symbol) : Draft :=
  if x ∈ d.set s then d
  else { d with sets := d.sets.modify s fun set => .ofList (x :: set.toList), changed := true }

def enterAll (s : Symbol) (d : Draft) (set : SymbolSet) : Draft := set.toList.foldl (enter s) d

def markNullable (d : Draft) (s : Symbol) : Draft :=
  if d.isNullable s then d else { d with nullable := d.nullable.setIfInBounds s true, changed := true }

/-- Puts into the set of `s` what can come first in a string, from symbol to symbol as long as they are
nullable. If all of them are, it goes on with `done`. -/
def enterFirst (first : Draft → Symbol → SymbolSet) (s : Symbol) (done : Draft → Draft) (d : Draft) :
    List Symbol → Draft
  | [] => done d
  | t :: l =>
    let next := d.enterAll s (first d t)
    if next.isNullable t then enterFirst first s done next l else next

/-! ### What a rule shows -/

/-- What can come first in the right-hand side can come first in the left-hand side. -/
def firstStep (d : Draft) (r : Rule) : Draft := enterFirst set r.lhs (·.markNullable r.lhs) d r.rhs

/-- What follows a symbol of a right-hand side, which is given with the rest behind it: what can come
first in the rest, and if the rest is nullable what follows the left-hand side. Nothing follows a
terminal. -/
def followAt (first : Symbol → SymbolSet) (isTerminal : Symbol → Bool) (lhs : Symbol) (d : Draft)
    (p : Symbol × List Symbol) : Draft :=
  if isTerminal p.1 then d
  else enterFirst (fun _ => first) p.1 (fun next => next.enterAll p.1 (next.set lhs)) d p.2

def followStep (first : Symbol → SymbolSet) (isTerminal : Symbol → Bool) (d : Draft) (r : Rule) : Draft :=
  (Sets.splits r.rhs).foldl (followAt first isTerminal r.lhs) d

/-! ### Passes -/

/-- Takes up the rules one after the other. -/
def pass (step : Draft → Rule → Draft) (rules : List Rule) (d : Draft) : Draft :=
  rules.foldl step { d with changed := false }

/-- Makes a pass. There is another one unless this one has changed nothing. -/
def turn (step : Draft → Rule → Draft) (rules : List Rule) (d : Draft) : Draft ⊕ Draft :=
  let next := d.pass step rules
  if next.changed then .inl next else .inr next

/-- Only terminals are known to come first in something, namely in themselves. -/
def ofTerminals (count : Nat) (isTerminal : Symbol → Bool) : Draft where
  nullable := .replicate count false
  sets := (Array.range count).map fun s => if isTerminal s then .ofList [s] else ∅
  changed := true

/-- The nullable symbols and the FIRST sets, if the passes come to an end. -/
def firstSets? (count : Nat) (isTerminal : Symbol → Bool) (rules : List Rule) : Option Draft :=
  loop (turn firstStep rules) (ofTerminals count isTerminal)

/-- Only the end is known to follow something, namely the start symbol. -/
def ofEnd (d : Draft) (start endSymbol : Symbol) : Draft where
  nullable := d.nullable
  sets := (Array.replicate d.sets.size ∅).modify start fun _ => .ofList [endSymbol]
  changed := true

/-- The FOLLOW sets that go with the nullable symbols and the FIRST sets of a draft, if the passes come to
an end. -/
def followSets? (d : Draft) (isTerminal : Symbol → Bool) (start endSymbol : Symbol) (rules : List Rule) :
    Option Draft :=
  loop (turn (followStep d.set isTerminal) rules) (d.ofEnd start endSymbol)

end Draft

end ShiftReduce
