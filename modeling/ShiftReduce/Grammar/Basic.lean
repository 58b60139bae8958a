import ShiftReduce.OrderedSet

/-! Context-free grammars as the table construction sees them: labelled symbols, numbered rules, the
start rule and the end-of-input symbol, and a FOLLOW set for some of the symbols. A grammar may come
from anywhere, so nothing about it is checked here. Its rules may name symbols that have no label, a
rule or FOLLOW set that the construction asks for may be missing, and the client may list symbols or
find rules in its own way. -/

namespace ShiftReduce

/-- Symbols are numbered. Whether one is a terminal is for the grammar to say. -/
abbrev Symbol := Nat

abbrev RuleId := Nat

abbrev SymbolSet := OrderedSet Symbol

/-- How a symbol is written where its label is not known. -/
def Symbol.text (s : Symbol) : String := s!"#{s}"

/-- A production: the left-hand side may be replaced by the right-hand side. -/
structure Rule where
  lhs : Symbol
  rhs : List Symbol
deriving DecidableEq, Repr

def Rule.isEpsilon (r : Rule) : Bool := r.rhs.isEmpty

/-- The rules of a left-hand side, found by looking at every rule in turn. -/
def scanRules (rules : Array Rule) (lhs : Symbol) : List RuleId :=
  (List.range rules.size).filter fun r => rules[r]?.any (·.lhs == lhs)

/-- A grammar as it is presented to the table construction. -/
structure Grammar where
  /-- The labels of the symbols `0`, `1` and so on. -/
  labels : Array String
  rules : Array Rule
  /-- The rule that derives whole inputs. -/
  startRule : RuleId
  /-- The symbol whose completed rules accept. -/
  startSymbol : Symbol
  /-- The symbol that stands for the end of the input. -/
  endSymbol : Symbol
  isTerminal : Symbol → Bool
  follow? : Symbol → Option SymbolSet
  /-- The symbols in the order in which transitions are tried. -/
  symbols : List Symbol := List.range labels.size
  /-- The symbols that may be shifted. -/
  terminals : List Symbol := (List.range labels.size).filter isTerminal
  /-- The symbols that may label a goto. -/
  nonterminals : List Symbol := (List.range labels.size).filter fun s => !isTerminal s
  /-- The rules of a left-hand side. The answer is believed as it stands. -/
  rulesWithLhs : Symbol → List RuleId := scanRules rules

namespace Grammar

def symbolCount (g : Grammar) : Nat := g.labels.size

/-- The label of a symbol, or a stand-in where there is none. -/
def label (g : Grammar) (s : Symbol) : String := g.labels[s]?.getD "<unknown>"

/-- The labels of some symbols, with blanks between them. -/
def labelled (g : Grammar) (l : List Symbol) : String := " ".intercalate (l.map g.label)

def ruleCount (g : Grammar) : Nat := g.rules.size

def rule? (g : Grammar) (r : RuleId) : Option Rule := g.rules[r]?

/-- A rule in writing: both sides by their labels, with `ε` for an empty right-hand side. -/
def ruleText (g : Grammar) (r : Rule) : String :=
  let rhs := if r.isEpsilon then "ε" else g.labelled r.rhs
  s!"{g.label r.lhs} → {rhs}"

end Grammar

end ShiftReduce
