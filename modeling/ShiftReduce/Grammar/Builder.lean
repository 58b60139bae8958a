import ShiftReduce.Grammar.Augmented

/-! Grammars are put together step by step: symbols are registered by their labels and numbered in
that order, rules are added over registered symbols and numbered from `1`, and a start symbol is
chosen. Symbol `0` is the end of the input, and rule `0` is kept for the start rule that `build` adds.
A call can fail. It answers and leaves a builder behind in either case, and whoever gives up when it
fails goes without the builder. -/

namespace ShiftReduce

/-- Why a grammar could not be put together. -/
inductive GrammarError where
  | missingStart
  /-- The start symbol, of the given label, has no rule. -/
  | missingStartRule (label : String)
  | unknownSymbol (symbol : Symbol)
  | endSymbolInRule
deriving DecidableEq, Repr

def GrammarError.message : GrammarError → String
  | missingStart => "Missing start symbol"
  | missingStartRule label =>
    s!"Missing start rule: no rule has `{label}` as its left-hand side"
  | unknownSymbol s => s!"Symbol {s.text} has not been registered"
  | endSymbolInRule => "The end-of-input symbol cannot be used in a rule"

structure Builder where
  /-- The labels of the symbols `0`, `1` and so on. -/
  labels : Array String
  /-- Leads from a label back to its symbol. -/
  index : Std.TreeMap String Symbol
  /-- The rules so far; the first of them is rule `1`. -/
  rules : Array Rule
  start : Option Symbol

namespace Builder

def endLabel : String := "$end"

/-- The builder in which only the end symbol is registered. -/
def empty : Builder := ⟨#[endLabel], (∅ : Std.TreeMap String Symbol).insert endLabel 0, #[], none⟩

def endSymbol : Symbol := 0

def symbol? (b : Builder) (label : String) : Option Symbol := b.index[label]?

/-- Registers a label unless it is registered already, and gives its symbol. -/
def addToken (b : Builder) (label : String) : Symbol × Builder :=
  match b.symbol? label with
  | some s => (s, b)
  | none =>
    (b.labels.size, { b with labels := b.labels.push label, index := b.index.insert label b.labels.size })

/-- Registers labels in turn, and gives their symbols. -/
def addTokens (b : Builder) : List String → List Symbol × Builder
  | [] => ([], b)
  | label :: rest =>
    let (s, b) := b.addToken label
    let (l, b) := b.addTokens rest
    (s :: l, b)

/-- What speaks against a symbol in a rule. -/
def symbolError? (b : Builder) (s : Symbol) : Option GrammarError :=
  if b.labels.size ≤ s then some (.unknownSymbol s)
  else if s = endSymbol then some .endSymbolInRule
  else none

/-- Adds a rule and answers its number. The first symbol that may not stand in a rule is the error; the
left-hand side is looked at first. -/
def insertRule (b : Builder) (lhs : Symbol) (rhs : List Symbol) : Except GrammarError RuleId × Builder :=
  match (lhs :: rhs).findSome? b.symbolError? with
  | some e => (.error e, b)
  | none =>
    let b := { b with rules := b.rules.push ⟨lhs, rhs⟩ }
    (.ok b.rules.size, b)

def chooseStart (b : Builder) (start : Symbol) : Except GrammarError Unit × Builder :=
  if b.labels.size ≤ start then (.error (.unknownSymbol start), b)
  else (.ok (), { b with start := some start })

/-- The answer and the builder that are left by a call, unless it fails. -/
def goOn {α : Type} : Except GrammarError α × Builder → Except GrammarError (α × Builder)
  | (.ok a, b) => .ok (a, b)
  | (.error e, _) => .error e

def addRule (b : Builder) (lhs : Symbol) (rhs : List Symbol) : Except GrammarError (RuleId × Builder) :=
  goOn (b.insertRule lhs rhs)

def setStart (b : Builder) (start : Symbol) : Except GrammarError Builder :=
  (goOn (b.chooseStart start)).map (·.2)

/-- The grammar that has been put together, with its start rule and its sets. -/
def build (b : Builder) : Except GrammarError AugmentedGrammar :=
  match b.start with
  | none => .error .missingStart
  | some start =>
    if b.rules.any (·.lhs == start) then .ok (.ofRules b.labels b.rules start)
    else .error (.missingStartRule (b.labels[start]?.getD ""))

end Builder

end ShiftReduce
