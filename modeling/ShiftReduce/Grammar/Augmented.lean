import ShiftReduce.Grammar.Sets

/-! Grammars made ready for the table construction: rule `0` derives the start symbol that was asked
for from a new symbol with a label of its own, and the nullable symbols and the FIRST and FOLLOW sets
have been worked out. -/

namespace ShiftReduce

/-- A grammar with a start rule of its own and the sets that go with its rules. -/
structure AugmentedGrammar extends Grammar where
  /-- The start symbol that was asked for. -/
  userStart : Symbol
  nullable : Numbering Symbol
  firstSets : Array SymbolSet

namespace AugmentedGrammar

/-- Adds primes to a label until it differs from the given ones. -/
def freshLabel (labels : Array String) (label : String) : String :=
  if _h : label ∈ labels.toList then freshLabel labels (label.push '\'') else label
termination_by labels.toList.countP (label.length ≤ ·.length)
decreasing_by
  refine countP_lt_countP ?_ _h (by simp) (by simp)
  intro l _ hl
  simp only [String.length_push, decide_eq_true_eq] at hl ⊢
  omega

/-- The rules of each of the first `count` symbols. -/
def indexRules (count : Nat) (rules : List Rule) : Grouping RuleId :=
  .ofPairs count (rules.zipIdx.map fun (rule, r) => (rule.lhs, r))

/-- Adds a start rule for `userStart`, and the nullable symbols and the FIRST and FOLLOW sets of the
result. The end symbol is symbol `0`, and a symbol that has no rule is a terminal. -/
def ofRules (labels : Array String) (userRules : Array Rule) (userStart : Symbol) :
    AugmentedGrammar :=
  let start := labels.size
  let count := start + 1
  let rules := #[⟨start, [userStart]⟩] ++ userRules
  let index := indexRules count rules.toList
  let isTerminal := fun s => decide (s < count) && (index.get s).isEmpty
  let nullable := Sets.nullable rules.toList
  let begins := Grouping.ofPairs count (Sets.begins nullable.contains rules.toList)
  let firstSets := (Array.range count).map (Sets.first begins isTerminal)
  let first := fun s => firstSets[s]?.getD ∅
  let ends := Grouping.ofPairs count (Sets.ends nullable.contains rules.toList)
  let nexts := Grouping.ofPairs count (Sets.nexts nullable.contains rules.toList)
  let followSets := (Array.range count).map fun s =>
    if isTerminal s then ∅ else Sets.follow ends nexts first start 0 s
  { labels := labels.push (freshLabel labels ((labels[userStart]?.getD "").push '\''))
    rules
    startRule := 0
    startSymbol := start
    endSymbol := 0
    isTerminal
    follow? := fun s => followSets[s]?
    rulesWithLhs := index.get
    userStart
    nullable
    firstSets }

variable (g : AugmentedGrammar)

def symbol? (label : String) : Option Symbol := g.labels.idxOf? label

def isNullable (s : Symbol) : Bool := g.nullable.contains s

def first? (s : Symbol) : Option SymbolSet := g.firstSets[s]?

end AugmentedGrammar

end ShiftReduce
