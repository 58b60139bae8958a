import ShiftReduce.Grammar.Augmented
import ShiftReduce.Text.Grid

/-! The rules of a grammar, and what is known of its symbols. -/

namespace ShiftReduce.Report

def ruleLines (g : Grammar) : List String :=
  "Rules:" :: g.rules.toList.zipIdx.map fun (rule, r) => s!"  ({r}) {g.ruleText rule}"

/-- A set of symbols by their labels, in braces. -/
def setText (g : Grammar) (s : SymbolSet) : String := "\x7b" ++ g.labelled s.toList ++ "\x7d"

/-- The row of a symbol. Terminals have no FOLLOW set worth showing. -/
def symbolRow (g : AugmentedGrammar) (s : Symbol) : List String :=
  let terminal := g.isTerminal s
  [toString s,
    g.label s,
    if terminal then "terminal" else "nonterminal",
    if g.isNullable s then "yes" else "",
    ((g.first? s).map (setText g.toGrammar)).getD "",
    if terminal then "" else ((g.follow? s).map (setText g.toGrammar)).getD ""]

def symbolGrid (g : AugmentedGrammar) : Text.Grid where
  titles := ["#", "Symbol", "Kind", "Nullable", "FIRST", "FOLLOW"]
  rows := g.symbols.map (symbolRow g)

end ShiftReduce.Report
