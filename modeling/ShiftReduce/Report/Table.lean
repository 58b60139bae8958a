import ShiftReduce.ParseTable
import ShiftReduce.Text.Grid

/-! The parse table as a grid: a row for each state, with its items and its action on each symbol. -/

namespace ShiftReduce.Report

/-- The symbols that have a column: the terminals, and the nonterminals that can be gone to. Nothing
goes to the start symbol. -/
def columns (g : Grammar) : List Symbol :=
  g.terminals ++ g.nonterminals.filter (· != g.startSymbol)

def itemTexts (g : Grammar) (items : ItemSet) : List String := items.toList.map (·.dotted g)

def actionText (a : Option Action) : String := (a.map Action.text).getD ""

def tableRow (g : Grammar) (t : ParseTable) (items : ItemSet) (s : StateId) : List String :=
  toString s :: "\n".intercalate (itemTexts g items) ::
    (columns g).map fun x => actionText (t.action? s x)

def tableGrid (g : Grammar) (t : ParseTable) : Text.Grid where
  titles := "#" :: "LR(0) items" :: (columns g).map g.label
  rows := t.automaton.states.toList.zipIdx.map fun (items, s) => tableRow g t items s

end ShiftReduce.Report
