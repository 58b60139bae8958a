import ShiftReduce.ParseTable
import ShiftReduce.Text.Escape

/-! The automaton as a directed graph in the DOT language. Each state is a node that lists its items,
the completed ones underlined, and each shift and goto is an edge that bears the label of its symbol. -/

namespace ShiftReduce.Report

/-- The line about an item in the node of its state. -/
def itemLine (g : Grammar) (i : Item) : String :=
  let text := Text.escapeMarkup (i.dotted g)
  match i.isComplete g with
  | .ok true => s!"      <TR><TD><U>{text}</U></TD></TR>"
  | _ => s!"      <TR><TD>{text}</TD></TR>"

def nodeText (g : Grammar) (items : ItemSet) (s : StateId) : String :=
  "\n".intercalate
    [s!"  State{s} [shape=plain label=<",
      "    <TABLE BORDER=\"0\" CELLBORDER=\"1\" CELLSPACING=\"0\">",
      s!"      <TR><TD><B>State #{s}</B></TD></TR>",
      "\n".intercalate (items.toList.map (itemLine g)),
      "    </TABLE>",
      "  >];"]

def edgeLine (source target : StateId) (label : String) : String :=
  s!"  State{source} -> State{target} [label=\"" ++ Text.escapeQuotes label ++ "\"];"

/-- The edge that belongs to an action, if it leads to a state. -/
def actionEdge? (g : Grammar) (source : StateId) : Symbol × Action → Option String
  | (x, .shift target) => some (edgeLine source target (g.label x))
  | (x, .goto target) => some (edgeLine source target (g.label x))
  | _ => none

def edgeLines (g : Grammar) (t : ParseTable) (source : StateId) : List String :=
  ((t.actions.row? source).getD []).filterMap (actionEdge? g source)

def graphText (g : Grammar) (t : ParseTable) : String :=
  let parts := t.automaton.states.toList.zipIdx.flatMap fun (items, s) =>
    nodeText g items s :: edgeLines g t s
  "\n".intercalate ("digraph lr0_states \x7b" :: parts ++ ["\x7d"])

end ShiftReduce.Report
