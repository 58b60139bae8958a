import ShiftReduce.Report.Table

/-! The states one after the other, each with its items and its actions, and the conflicts at the end. -/

namespace ShiftReduce.Report

/-- The lines about a state, with an empty one at the end. -/
def stateLines (g : Grammar) (t : ParseTable) (items : ItemSet) (s : StateId) : List String :=
  let itemLines := items.toList.map fun i => s!"  Rule ({i.rule}): {i.dotted g}"
  let actionLines := ((t.actions.row? s).getD []).map fun (x, a) =>
    s!"    {g.label x} => {a.text}"
  s!"State {s}" :: itemLines ++ actionLines ++ [""]

/-- The lines about the conflicts, if there are any. -/
def conflictLines (g : Grammar) (t : ParseTable) : List String :=
  if t.isConflictFree then []
  else
    s!"{t.conflicts.size} conflict(s):" ::
      t.conflicts.toList.map fun c => s!"  {c.describe g}"

def statesText (g : Grammar) (t : ParseTable) : String :=
  let states := t.automaton.states.toList.zipIdx.flatMap fun (items, s) => stateLines g t items s
  String.join ((states ++ conflictLines g t).map (· ++ "\n"))

end ShiftReduce.Report
