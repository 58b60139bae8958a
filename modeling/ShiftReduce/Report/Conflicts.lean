import ShiftReduce.ParseTable

/-! The conflicts of a table, one on a line, and how many there are of each kind. -/

namespace ShiftReduce.Report

def conflictCount (t : ParseTable) (kind : ConflictKind) : Nat :=
  t.conflicts.toList.countP (·.kind == kind)

def conflictSummary (g : Grammar) (t : ParseTable) : List String :=
  let shiftReduce := conflictCount t .shiftReduce
  let reduceReduce := conflictCount t .reduceReduce
  t.conflicts.toList.map (·.describe g) ++
    [s!"{shiftReduce} shift-reduce, {reduceReduce} reduce-reduce"]

end ShiftReduce.Report
