import ShiftReduce.Recognizer.Machine

/-! The guard against reductions that never come to a shift. Between two shifts the current symbol
does not change, and the stack below its lowest point is not looked at. So the run depends on the
states above that point alone. If the same states stand there twice, the run goes round in circles.
If there are more of them than the automaton has states, one of them occurs twice, and the stack
grows for ever. -/

namespace ShiftReduce

structure Guard where
  /-- The states above the lowest point of the stack since the last shift, the top one first. -/
  segment : List StateId
  /-- The segments that have stood above the same point after earlier reductions. -/
  seen : Numbering (List StateId)

namespace Guard

/-- The guard right after a shift, and at the beginning. -/
def fresh : Guard := ⟨[], .empty⟩

/-- The guard after a move, or nothing if the run is stuck. A reduction that takes away the whole
segment and more makes a new lowest point, with nothing seen above it yet. -/
def after? (limit : Nat) (guard : Guard) : Move → Option Guard
  | .shift _ => some fresh
  | .reduce _ popped target =>
    let lowered := guard.segment.length < popped
    let segment := target :: guard.segment.drop popped
    let seen := if lowered then .empty else guard.seen
    if limit < segment.length ∨ segment ∈ seen then none else some ⟨segment, seen.add segment⟩

end Guard

end ShiftReduce
