/-! Loops that need not end. -/

namespace ShiftReduce

/-- Repeats a step until it gives a result. There is none if the steps go on for ever. -/
def loop {α β : Type} (step : α → α ⊕ β) (a : α) : Option β :=
  match step a with
  | .inl next => by
      -- A call that is applied by a tactic does not keep its place in the file as part of the fixpoint.
      apply loop
      · exact step
      · exact next
  | .inr b => some b
partial_fixpoint

end ShiftReduce
