/-! Classes of characters, given by the runs of numbers that belong to them. -/

namespace ShiftReduce.Text

structure CharClass where
  /-- The first and the last number of each run, in ascending order. -/
  runs : Array (Nat × Nat)

namespace CharClass

/-- Looks for `n` among the runs from `lo` on and before `hi`: the middle one settles it, or else which
half is left. -/
def searchRuns (runs : Array (Nat × Nat)) (n lo hi : Nat) (h : hi ≤ runs.size) : Bool :=
  if hlt : lo < hi then
    let mid := (lo + hi) / 2
    if n < runs[mid].1 then searchRuns runs n lo mid (by omega)
    else if runs[mid].2 < n then searchRuns runs n (mid + 1) hi h
    else true
  else false
termination_by hi - lo

def contains (k : CharClass) (c : Char) : Bool :=
  searchRuns k.runs c.toNat 0 k.runs.size (Nat.le_refl _)

end CharClass

end ShiftReduce.Text
