/-! Pairs grouped by their first members, which are numbers below a bound. A grouping is made in one
pass over the pairs and then tells at once what stands beside a number. -/

namespace ShiftReduce

/-- For each number below a bound, the values that stand beside it. -/
structure Grouping (β : Type) where
  rows : Array (List β)

namespace Grouping

variable {β : Type}

/-- The values beside a number, in the order of the pairs. -/
def get (t : Grouping β) (n : Nat) : List β := t.rows[n]?.getD []

/-- Groups pairs. Those whose number is not below the bound are left out. -/
def ofPairs (bound : Nat) (pairs : List (Nat × β)) : Grouping β :=
  ⟨pairs.foldr (fun p rows => rows.modify p.1 (p.2 :: ·)) (Array.replicate bound [])⟩

theorem size_rows_ofPairs {bound : Nat} {pairs : List (Nat × β)} :
    (ofPairs bound pairs).rows.size = bound := by
  induction pairs with
  | nil => simp [ofPairs]
  | cons p pairs ih => simpa [ofPairs] using ih

theorem get_ofPairs {bound n : Nat} {pairs : List (Nat × β)} (h : n < bound) :
    (ofPairs bound pairs).get n = pairs.filterMap fun p => if p.1 = n then some p.2 else none := by
  induction pairs with
  | nil => simp [get, ofPairs, h]
  | cons p pairs ih =>
      have hsize : n < (ofPairs bound pairs).rows.size := by rwa [size_rows_ofPairs]
      change ((ofPairs bound pairs).rows.modify p.1 (p.2 :: ·))[n]?.getD [] = _
      rw [List.filterMap_cons, ← ih, Array.getElem?_modify]
      split
      · rw [get, Array.getElem?_eq_getElem hsize]
        rfl
      · rfl

theorem get_ofPairs_of_le {bound n : Nat} {pairs : List (Nat × β)} (h : bound ≤ n) :
    (ofPairs bound pairs).get n = [] := by
  rw [get, Array.getElem?_eq_none (by rwa [size_rows_ofPairs])]
  rfl

end Grouping

end ShiftReduce
