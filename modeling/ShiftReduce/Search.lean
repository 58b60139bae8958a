import ShiftReduce.Numbering

/-! Breadth-first search. A search starts from some seeds and visits the elements that it finds, in
the order in which it finds them. A visit makes something of the element and tells its successors; those
that are new get the next numbers. It may also fail, and then the search ends with that failure. A search
ends in any case because the successors come from a finite pool. The pool appears in a proposition only,
so it may be astronomically large. -/

namespace ShiftReduce

/-- All successors, of whatever element, come from one finite list. -/
def FiniteRange {α : Type} (next : α → List α) : Prop :=
  ∃ pool : List α, ∀ a, ∀ b ∈ next a, b ∈ pool

/-- Of two tests, the one that passes less often counts less, provided a listed element tells them apart. -/
theorem countP_lt_countP {α : Type} {p q : α → Bool} {l : List α} (hpq : ∀ a ∈ l, p a → q a) {a : α}
    (ha : a ∈ l) (hq : q a) (hp : ¬ p a) : l.countP p < l.countP q := by
  obtain ⟨s, t, rfl⟩ := List.append_of_mem ha
  have hs : s.countP p ≤ s.countP q :=
    List.countP_mono_left fun b hb => hpq b (by simp [hb])
  have ht : t.countP p ≤ t.countP q :=
    List.countP_mono_left fun b hb => hpq b (by simp [hb])
  simp only [List.countP_append, List.countP_cons_of_pos hq, List.countP_cons_of_neg hp]
  omega

/-- What a search has come to. -/
structure Search (ε α β : Type) [Ord α] where
  found : Numbering α
  /-- What was made of those that were visited, which are the first. -/
  visited : Array β
  /-- Why the visit of the next element failed, if it did. -/
  fault? : Option ε

namespace Search

variable {ε α β : Type} [Ord α]

/-- The successors that a visit has told. One that failed has told none. -/
def told (r : Except ε (β × List α)) : List α :=
  match r with
  | .ok (_, l) => l
  | .error _ => []

/-- The successors that the visit of an element tells. -/
def successors (visit : α → Except ε (β × List α)) (a : α) : List α := told (visit a)

variable [Std.TransOrd α] [Std.LawfulEqOrd α]

/-- The number of elements of the pool that have not been found. -/
def unseen (pool : List α) (found : Numbering α) : Nat :=
  pool.countP fun a => a ∉ found

theorem unseen_foldl_add_lt {pool l : List α} {found : Numbering α} (hl : ∀ b ∈ l, b ∈ pool)
    {b : α} (hb : b ∈ l) (hn : b ∉ found) : unseen pool (l.foldl .add found) < unseen pool found := by
  refine countP_lt_countP ?_ (hl b hb) (by simpa using hn) ?_
  · intro a _ ha
    simp only [Numbering.mem_foldl_add, decide_eq_true_eq, not_or] at ha ⊢
    exact ha.1
  · simp [Numbering.mem_foldl_add, hb]

/-- Carries a search on: as many elements have been visited as have left something. -/
def explore (visit : α → Except ε (β × List α)) (hfin : FiniteRange (successors visit))
    (found : Numbering α) (visited : Array β) : Search ε α β :=
  if h : visited.size < found.elems.size then
    let r := visit found.elems[visited.size]
    match r with
    | .error e => ⟨found, visited, some e⟩
    | .ok (b, _) => explore visit hfin ((told r).foldl .add found) (visited.push b)
  else ⟨found, visited, none⟩
termination_by (unseen hfin.choose found, found.elems.size - visited.size)
decreasing_by
  by_cases hall : ∀ b ∈ told r, b ∈ found
  · rw [Numbering.foldl_add_of_subset hall, Array.size_push]
    exact Prod.Lex.right _ (by omega)
  · simp only [Classical.not_forall] at hall
    obtain ⟨c, hc, hn⟩ := hall
    exact Prod.Lex.left _ _ (unseen_foldl_add_lt (hfin.choose_spec found.elems[visited.size]) hc hn)

def run (visit : α → Except ε (β × List α)) (hfin : FiniteRange (successors visit)) (seeds : List α) :
    Search ε α β :=
  explore visit hfin (.ofList seeds) #[]

end Search

/-- The elements that can be reached from the seeds, in the order of discovery. -/
def reach {α : Type} [Ord α] [Std.TransOrd α] [Std.LawfulEqOrd α] (next : α → List α)
    (hfin : FiniteRange next) (seeds : List α) : List α :=
  (Search.run (ε := Empty) (fun a => .ok ((), next a)) hfin seeds).found.toList

end ShiftReduce
