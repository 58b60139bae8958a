/-! Finite sets kept as the ascending array of their members. Two sets with the same members are the
same value, so item sets can be compared, numbered and looked up by plain equality; membership is
found by halving the array. -/

namespace ShiftReduce

/-- A finite set of a linear order, listed once each and in ascending order. -/
structure OrderedSet (α : Type) [LT α] where
  elems : Array α
  /-- Each member is below every later one. -/
  ascending : elems.toList.Pairwise (· < ·)
deriving DecidableEq

namespace OrderedSet

section Listing

variable {α : Type} [LT α]

def toList (s : OrderedSet α) : List α := s.elems.toList

instance : Membership α (OrderedSet α) where
  mem s a := a ∈ s.toList

instance : EmptyCollection (OrderedSet α) where
  emptyCollection := ⟨#[], List.Pairwise.nil⟩

instance : Inhabited (OrderedSet α) where
  default := ∅

def size (s : OrderedSet α) : Nat := s.elems.size

def isEmpty (s : OrderedSet α) : Bool := s.elems.isEmpty

/-- Sets are compared member by member from the least on; where one runs out, the shorter comes first. -/
instance [Ord α] : Ord (OrderedSet α) where
  compare s t := compare s.elems t.elems

instance [Ord α] [Std.TransOrd α] : Std.TransOrd (OrderedSet α) where
  eq_swap {s t} := Std.OrientedOrd.eq_swap (a := s.elems) (b := t.elems)
  isLE_trans {s t u} := Std.TransOrd.isLE_trans (a := s.elems) (b := t.elems) (c := u.elems)

instance [Ord α] [Std.LawfulEqOrd α] : Std.LawfulEqOrd (OrderedSet α) where
  compare_self {s} := Std.ReflOrd.compare_self (a := s.elems)
  eq_of_compare {s t} h := by
    have h := Std.LawfulEqOrd.eq_of_compare (a := s.elems) (b := t.elems) h
    cases s
    cases t
    simpa using h

theorem mem_def {s : OrderedSet α} {a : α} : a ∈ s ↔ a ∈ s.toList := Iff.rfl

@[simp] theorem not_mem_empty {a : α} : a ∉ (∅ : OrderedSet α) := List.not_mem_nil

instance [DecidableEq α] (s : OrderedSet α) (a : α) : Decidable (a ∈ s) :=
  inferInstanceAs (Decidable (a ∈ s.toList))

end Listing

variable {α : Type} [LE α] [LT α] [DecidableLT α] [Std.IsLinearOrder α] [Std.LawfulOrderLT α]

/-! ### Building a set from a list -/

/-- Keeps one of each run of equal members. -/
def withoutRepeats : List α → List α
  | [] => []
  | [a] => [a]
  | a :: b :: l => if a < b then a :: withoutRepeats (b :: l) else withoutRepeats (b :: l)

/-- The members of a list in ascending order, once each. -/
def ascendingList (l : List α) : List α :=
  withoutRepeats (l.mergeSort fun a b => decide (¬ b < a))

theorem mem_withoutRepeats {l : List α} (hl : l.Pairwise (· ≤ ·)) {c : α} :
    c ∈ withoutRepeats l ↔ c ∈ l := by
  fun_induction withoutRepeats l with
  | case1 => rfl
  | case2 => rfl
  | case3 a b l _ ih => simp only [List.mem_cons, ih hl.tail]
  | case4 a b l hab ih =>
      have heq : a = b := Std.le_antisymm (List.rel_of_pairwise_cons hl List.mem_cons_self) (Std.not_lt.mp hab)
      subst heq
      simp [ih hl.tail]

theorem pairwise_withoutRepeats {l : List α} (hl : l.Pairwise (· ≤ ·)) :
    (withoutRepeats l).Pairwise (· < ·) := by
  fun_induction withoutRepeats l with
  | case1 => exact List.Pairwise.nil
  | case2 => exact List.pairwise_singleton _ _
  | case3 a b l hab ih =>
      refine List.pairwise_cons.mpr ⟨fun c hc => ?_, ih hl.tail⟩
      rcases List.mem_cons.mp ((mem_withoutRepeats hl.tail).mp hc) with rfl | hc
      · exact hab
      · exact Std.lt_of_lt_of_le hab (List.rel_of_pairwise_cons hl.tail hc)
  | case4 a b l _ ih => exact ih hl.tail

theorem pairwise_mergeSort_le (l : List α) :
    (l.mergeSort fun a b => decide (¬ b < a)).Pairwise (· ≤ ·) := by
  refine (List.pairwise_mergeSort ?_ ?_ l).imp ?_
  · intro a b c hab hbc
    simp only [Std.not_lt, decide_eq_true_eq] at hab hbc ⊢
    exact Std.le_trans hab hbc
  · intro a b
    simp only [Std.not_lt, Bool.or_eq_true, decide_eq_true_eq]
    exact Std.le_total
  · intro a b hab
    simpa only [Std.not_lt, decide_eq_true_eq] using hab

theorem pairwise_ascendingList (l : List α) : (ascendingList l).Pairwise (· < ·) :=
  pairwise_withoutRepeats (pairwise_mergeSort_le l)

/-- The set of the members of a list, whatever their order and number there. -/
def ofList (l : List α) : OrderedSet α :=
  ⟨(ascendingList l).toArray, pairwise_ascendingList l⟩

@[simp] theorem mem_ofList {a : α} {l : List α} : a ∈ ofList l ↔ a ∈ l := by
  change a ∈ ascendingList l ↔ a ∈ l
  rw [ascendingList, mem_withoutRepeats (pairwise_mergeSort_le l), List.mem_mergeSort]

/-! ### Looking a member up -/

/-- Looks for `a` among the places from `lo` on and before `hi`: the middle one settles it, or else
which half is left. -/
def searchBetween (elems : Array α) (a : α) (lo hi : Nat) (h : hi ≤ elems.size) : Bool :=
  if hlt : lo < hi then
    let mid := (lo + hi) / 2
    if elems[mid] < a then searchBetween elems a (mid + 1) hi h
    else if a < elems[mid] then searchBetween elems a lo mid (by omega)
    else true
  else false
termination_by hi - lo

def contains (s : OrderedSet α) (a : α) : Bool :=
  searchBetween s.elems a 0 s.elems.size (Nat.le_refl _)

def isSuperset (s t : OrderedSet α) : Bool := t.toList.all s.contains

/-! ### Equality -/

omit [DecidableLT α] [Std.IsLinearOrder α] in
theorem nodup_toList (s : OrderedSet α) : s.toList.Nodup :=
  s.ascending.imp fun {a b} (hab : a < b) (he : a = b) => Std.lt_irrefl (he ▸ hab)

omit [DecidableLT α] in
/-- A set is determined by its members. -/
theorem ext_mem {s t : OrderedSet α} (h : ∀ a, a ∈ s ↔ a ∈ t) : s = t := by
  have hl : s.toList = t.toList := by
    have hperm := (List.perm_ext_iff_of_nodup s.nodup_toList t.nodup_toList).mpr h
    refine hperm.eq_of_pairwise ?_ s.ascending t.ascending
    intro a b _ _ (hab : a < b) (hba : b < a)
    exact absurd (Std.lt_trans hab hba) Std.lt_irrefl
  obtain ⟨s, hs⟩ := s
  obtain ⟨t, ht⟩ := t
  simpa [Array.toList_inj] using Array.toList_inj.mp hl

end OrderedSet

end ShiftReduce
