import ShiftReduce.Closure

/-! Sets that are kept in ascending order are told by their members. A member stands at one place only, and what is
below it comes before that place, what is above it after. So the half of a set that a lookup leaves out cannot hold
what is looked for, and a lookup finds exactly the members. Hence equality, lookup and inclusion of the sets that are
made of lists say what they would say of the lists as sets, whatever the order and the repetitions there. -/

namespace ShiftReduce

namespace OrderedSet

variable {α : Type} [LE α] [LT α] [DecidableLT α] [Std.IsLinearOrder α] [Std.LawfulOrderLT α]

section Lookup

variable {elems : Array α} (hasc : elems.toList.Pairwise (· < ·))

include hasc

omit [DecidableLT α] [LE α] [Std.IsLinearOrder α] [Std.LawfulOrderLT α] in
theorem getElem_lt_of_lt {m n : Nat} (hm : m < elems.size) (hn : n < elems.size) (h : m < n) : elems[m] < elems[n] :=
  List.pairwise_iff_getElem.mp hasc m n hm hn h

omit [DecidableLT α] in
theorem lt_of_getElem_lt {m n : Nat} (hm : m < elems.size) (hn : n < elems.size) (h : elems[m] < elems[n]) : m < n := by
  rcases Nat.lt_trichotomy m n with hlt | rfl | hgt
  · exact hlt
  · exact absurd h Std.lt_irrefl
  · exact absurd (Std.lt_trans h (getElem_lt_of_lt hasc hn hm hgt)) Std.lt_irrefl

/-- A lookup finds what stands at one of the places that it is given. -/
theorem searchBetween_iff {a : α} {lo hi : Nat} (hhi : hi ≤ elems.size) :
    searchBetween elems a lo hi hhi = true ↔ ∃ n, lo ≤ n ∧ n < hi ∧ elems[n]? = some a := by
  fun_induction searchBetween elems a lo hi hhi with
  | case1 lo hi hhi hlt mid hbelow ih =>
      rw [ih]
      constructor
      · rintro ⟨n, hn, hnhi, hget⟩
        exact ⟨n, by omega, hnhi, hget⟩
      · rintro ⟨n, _, hnhi, hget⟩
        obtain ⟨hn, rfl⟩ := Array.getElem?_eq_some_iff.mp hget
        exact ⟨n, lt_of_getElem_lt hasc _ hn hbelow, hnhi, hget⟩
  | case2 lo hi hhi hlt mid _ habove ih =>
      rw [ih]
      constructor
      · rintro ⟨n, hn, hnmid, hget⟩
        exact ⟨n, hn, by omega, hget⟩
      · rintro ⟨n, hlo, _, hget⟩
        obtain ⟨hn, rfl⟩ := Array.getElem?_eq_some_iff.mp hget
        exact ⟨n, hlo, lt_of_getElem_lt hasc hn _ habove, hget⟩
  | case3 lo hi hhi hlt mid hbelow habove =>
      have heq : elems[mid] = a := Std.le_antisymm (Std.not_lt.mp habove) (Std.not_lt.mp hbelow)
      refine iff_of_true rfl ⟨mid, by omega, by omega, ?_⟩
      rw [Array.getElem?_eq_getElem (by omega), heq]
  | case4 lo hi hhi hle =>
      refine iff_of_false Bool.false_ne_true ?_
      rintro ⟨n, hlo, hnhi, _⟩
      omega

end Lookup

theorem contains_iff {s : OrderedSet α} {a : α} : s.contains a = true ↔ a ∈ s := by
  rw [contains, searchBetween_iff s.ascending, mem_def, toList, Array.mem_toList_iff, Array.mem_iff_getElem?]
  constructor
  · rintro ⟨n, _, _, hget⟩
    exact ⟨n, hget⟩
  · rintro ⟨n, hget⟩
    exact ⟨n, Nat.zero_le n, (Array.getElem?_eq_some_iff.mp hget).1, hget⟩

theorem isSuperset_iff {s t : OrderedSet α} : s.isSuperset t = true ↔ ∀ a ∈ t, a ∈ s := by
  rw [isSuperset, List.all_eq_true]
  exact forall₂_congr fun _ _ => contains_iff

theorem ofList_eq_iff {l l' : List α} : ofList l = ofList l' ↔ ∀ a, a ∈ l ↔ a ∈ l' := by
  constructor
  · intro h a
    rw [← mem_ofList, h, mem_ofList]
  · intro h
    apply ext_mem
    intro a
    rw [mem_ofList, mem_ofList, h]

omit [DecidableLT α] in
/-- A list in ascending order is how a set of its members lists them. -/
theorem toList_eq {s : OrderedSet α} {l : List α} (hl : l.Pairwise (· < ·)) (h : ∀ a, a ∈ s ↔ a ∈ l) :
    s.toList = l := by
  have heq : s = ⟨l.toArray, hl⟩ := ext_mem h
  rw [heq]
  rfl

end OrderedSet

/-- The set of some items lists them by their rules and, for one rule, by their dots, each item once. Which items
there are is all that matters to it: sets of the same items are the same set, and to look an item up, or all items of
another set, is to look for it among the items that the set was made of. -/
theorem itemSet_canonical (l l' : List Item) :
    (OrderedSet.ofList l).toList.Pairwise (fun i j => i.rule < j.rule ∨ i.rule = j.rule ∧ i.dot < j.dot) ∧
      (OrderedSet.ofList l = OrderedSet.ofList l' ↔ ∀ i, i ∈ l ↔ i ∈ l') ∧
      (∀ i, (OrderedSet.ofList l).contains i = decide (i ∈ l)) ∧
      ((OrderedSet.ofList l).isSuperset (.ofList l') = true ↔ ∀ i ∈ l', i ∈ l) := by
  refine ⟨OrderedSet.pairwise_ascendingList l, OrderedSet.ofList_eq_iff, fun i => ?_, ?_⟩
  · rw [Bool.eq_iff_iff, OrderedSet.contains_iff, OrderedSet.mem_ofList, decide_eq_true_iff]
  · simp only [OrderedSet.isSuperset_iff, OrderedSet.mem_ofList]

end ShiftReduce
