import ShiftReduce.Item
import ShiftReduce.Search

/-! Closing a set of items: an item that expects a symbol stands together with the items that begin
a rule of that symbol. Moving the dot over a symbol gives the kernel of the next item set, and closing
the kernel gives that set. Items are expanded in the order in which they are found, seeds first, and
what is reported of a faulty grammar is the first fault in that order. -/

namespace ShiftReduce

abbrev ItemSet := OrderedSet Item

instance : Std.TransOrd ItemSet := inferInstance

namespace Item

/-- The items that begin a rule of the symbol after the dot. A symbol without a label cannot be
expanded. -/
def expand (g : Grammar) (i : Item) : Except TableError (List Item) :=
  match i.next g with
  | .error e => .error e
  | .ok none => .ok []
  | .ok (some s) =>
    if s < g.symbolCount then .ok ((g.rulesWithLhs s).map fun r => ⟨r, 0⟩)
    else .error (.unknownSymbol s)

/-- A step of the search for the items of a closed set. Nothing is kept of an item but the item itself. -/
def visit (g : Grammar) (i : Item) : Except TableError (Unit × List Item) :=
  (i.expand g).map fun l => ((), l)

theorem finiteRange_visit (g : Grammar) : FiniteRange (Search.successors (visit g)) := by
  refine ⟨((List.range g.symbolCount).flatMap g.rulesWithLhs).map fun r => ⟨r, 0⟩, ?_⟩
  intro i j hj
  unfold Search.successors Search.told visit expand at hj
  split at hj
  · rename_i l hl
    split at hl
    · simp [Except.map] at hl
    · obtain rfl := (Prod.mk.inj (Except.ok.inj hl)).2
      simp at hj
    · rename_i s _
      split at hl
      · rename_i hs
        obtain rfl := (Prod.mk.inj (Except.ok.inj hl)).2
        obtain ⟨r, hr, rfl⟩ := List.mem_map.mp hj
        exact List.mem_map.mpr ⟨r, List.mem_flatMap.mpr ⟨s, List.mem_range.mpr hs, hr⟩, rfl⟩
      · simp [Except.map] at hl
  · simp at hj

end Item

/-- The least set that contains the seeds and, with an item, the items that it expands to. -/
def closure (g : Grammar) (seeds : List Item) : Except TableError ItemSet :=
  match seeds.findSome? (·.fault? g) with
  | some e => .error e
  | none =>
    let search := Search.run (Item.visit g) (Item.finiteRange_visit g) seeds
    match search.fault? with
    | some e => .error e
    | none => .ok (.ofList search.found.toList)

/-- Each symbol that an item of a set expects, with the item that has the dot moved over it. -/
def moves (g : Grammar) (items : ItemSet) : List (Symbol × Item) :=
  items.toList.filterMap fun i => (i.next? g).map fun s => (s, i.advance)

/-- The items that are moved to over `s`, if there are any. -/
def kernelOver? (moves : List (Symbol × Item)) (s : Symbol) : Option ItemSet :=
  match moves.filter (·.1 == s) with
  | [] => none
  | m :: l => some (.ofList ((m :: l).map (·.2)))

/-- The items of a set that expect `s`, with the dot moved over it, if there are any. -/
def kernel? (g : Grammar) (items : ItemSet) (s : Symbol) : Option ItemSet :=
  kernelOver? (moves g items) s

/-- The item set that is reached over `s`. It is empty if no item expects `s`. -/
def successor (g : Grammar) (items : ItemSet) (s : Symbol) : Except TableError ItemSet :=
  match items.toList.findSome? (·.fault? g) with
  | some e => .error e
  | none =>
    match kernel? g items s with
    | none => .ok ∅
    | some k => closure g k.toList

/-! ### Kernels -/

theorem mem_moves {g : Grammar} {items : ItemSet} {s : Symbol} {i : Item} :
    (s, i) ∈ moves g items ↔ ∃ j ∈ items, j.next? g = some s ∧ j.advance = i := by
  simp only [moves, List.mem_filterMap, Option.map_eq_some_iff, Prod.mk.injEq]
  constructor
  · rintro ⟨j, hj, t, ht, rfl, rfl⟩
    exact ⟨j, hj, ht, rfl⟩
  · rintro ⟨j, hj, hs, rfl⟩
    exact ⟨j, hj, s, hs, rfl, rfl⟩

theorem mem_of_kernelOver?_eq_some {moves : List (Symbol × Item)} {s : Symbol} {k : ItemSet}
    (h : kernelOver? moves s = some k) {i : Item} : i ∈ k ↔ (s, i) ∈ moves := by
  unfold kernelOver? at h
  split at h
  · simp at h
  · rename_i hfilter
    obtain rfl := Option.some.inj h
    rw [OrderedSet.mem_ofList, ← hfilter]
    simp only [List.mem_map, List.mem_filter, beq_iff_eq]
    constructor
    · rintro ⟨⟨t, i⟩, ⟨hm, rfl⟩, rfl⟩
      exact hm
    · intro hm
      exact ⟨(s, i), ⟨hm, rfl⟩, rfl⟩

theorem mem_of_kernel?_eq_some {g : Grammar} {items k : ItemSet} {s : Symbol}
    (h : kernel? g items s = some k) {i : Item} :
    i ∈ k ↔ ∃ j ∈ items, j.next? g = some s ∧ j.advance = i :=
  (mem_of_kernelOver?_eq_some h).trans mem_moves

/-- The items of a grammar: every rule with a dot in every place. -/
def Grammar.items (g : Grammar) : List Item :=
  (List.range g.ruleCount).flatMap fun r =>
    match g.rule? r with
    | some rule => (List.range (rule.rhs.length + 1)).map fun p => ⟨r, p⟩
    | none => []

/-- Moving the dot over the symbol after it does not lead out of the rule. -/
theorem advance_mem_items {g : Grammar} {i : Item} {s : Symbol} (h : i.next? g = some s) :
    i.advance ∈ g.items := by
  obtain ⟨rule, hrule, hs⟩ := Option.bind_eq_some_iff.mp h
  have hlt : i.rule < g.ruleCount := (Array.getElem?_eq_some_iff.mp hrule).1
  have hdot := (List.getElem?_eq_some_iff.mp hs).1
  refine List.mem_flatMap.mpr ⟨i.rule, List.mem_range.mpr hlt, ?_⟩
  rw [hrule]
  exact List.mem_map.mpr ⟨i.dot + 1, List.mem_range.mpr (by lia), rfl⟩

theorem mem_items_of_mem_kernel {g : Grammar} {items k : ItemSet} {s : Symbol}
    (h : kernel? g items s = some k) {i : Item} (hi : i ∈ k) : i ∈ g.items := by
  obtain ⟨j, _, hs, rfl⟩ := (mem_of_kernel?_eq_some h).mp hi
  exact advance_mem_items hs

end ShiftReduce
