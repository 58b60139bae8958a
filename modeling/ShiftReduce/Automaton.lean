import ShiftReduce.Closure

/-! The automaton of a grammar. Its states are the item sets that can be reached from the closure of
the start item, and they are numbered in the order of a breadth-first search that tries the symbols
of each state in the order of the grammar. The search goes from kernel to kernel. A kernel can be read
off the closed set, whose other items have their dots at the beginning, so it tells the state apart,
and a set is closed only once. The first kernel that cannot be closed ends the search, and the reason
is reported in place of the automaton. -/

namespace ShiftReduce

/-- The states of a grammar, at their numbers. State `0` is where a parse begins. -/
structure Automaton where
  kernels : Numbering ItemSet
  /-- The closures of the kernels. -/
  states : Array ItemSet

namespace Automaton

def startKernel (g : Grammar) : ItemSet := .ofList [⟨g.startRule, 0⟩]

/-- The kernels that one symbol leads to, in the order of the symbols. -/
def nextKernels (g : Grammar) (items : ItemSet) : List ItemSet :=
  let m := moves g items
  g.symbols.filterMap (kernelOver? m)

/-- A step of the search: the item set of a kernel, and the kernels that follow it. -/
def visit (g : Grammar) (k : ItemSet) : Except TableError (ItemSet × List ItemSet) :=
  (closure g k.toList).map fun items => (items, nextKernels g items)

/-- Every list that is left of `l` when some members are dropped. -/
def sublists {α : Type} : List α → List (List α)
  | [] => [[]]
  | a :: l => sublists l ++ (sublists l).map (a :: ·)

theorem filter_mem_sublists {α : Type} (p : α → Bool) (l : List α) : l.filter p ∈ sublists l := by
  induction l with
  | nil => simp [sublists]
  | cons a l ih =>
      rw [sublists, List.mem_append, List.filter_cons]
      split
      · exact Or.inr (List.mem_map.mpr ⟨_, ih, rfl⟩)
      · exact Or.inl ih

/-- Kernels are sets of items of the grammar, of which there are finitely many. -/
theorem finiteRange_visit (g : Grammar) : FiniteRange (Search.successors (visit g)) := by
  refine ⟨(sublists g.items).map OrderedSet.ofList, ?_⟩
  intro k l hl
  unfold Search.successors Search.told visit at hl
  split at hl
  · rename_i h
    cases hclosure : closure g k.toList with
    | error e => simp [hclosure, Except.map] at h
    | ok items =>
        rw [hclosure] at h
        obtain rfl := (Prod.mk.inj (Except.ok.inj h)).2
        obtain ⟨s, _, hs⟩ := List.mem_filterMap.mp hl
        refine List.mem_map.mpr ⟨_, filter_mem_sublists (fun i => decide (i ∈ l)) g.items, ?_⟩
        apply OrderedSet.ext_mem
        intro i
        rw [OrderedSet.mem_ofList, List.mem_filter, decide_eq_true_eq]
        exact ⟨And.right, fun hi => ⟨mem_items_of_mem_kernel hs hi, hi⟩⟩
  · simp at hl

def discover (g : Grammar) : Search TableError ItemSet ItemSet :=
  .run (visit g) (finiteRange_visit g) [startKernel g]

def ofGrammar (g : Grammar) : Except TableError Automaton :=
  let search := discover g
  match search.fault? with
  | some e => .error e
  | none => .ok ⟨search.found, search.visited⟩

/-- The states with the numbers that they are looked up by. -/
def index (a : Automaton) : Numbering ItemSet := .ofList a.states.toList

def stateId? (a : Automaton) (items : ItemSet) : Option StateId := a.index.number? items

def state? (a : Automaton) (s : StateId) : Option ItemSet := a.states[s]?

def size (a : Automaton) : Nat := a.states.size

/-! ### How the states were found -/

/-- The arrival at a state: its number, and the state and symbol that led to it. -/
structure Arrival where
  state : StateId
  source : StateId
  symbol : Symbol
deriving DecidableEq, Repr

/-- The arrivals from one state, in the order of the symbols. -/
def arrivalsFrom (g : Grammar) (found : Numbering ItemSet) (source : StateId) (items : ItemSet) :
    List Arrival :=
  let m := moves g items
  g.symbols.filterMap fun s =>
    ((kernelOver? m s).bind found.number?).map fun n => ⟨n, source, s⟩

/-- Of some arrivals, the first at state `n`, after it the first at the next state, and so on. -/
def firstArrivals : StateId → List Arrival → List Arrival
  | _, [] => []
  | n, a :: l => if a.state = n then a :: firstArrivals (n + 1) l else firstArrivals n l

/-- The first arrivals at the states that have been visited, without state `0`. -/
def arrivals (g : Grammar) (search : Search TableError ItemSet ItemSet) : List Arrival :=
  let all := search.visited.toList.zipIdx.flatMap fun (items, source) =>
    arrivalsFrom g search.found source items
  (firstArrivals 1 all).filter (·.state < search.visited.size)

end Automaton

end ShiftReduce
