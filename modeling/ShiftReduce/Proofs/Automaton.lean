import ShiftReduce.Automaton
import ShiftReduce.Proofs.Closure

/-! The states of an automaton and the transitions between them. A transition moves the dot of every
item that expects its symbol, and whatever has its dot past the beginning came over a transition. So
the symbols before a dot are the symbols of the last transitions, whichever way a state was reached. -/

namespace ShiftReduce

variable {g : Grammar} {u : Symbol} {a : Automaton}

namespace Automaton

/-- The kernel that state `p` has over the symbol is the one from which state `q` has come. -/
def Leads (g : Grammar) (a : Automaton) (p : StateId) (s : Symbol) (q : StateId) : Prop :=
  ∃ items k, a.states[p]? = some items ∧ kernel? g items s = some k ∧ a.kernels.elems[q]? = some k

/-- A state has at most one transition over a symbol, since no kernel has two numbers. -/
theorem Leads.unique {p q q' : StateId} {s : Symbol} (h : a.Leads g p s q) (h' : a.Leads g p s q') : q = q' := by
  obtain ⟨items, k, hitems, hk, hq⟩ := h
  obtain ⟨items', k', hitems', hk', hq'⟩ := h'
  obtain rfl := Option.some.inj (hitems.symm.trans hitems')
  obtain rfl := Option.some.inj (hk.symm.trans hk')
  exact Numbering.eq_of_getElem?_eq hq hq'

theorem Leads.source {p q : StateId} {s : Symbol} (h : a.Leads g p s q) : ∃ items, a.states[p]? = some items := by
  obtain ⟨items, _, hp, _⟩ := h
  exact ⟨items, hp⟩

/-! ### Kernels and their closures -/

/-- There is an automaton if the search for the kernels gets through. -/
theorem ofGrammar_eq_ok_iff : ofGrammar g = .ok a ↔
    (discover g).fault? = none ∧ a = ⟨(discover g).found, (discover g).visited⟩ := by
  unfold ofGrammar
  dsimp only
  cases (discover g).fault? with
  | some e => simp
  | none => simp only [Except.ok.injEq, true_and, eq_comm]

/-- A kernel is visited by closing it, which is all that can fail. -/
theorem visit_eq_ok_iff {k : ItemSet} {items : ItemSet} {l : List ItemSet} :
    visit g k = .ok (items, l) ↔ closure g k.toList = .ok items ∧ l = nextKernels g items := by
  unfold visit
  cases closure g k.toList with
  | error e => simp [Except.map]
  | ok items' =>
      simp only [Except.map, Except.ok.injEq, Prod.mk.injEq]
      constructor <;> rintro ⟨rfl, rfl⟩ <;> exact ⟨rfl, rfl⟩

theorem mem_nextKernels {items k : ItemSet} :
    k ∈ nextKernels g items ↔ ∃ s ∈ g.symbols, kernel? g items s = some k :=
  List.mem_filterMap

/-- The state of a kernel is its closure, and the kernels that follow have states as well. -/
theorem state_of_kernel (h : ofGrammar g = .ok a) {q : StateId} {k : ItemSet}
    (hk : a.kernels.elems[q]? = some k) : ∃ items, closure g k.toList = .ok items ∧ a.states[q]? = some items ∧
      ∀ s ∈ g.symbols, ∀ k', kernel? g items s = some k' → k' ∈ a.kernels := by
  obtain ⟨hfault, rfl⟩ := ofGrammar_eq_ok_iff.mp h
  obtain ⟨items, l, hv, hitems, hl⟩ := Search.visited_run hfault hk
  obtain ⟨hclosure, rfl⟩ := visit_eq_ok_iff.mp hv
  exact ⟨items, hclosure, hitems, fun s hs k' hk' => hl k' (mem_nextKernels.mpr ⟨s, hs, hk'⟩)⟩

/-- The state with a number is the closure of the kernel with that number. -/
theorem kernel_of_state (h : ofGrammar g = .ok a) {q : StateId} {items : ItemSet}
    (hq : a.states[q]? = some items) :
    ∃ k, a.kernels.elems[q]? = some k ∧ closure g k.toList = .ok items := by
  have hlt := (Array.getElem?_eq_some_iff.mp hq).1
  have hsize : a.states.size = a.kernels.elems.size := by
    obtain ⟨hfault, rfl⟩ := ofGrammar_eq_ok_iff.mp h
    exact Search.size_visited_run hfault
  have hk := Array.getElem?_eq_getElem (hsize ▸ hlt)
  obtain ⟨items', hclosure, hitems', _⟩ := state_of_kernel h hk
  obtain rfl := Option.some.inj (hq.symm.trans hitems')
  exact ⟨_, hk, hclosure⟩

/-- The search begins with the kernel of the start item, which gets the first number. -/
theorem kernel_zero (h : ofGrammar g = .ok a) : a.kernels.elems[0]? = some (startKernel g) := by
  obtain ⟨_, rfl⟩ := ofGrammar_eq_ok_iff.mp h
  refine Search.getElem?_explore ?_
  rw [Numbering.ofList, List.foldl_cons, List.foldl_nil, Numbering.elems_add, if_neg Numbering.not_mem_empty]
  rfl

/-- A kernel is the one of the start item, or a state has it over a symbol. -/
theorem kernel_cases (h : ofGrammar g = .ok a) {q : StateId} {k : ItemSet} (hk : a.kernels.elems[q]? = some k) :
    k = startKernel g ∨ ∃ p s, s ∈ g.symbols ∧ a.Leads g p s q := by
  obtain ⟨hfault, rfl⟩ := ofGrammar_eq_ok_iff.mp h
  obtain ⟨_, hseed, hreach⟩ := Search.reached_of_mem_run (Array.mem_of_getElem? hk)
  obtain rfl := List.mem_singleton.mp hseed
  rcases Relation.ReflTransGen.cases_tail hreach with heq | ⟨k', hk', hlead⟩
  · exact Or.inl heq
  · obtain ⟨items, l, hv, hmem⟩ := Search.leads_iff.mp hlead
    obtain ⟨hclosure, rfl⟩ := visit_eq_ok_iff.mp hv
    obtain ⟨s, hs, hkernel⟩ := mem_nextKernels.mp hmem
    have hfound := (Search.mem_run_iff hfault).mpr ⟨_, List.mem_singleton_self _, hk'⟩
    obtain ⟨p, hp⟩ := Array.mem_iff_getElem?.mp hfound
    obtain ⟨items', hclosure', hitems, _⟩ := state_of_kernel h hp
    obtain rfl := Except.ok.inj (hclosure.symm.trans hclosure')
    exact Or.inr ⟨p, s, hs, items, k, hitems, hkernel, hk⟩

/-! ### Items and transitions -/

theorem mem_startKernel {i : Item} : i ∈ startKernel g ↔ i = ⟨g.startRule, 0⟩ := by
  rw [startKernel, OrderedSet.mem_ofList, List.mem_singleton]

theorem dot_pos_of_mem_kernel? {items k : ItemSet} {s : Symbol} (h : kernel? g items s = some k) {i : Item}
    (hi : i ∈ k) : 0 < i.dot := by
  obtain ⟨j, _, _, rfl⟩ := (mem_of_kernel?_eq_some h).mp hi
  exact Nat.succ_pos _

/-- There is no transition to the first state, for in its kernel the dot is at the beginning. -/
theorem Leads.ne_zero (h : ofGrammar g = .ok a) {p q : StateId} {s : Symbol} (hlead : a.Leads g p s q) : q ≠ 0 := by
  rintro rfl
  obtain ⟨items, k, _, hkernel, hk⟩ := hlead
  obtain rfl := Option.some.inj ((kernel_zero h).symm.trans hk)
  exact absurd (dot_pos_of_mem_kernel? hkernel (mem_startKernel.mpr rfl)) (Nat.lt_irrefl 0)

theorem Leads.mem_rhs {p q : StateId} {s : Symbol} (h : a.Leads g p s q) :
    ∃ r rule, g.rule? r = some rule ∧ s ∈ rule.rhs := by
  obtain ⟨items, k, _, hkernel, _⟩ := h
  obtain ⟨_, hi⟩ := exists_mem_of_kernel? hkernel
  obtain ⟨j, _, hnext, _⟩ := (mem_of_kernel?_eq_some hkernel).mp hi
  obtain ⟨rule, hrule, hs⟩ := Item.next?_eq_some_iff.mp hnext
  exact ⟨j.rule, rule, hrule, List.mem_of_getElem? hs⟩

theorem Leads.state (h : ofGrammar g = .ok a) {p q : StateId} {s : Symbol} (hlead : a.Leads g p s q) :
    ∃ items, a.states[q]? = some items := by
  obtain ⟨_, k, _, _, hk⟩ := hlead
  obtain ⟨items, _, hitems, _⟩ := state_of_kernel h hk
  exact ⟨items, hitems⟩

/-- What has its dot past the beginning came over the transition. -/
theorem Leads.back (h : ofGrammar g = .ok a) {p q : StateId} {s : Symbol} (hlead : a.Leads g p s q)
    {items : ItemSet} (hq : a.states[q]? = some items) {i : Item} (hi : i ∈ items) (hdot : 0 < i.dot) :
    ∃ items' j, a.states[p]? = some items' ∧ j ∈ items' ∧ j.next? g = some s ∧ j.advance = i := by
  obtain ⟨items', k, hp, hkernel, hk⟩ := hlead
  obtain ⟨k', hk', hclosure⟩ := kernel_of_state h hq
  obtain rfl := Option.some.inj (hk.symm.trans hk')
  obtain ⟨j, hj, hnext, hadvance⟩ := (mem_of_kernel?_eq_some hkernel).mp (mem_seeds_of_dot_pos hclosure hi hdot)
  exact ⟨items', j, hp, hj, hnext, hadvance⟩

/-- An item has a transition over the symbol that it expects. In the state behind it the dot has been moved. -/
theorem exists_leads (h : ofGrammar g = .ok a) {p : StateId} {items : ItemSet} (hp : a.states[p]? = some items)
    {i : Item} (hi : i ∈ items) {s : Symbol} (hnext : i.next? g = some s) (hs : s ∈ g.symbols) :
    ∃ q items', a.Leads g p s q ∧ a.states[q]? = some items' ∧ i.advance ∈ items' := by
  obtain ⟨k, hkernel, hadvance⟩ := exists_kernel? hi hnext
  obtain ⟨k₀, hk₀, hclosure₀⟩ := kernel_of_state h hp
  obtain ⟨items₀, hclosure₀', _, hnexts⟩ := state_of_kernel h hk₀
  obtain rfl := Except.ok.inj (hclosure₀.symm.trans hclosure₀')
  obtain ⟨q, hq⟩ := Array.mem_iff_getElem?.mp (hnexts s hs k hkernel)
  obtain ⟨items', hclosure, hitems', _⟩ := state_of_kernel h hq
  exact ⟨q, items', ⟨items, k, hp, hkernel, hq⟩, hitems', mem_closure_of_mem hclosure hadvance⟩

/-- In the first state all dots are at the beginning, also the one of the start item. -/
theorem mem_state_zero (h : ofGrammar g = .ok a) : ∃ items, a.states[0]? = some items ∧
    (⟨g.startRule, 0⟩ : Item) ∈ items ∧ ∀ i ∈ items, i.dot = 0 := by
  obtain ⟨items, hclosure, hitems, _⟩ := state_of_kernel h (kernel_zero h)
  refine ⟨items, hitems, mem_closure_of_mem hclosure (mem_startKernel.mpr rfl), ?_⟩
  intro i hi
  by_contra hdot
  have hseed := mem_seeds_of_dot_pos hclosure hi (Nat.pos_of_ne_zero hdot)
  rw [mem_startKernel.mp hseed] at hdot
  exact hdot rfl

theorem mem_state_of_brings (h : ofGrammar g = .ok a) {q : StateId} {items : ItemSet}
    (hq : a.states[q]? = some items) {i j : Item} (hi : i ∈ items) (hbrings : i.Brings g j) : j ∈ items := by
  obtain ⟨k, _, hclosure⟩ := kernel_of_state h hq
  exact mem_closure_of_brings hclosure hi hbrings

end Automaton

/-! ### Automata of proper grammars -/

namespace Grammar.Proper

theorem lt_of_leads (hg : g.Proper u) {p q : StateId} {s : Symbol} (h : a.Leads g p s q) : s < g.symbolCount := by
  obtain ⟨_, _, hrule, hs⟩ := h.mem_rhs
  exact hg.rhs_lt hrule hs

/-- The end symbol is in no rule, so there is no transition over it. -/
theorem ne_end_of_leads (hg : g.Proper u) {p q : StateId} {s : Symbol} (h : a.Leads g p s q) : s ≠ g.endSymbol := by
  rintro rfl
  obtain ⟨_, _, hrule, hs⟩ := h.mem_rhs
  exact hg.end_not_mem hrule (List.mem_cons_of_mem _ hs)

/-- Kernels hold the start item or dots that have been moved over a symbol, neither of which can be a fault. -/
theorem fault?_of_mem_kernel (hg : g.Proper u) (h : Automaton.ofGrammar g = .ok a) {q : StateId} {k : ItemSet}
    (hk : a.kernels.elems[q]? = some k) {i : Item} (hi : i ∈ k) : i.fault? g = none := by
  rcases Automaton.kernel_cases h hk with rfl | ⟨p, s, _, items, k', _, hkernel, hk'⟩
  · rw [Automaton.mem_startKernel.mp hi]
    exact Item.fault?_eq_none_iff.mpr ⟨_, hg.startRule, Nat.zero_le _⟩
  · obtain rfl := Option.some.inj (hk.symm.trans hk')
    exact fault?_of_mem_kernel? hkernel hi

theorem fault?_of_mem_state (hg : g.Proper u) (h : Automaton.ofGrammar g = .ok a) {q : StateId} {items : ItemSet}
    (hq : a.states[q]? = some items) {i : Item} (hi : i ∈ items) : i.fault? g = none := by
  obtain ⟨k, hk, hclosure⟩ := Automaton.kernel_of_state h hq
  obtain ⟨items', hclosure', hvalid⟩ := hg.exists_closure fun i hi => hg.fault?_of_mem_kernel h hk hi
  obtain rfl := Except.ok.inj (hclosure.symm.trans hclosure')
  exact hvalid i hi

/-- Every kernel that is visited has items without faults only, so no visit fails. -/
theorem exists_automaton (hg : g.Proper u) : ∃ a, Automaton.ofGrammar g = .ok a := by
  have hfault : (Automaton.discover g).fault? = none := by
    by_contra hfault
    obtain ⟨e, he⟩ := Option.ne_none_iff_exists'.mp hfault
    obtain ⟨k, ⟨seed, hseed, hreach⟩, hv⟩ := Search.exists_of_fault?_run he
    have hvalid : ∀ i ∈ k.toList, i.fault? g = none := by
      intro i hi
      rcases Relation.ReflTransGen.cases_tail hreach with rfl | ⟨k', _, hlead⟩
      · obtain rfl := List.mem_singleton.mp hseed
        rw [Automaton.mem_startKernel.mp hi]
        exact Item.fault?_eq_none_iff.mpr ⟨_, hg.startRule, Nat.zero_le _⟩
      · obtain ⟨items, l, hv', hmem⟩ := Search.leads_iff.mp hlead
        obtain ⟨_, rfl⟩ := Automaton.visit_eq_ok_iff.mp hv'
        obtain ⟨s, _, hkernel⟩ := Automaton.mem_nextKernels.mp hmem
        exact fault?_of_mem_kernel? hkernel hi
    obtain ⟨items, hclosure, _⟩ := hg.exists_closure hvalid
    rw [Automaton.visit_eq_ok_iff.mpr ⟨hclosure, rfl⟩] at hv
    cases hv
  exact ⟨_, Automaton.ofGrammar_eq_ok_iff.mpr ⟨hfault, rfl⟩⟩

/-- Only state `0` holds the item that begins the start rule. -/
theorem eq_zero_of_start_mem (hg : g.Proper u) (h : Automaton.ofGrammar g = .ok a) {q : StateId}
    {items : ItemSet} (hq : a.states[q]? = some items) (hmem : (⟨g.startRule, 0⟩ : Item) ∈ items) : q = 0 := by
  obtain ⟨k, hk, hclosure⟩ := Automaton.kernel_of_state h hq
  rcases mem_closure_cases hclosure hmem with hseed | ⟨j, _, s, hnext, _, hrule, _⟩
  · rcases Automaton.kernel_cases h hk with rfl | ⟨p, s, _, items', k', _, hkernel, hk'⟩
    · exact Numbering.eq_of_getElem?_eq hk (Automaton.kernel_zero h)
    · obtain rfl := Option.some.inj (hk.symm.trans hk')
      exact absurd (Automaton.dot_pos_of_mem_kernel? hkernel hseed) (Nat.lt_irrefl 0)
  · obtain ⟨rule, hstart, rfl⟩ := hg.mem_rulesWithLhs.mp hrule
    obtain rfl := Option.some.inj (hg.startRule.symm.trans hstart)
    obtain ⟨rule', hrule', hs⟩ := Item.next?_eq_some_iff.mp hnext
    exact absurd (List.mem_of_getElem? hs) (hg.start_not_mem hrule')

end Grammar.Proper

end ShiftReduce
