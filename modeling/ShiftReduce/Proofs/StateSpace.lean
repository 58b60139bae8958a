import Mathlib.Order.Defs.LinearOrder
import ShiftReduce.Proofs.Automaton

/-! The states of an automaton as item sets. The search for them goes from kernel to kernel, and nothing is lost
by that: what has its dot past the beginning in a closed set is what the set was closed from, so different
kernels have different closures. Hence a transition goes to the successor of its state, the states are the item
sets that can be reached from the closure of the start item by going to successors, and an item set tells its
number. -/

namespace ShiftReduce

theorem pairwise_zipIdx {α : Type} (l : List α) : l.zipIdx.Pairwise fun x y => x.2 < y.2 := by
  have hrange : (l.zipIdx.map Prod.snd).Pairwise (· < ·) := by
    rw [List.zipIdx_map_snd]
    exact List.pairwise_lt_range'
  exact List.pairwise_map.mp hrange

variable {g : Grammar} {u : Symbol} {a : Automaton}

/-! ### Items that can be expanded -/

namespace Item

variable {i : Item}

theorem readRule_of_fault? {e : TableError} (h : i.fault? g = some e) : i.readRule g = .error e := by
  unfold fault? at h
  unfold readRule
  cases hrule : g.rule? i.rule with
  | none =>
      rw [hrule] at h
      exact congrArg Except.error (Option.some.inj h)
  | some rule =>
      rw [hrule] at h
      obtain ⟨hdot, he⟩ := Option.ite_none_right_eq_some.mp h
      exact (if_pos hdot).trans (congrArg Except.error (Option.some.inj he))

theorem next_of_fault? {e : TableError} (h : i.fault? g = some e) : i.next g = .error e := by
  rw [next, readRule_of_fault? h]
  rfl

theorem expand_of_fault? {e : TableError} (h : i.fault? g = some e) : i.expand g = .error e := by
  rw [expand, next_of_fault? h]

theorem expand_of_le {s : Symbol} (hnext : i.next? g = some s) (hs : g.symbolCount ≤ s) :
    i.expand g = .error (.unknownSymbol s) := by
  rw [expand, next_eq_ok (fault?_of_next? hnext), hnext]
  exact if_neg (Nat.not_lt.mpr hs)

theorem fault?_of_expand {l : List Item} (h : i.expand g = .ok l) : i.fault? g = none := by
  cases hfault : i.fault? g with
  | none => rfl
  | some e => cases (expand_of_fault? hfault).symm.trans h

theorem next?_lt_of_expand {l : List Item} (h : i.expand g = .ok l) {s : Symbol} (hnext : i.next? g = some s) :
    s < g.symbolCount := by
  by_contra hs
  cases (expand_of_le hnext (Nat.not_lt.mp hs)).symm.trans h

end Item

section Closed

variable {seeds : List Item} {items : ItemSet} {i : Item}

theorem exists_expand_of_mem_closure (h : closure g seeds = .ok items) (hi : i ∈ items) :
    ∃ l, i.expand g = .ok l := by
  unfold closure at h
  split at h
  · cases h
  · dsimp only at h
    split at h
    · cases h
    · rename_i hfault
      obtain rfl := Except.ok.inj h
      rw [OrderedSet.mem_ofList, Numbering.toList, Array.mem_toList_iff] at hi
      obtain ⟨n, hn⟩ := Array.mem_iff_getElem?.mp hi
      obtain ⟨_, l, hv, _⟩ := Search.visited_run hfault hn
      unfold Item.visit at hv
      cases hexpand : i.expand g with
      | error e => rw [hexpand] at hv; cases hv
      | ok l' => exact ⟨l', rfl⟩

theorem fault?_of_mem_closure (h : closure g seeds = .ok items) (hi : i ∈ items) : i.fault? g = none := by
  obtain ⟨l, hl⟩ := exists_expand_of_mem_closure h hi
  exact Item.fault?_of_expand hl

theorem next?_lt_of_mem_closure (h : closure g seeds = .ok items) (hi : i ∈ items) {s : Symbol}
    (hnext : i.next? g = some s) : s < g.symbolCount := by
  obtain ⟨l, hl⟩ := exists_expand_of_mem_closure h hi
  exact Item.next?_lt_of_expand hl hnext

end Closed

/-! ### Successors -/

/-- Going over a symbol leads from one item set to another, which has items. -/
def Succeeds (g : Grammar) (items next : ItemSet) : Prop := ∃ s, successor g items s = .ok next ∧ next ≠ ∅

theorem ne_empty_of_mem {items : ItemSet} {i : Item} (hi : i ∈ items) : items ≠ ∅ := by
  rintro rfl
  exact OrderedSet.not_mem_empty hi

theorem successor_eq {items : ItemSet} (hfault : ∀ i ∈ items, i.fault? g = none) (s : Symbol) :
    successor g items s = match kernel? g items s with
      | none => .ok ∅
      | some k => closure g k.toList := by
  have hnone := List.findSome?_eq_none_iff.mpr hfault
  cases hkernel : kernel? g items s <;> simp only [successor, hnone, hkernel]

namespace Automaton

theorem fault?_of_mem_state (h : ofGrammar g = .ok a) {q : StateId} {items : ItemSet}
    (hq : a.states[q]? = some items) {i : Item} (hi : i ∈ items) : i.fault? g = none := by
  obtain ⟨k, _, hclosure⟩ := kernel_of_state h hq
  exact fault?_of_mem_closure hclosure hi

theorem next?_lt_of_mem_state (h : ofGrammar g = .ok a) {q : StateId} {items : ItemSet}
    (hq : a.states[q]? = some items) {i : Item} (hi : i ∈ items) {s : Symbol} (hnext : i.next? g = some s) :
    s < g.symbolCount := by
  obtain ⟨k, _, hclosure⟩ := kernel_of_state h hq
  exact next?_lt_of_mem_closure hclosure hi hnext

theorem size_states (h : ofGrammar g = .ok a) : a.states.size = a.kernels.elems.size := by
  obtain ⟨hfault, rfl⟩ := ofGrammar_eq_ok_iff.mp h
  exact Search.size_visited_run hfault

theorem lt_of_leads (h : ofGrammar g = .ok a) {p q : StateId} {s : Symbol} (hlead : a.Leads g p s q) :
    s < g.symbolCount := by
  obtain ⟨items, k, hp, hkernel, _⟩ := hlead
  obtain ⟨_, hi⟩ := exists_mem_of_kernel? hkernel
  obtain ⟨j, hj, hnext, _⟩ := (mem_of_kernel?_eq_some hkernel).mp hi
  exact next?_lt_of_mem_state h hp hj hnext

theorem successor_state (h : ofGrammar g = .ok a) {q : StateId} {items : ItemSet}
    (hq : a.states[q]? = some items) (s : Symbol) :
    successor g items s = match kernel? g items s with
      | none => .ok ∅
      | some k => closure g k.toList :=
  successor_eq (fun _ hi => fault?_of_mem_state h hq hi) s

theorem exists_mem_of_kernel (h : ofGrammar g = .ok a) {q : StateId} {k : ItemSet}
    (hk : a.kernels.elems[q]? = some k) : ∃ i, i ∈ k := by
  rcases kernel_cases h hk with rfl | ⟨p, s, _, items, k', _, hkernel, hk'⟩
  · exact ⟨_, mem_startKernel.mpr rfl⟩
  · obtain rfl := Option.some.inj (hk.symm.trans hk')
    exact exists_mem_of_kernel? hkernel

theorem exists_mem_of_state (h : ofGrammar g = .ok a) {q : StateId} {items : ItemSet}
    (hq : a.states[q]? = some items) : ∃ i, i ∈ items := by
  obtain ⟨k, hk, hclosure⟩ := kernel_of_state h hq
  obtain ⟨i, hi⟩ := exists_mem_of_kernel h hk
  exact ⟨i, mem_closure_of_mem hclosure hi⟩

/-! ### Kernels are told by their closures -/

/-- State `0` apart, a kernel is what has its dot past the beginning in the state. -/
theorem mem_kernel_iff (h : ofGrammar g = .ok a) {q : StateId} {k items : ItemSet}
    (hk : a.kernels.elems[q]? = some k) (hclosure : closure g k.toList = .ok items) (hne : k ≠ startKernel g)
    {i : Item} : i ∈ k ↔ i ∈ items ∧ 0 < i.dot := by
  constructor
  · intro hi
    refine ⟨mem_closure_of_mem hclosure hi, ?_⟩
    rcases kernel_cases h hk with heq | ⟨p, s, _, items', k', _, hkernel, hk'⟩
    · exact absurd heq hne
    · obtain rfl := Option.some.inj (hk.symm.trans hk')
      exact dot_pos_of_mem_kernel? hkernel hi
  · intro ⟨hi, hdot⟩
    exact mem_seeds_of_dot_pos hclosure hi hdot

theorem closure_ne_of_ne_startKernel (h : ofGrammar g = .ok a) {q : StateId} {k items : ItemSet}
    (hk : a.kernels.elems[q]? = some k) (hclosure : closure g k.toList = .ok items) (hne : k ≠ startKernel g) :
    closure g (startKernel g).toList ≠ .ok items := by
  intro hstart
  obtain ⟨i, hi⟩ := exists_mem_of_kernel h hk
  obtain ⟨hmem, hdot⟩ := (mem_kernel_iff h hk hclosure hne).mp hi
  have hseed := mem_seeds_of_dot_pos hstart hmem hdot
  rw [mem_startKernel.mp hseed] at hdot
  exact absurd hdot (Nat.lt_irrefl 0)

/-- No two states are the same item set. -/
theorem eq_of_state_eq (h : ofGrammar g = .ok a) {p q : StateId} {items : ItemSet}
    (hp : a.states[p]? = some items) (hq : a.states[q]? = some items) : p = q := by
  obtain ⟨k, hk, hclosure⟩ := kernel_of_state h hp
  obtain ⟨k', hk', hclosure'⟩ := kernel_of_state h hq
  have heq : k = k' := by
    -- The start kernel is apart: its dot is at the beginning, so its closure has no dot further on.
    by_cases hstart : k = startKernel g
    · by_cases hstart' : k' = startKernel g
      · rw [hstart, hstart']
      · rw [hstart] at hclosure
        exact absurd hclosure (closure_ne_of_ne_startKernel h hk' hclosure' hstart')
    · by_cases hstart' : k' = startKernel g
      · rw [hstart'] at hclosure'
        exact absurd hclosure' (closure_ne_of_ne_startKernel h hk hclosure hstart)
      · apply OrderedSet.ext_mem
        intro i
        rw [mem_kernel_iff h hk hclosure hstart, mem_kernel_iff h hk' hclosure' hstart']
  subst heq
  exact Numbering.eq_of_getElem?_eq hk hk'

theorem nodup_states (h : ofGrammar g = .ok a) : a.states.toList.Nodup :=
  nodup_of_getElem?_unique fun _ _ _ => eq_of_state_eq h

/-- The numbers under which the states are looked up are the places at which they stand. -/
theorem elems_index (h : ofGrammar g = .ok a) : a.index.elems = a.states :=
  Array.toList_inj.mp (Numbering.toList_ofList (nodup_states h))

theorem stateId?_eq_some_iff (h : ofGrammar g = .ok a) {items : ItemSet} {q : StateId} :
    a.stateId? items = some q ↔ a.states[q]? = some items := by
  rw [stateId?, Numbering.number?_eq_some_iff, elems_index h]

/-! ### Transitions go to successors -/

/-- A transition is a successor that has items, if all symbols are tried. -/
theorem leads_iff_successor (h : ofGrammar g = .ok a) (hsymbols : ∀ s < g.symbolCount, s ∈ g.symbols) {p q : StateId}
    {s : Symbol} : a.Leads g p s q ↔ ∃ items next, a.states[p]? = some items ∧ successor g items s = .ok next ∧
      next ≠ ∅ ∧ a.states[q]? = some next := by
  constructor
  · intro ⟨items, k, hp, hkernel, hk⟩
    obtain ⟨next, hclosure, hq, _⟩ := state_of_kernel h hk
    obtain ⟨i, hi⟩ := exists_mem_of_state h hq
    refine ⟨items, next, hp, ?_, ne_empty_of_mem hi, hq⟩
    rw [successor_state h hp, hkernel]
    exact hclosure
  · intro ⟨items, next, hp, hsuccessor, hne, hq⟩
    rw [successor_state h hp] at hsuccessor
    cases hkernel : kernel? g items s with
    | none =>
        rw [hkernel] at hsuccessor
        exact absurd (Except.ok.inj hsuccessor).symm hne
    | some k =>
        rw [hkernel] at hsuccessor
        obtain ⟨_, hi⟩ := exists_mem_of_kernel? hkernel
        obtain ⟨j, hj, hnext, _⟩ := (mem_of_kernel?_eq_some hkernel).mp hi
        obtain ⟨q', _, hlead, _⟩ := exists_leads h hp hj hnext (hsymbols s (next?_lt_of_mem_state h hp hj hnext))
        obtain ⟨items', k', hp', hkernel', hk'⟩ := hlead
        obtain rfl := Option.some.inj (hp.symm.trans hp')
        obtain rfl := Option.some.inj (hkernel.symm.trans hkernel')
        obtain ⟨next', hclosure, hq', _⟩ := state_of_kernel h hk'
        obtain rfl := Except.ok.inj (hsuccessor.symm.trans hclosure)
        rw [eq_of_state_eq h hq hq']
        exact ⟨items, k, hp, hkernel, hk'⟩

/-- The successor of a state over a symbol is empty or a state. -/
theorem exists_successor (h : ofGrammar g = .ok a) (hsymbols : ∀ s < g.symbolCount, s ∈ g.symbols) {p : StateId}
    {items : ItemSet} (hp : a.states[p]? = some items) (s : Symbol) :
    ∃ next, successor g items s = .ok next ∧ (next = ∅ ∨ ∃ q : StateId, a.states[q]? = some next) := by
  cases hkernel : kernel? g items s with
  | none =>
      refine ⟨∅, ?_, Or.inl rfl⟩
      rw [successor_state h hp, hkernel]
  | some k =>
      obtain ⟨_, hi⟩ := exists_mem_of_kernel? hkernel
      obtain ⟨j, hj, hnext, _⟩ := (mem_of_kernel?_eq_some hkernel).mp hi
      obtain ⟨q, _, hlead, _⟩ := exists_leads h hp hj hnext (hsymbols s (next?_lt_of_mem_state h hp hj hnext))
      obtain ⟨items', next, hp', hsuccessor, _, hq⟩ := (leads_iff_successor h hsymbols).mp hlead
      obtain rfl := Option.some.inj (hp.symm.trans hp')
      exact ⟨next, hsuccessor, Or.inr ⟨q, hq⟩⟩

/-- Every state is reached from state `0` by going to successors. -/
theorem reached_of_state (h : ofGrammar g = .ok a) {start : ItemSet} (hstart : a.states[0]? = some start) {q : StateId}
    {items : ItemSet} (hq : a.states[q]? = some items) : Relation.ReflTransGen (Succeeds g) start items := by
  obtain ⟨k, hk, hclosure⟩ := kernel_of_state h hq
  obtain ⟨hfault, rfl⟩ := ofGrammar_eq_ok_iff.mp h
  obtain ⟨_, hseed, hreach⟩ := Search.reached_of_mem_run (Array.mem_of_getElem? hk)
  obtain rfl := List.mem_singleton.mp hseed
  clear hq hk
  induction hreach generalizing items with
  | refl =>
      obtain ⟨start', hclosure', hstart', _⟩ := state_of_kernel h (kernel_zero h)
      obtain rfl := Option.some.inj (hstart.symm.trans hstart')
      obtain rfl := Except.ok.inj (hclosure.symm.trans hclosure')
      exact .refl
  | tail _ hlead ih =>
      obtain ⟨items', l, hv, hmem⟩ := Search.leads_iff.mp hlead
      obtain ⟨hclosure', rfl⟩ := visit_eq_ok_iff.mp hv
      obtain ⟨s, _, hkernel⟩ := mem_nextKernels.mp hmem
      obtain ⟨i, hi⟩ := exists_mem_of_kernel? hkernel
      refine (ih hclosure').tail ⟨s, ?_, ne_empty_of_mem (mem_closure_of_mem hclosure hi)⟩
      rw [successor_eq (fun _ hi => fault?_of_mem_closure hclosure' hi), hkernel]
      exact hclosure

theorem toList_startKernel (g : Grammar) : (startKernel g).toList = [⟨g.startRule, 0⟩] := by
  simp [startKernel, OrderedSet.toList, OrderedSet.ofList, OrderedSet.ascendingList, OrderedSet.withoutRepeats]

theorem state_zero (h : ofGrammar g = .ok a) :
    ∃ start, closure g [⟨g.startRule, 0⟩] = .ok start ∧ a.states[0]? = some start := by
  obtain ⟨start, hclosure, hstart, _⟩ := state_of_kernel h (kernel_zero h)
  rw [toList_startKernel] at hclosure
  exact ⟨start, hclosure, hstart⟩

end Automaton

/-- The states are the item sets that can be reached from the closure of the start item by going to successors.
None of them is empty, each has one number, and an item set has a number only if it is a state. -/
theorem states_exactly_reachable {calls : List Builder.Call} {g : AugmentedGrammar}
    (hbuild : (Builder.ofCalls calls).build = .ok g) :
    ∃ a start, Automaton.ofGrammar g.toGrammar = .ok a ∧
      closure g.toGrammar [⟨g.startRule, 0⟩] = .ok start ∧ a.state? 0 = some start ∧
      (∀ items ∈ a.states, ∀ s, ∃ next, successor g.toGrammar items s = .ok next ∧
        (next = ∅ ∨ next ∈ a.states)) ∧
      (∀ items ∈ a.states, Relation.ReflTransGen (Succeeds g.toGrammar) start items) ∧
      a.states.toList.Nodup ∧ ∅ ∉ a.states ∧
      ∀ items q, a.stateId? items = some q ↔ a.state? q = some items := by
  have hg := Builder.proper_of_build hbuild
  have hsymbols : ∀ s < g.symbolCount, s ∈ g.symbols := fun _ => hg.mem_symbols.mpr
  obtain ⟨a, h⟩ := hg.exists_automaton
  obtain ⟨start, hclosure, hstart⟩ := Automaton.state_zero h
  refine ⟨a, start, h, hclosure, hstart, ?_, ?_, Automaton.nodup_states h, ?_, ?_⟩
  · intro items hitems s
    obtain ⟨p, hp⟩ := Array.mem_iff_getElem?.mp hitems
    obtain ⟨next, hnext, hempty | ⟨q, hq⟩⟩ := Automaton.exists_successor h hsymbols hp s
    · exact ⟨next, hnext, Or.inl hempty⟩
    · exact ⟨next, hnext, Or.inr (Array.mem_of_getElem? hq)⟩
  · intro items hitems
    obtain ⟨q, hq⟩ := Array.mem_iff_getElem?.mp hitems
    exact Automaton.reached_of_state h hstart hq
  · intro hempty
    obtain ⟨q, hq⟩ := Array.mem_iff_getElem?.mp hempty
    obtain ⟨i, hi⟩ := Automaton.exists_mem_of_state h hq
    exact OrderedSet.not_mem_empty hi
  · intro items q
    exact Automaton.stateId?_eq_some_iff h

/-- Lists of at least one element. -/
def listCalls : List Builder.Call :=
  [.addToken "list", .addToken "x", .addRule 1 [1, 2], .addRule 1 [2], .setStart 1]

def lists : AugmentedGrammar := .ofRules #["$end", "list", "x"] #[⟨1, [1, 2]⟩, ⟨1, [2]⟩] 1

theorem states_exactly_reachable_lists : (Builder.ofCalls listCalls).build = .ok lists ∧
    ∃ a start, Automaton.ofGrammar lists.toGrammar = .ok a ∧ a.state? 0 = some start ∧
      a.states.toList.map (·.toList) = [[⟨0, 0⟩, ⟨1, 0⟩, ⟨2, 0⟩], [⟨0, 1⟩, ⟨1, 1⟩], [⟨2, 1⟩], [⟨1, 2⟩]] ∧
      a.states.toList.Nodup ∧ ∀ items ∈ a.states, Relation.ReflTransGen (Succeeds lists.toGrammar) start items := by
  have hbuild : (Builder.ofCalls listCalls).build = .ok lists := by cbv
  have hrun : (Automaton.ofGrammar lists.toGrammar).toOption.map (fun a => a.states.toList.map (·.toList)) =
      some [[⟨0, 0⟩, ⟨1, 0⟩, ⟨2, 0⟩], [⟨0, 1⟩, ⟨1, 1⟩], [⟨2, 1⟩], [⟨1, 2⟩]] := by cbv
  obtain ⟨a, start, h, _, hstart, _, hreached, hnodup, _⟩ := states_exactly_reachable hbuild
  rw [h] at hrun
  exact ⟨hbuild, a, start, h, hstart, Option.some.inj hrun, hnodup, hreached⟩

end ShiftReduce
