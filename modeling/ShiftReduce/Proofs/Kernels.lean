import ShiftReduce.Proofs.LeastClosure

/-! States are told by the items in which a dot has been moved. Closing adds only items that have their dots at the
beginning, so in any state but the first the others are exactly those that came over a transition, and the state is
their closure. A transition moves the dot over one symbol in all of them. Hence all transitions to a state are over the
symbol that stands before the dots there, and states that agree in these items are the same. -/

namespace ShiftReduce

variable {g : Grammar} {u : Symbol} {a : Automaton} {items : ItemSet}

/-- The symbol right before the dot, unless the dot is at the beginning. -/
def Item.previous? (g : Grammar) (i : Item) : Option Symbol :=
  match i.dot with
  | 0 => none
  | n + 1 => (g.rule? i.rule).bind (·.rhs[n]?)

theorem Item.previous?_advance (i : Item) : i.advance.previous? g = i.next? g := rfl

/-- The items of a set that have their dots past the beginning. -/
def movedItems (items : ItemSet) : List Item := items.toList.filter (0 < ·.dot)

theorem mem_movedItems {i : Item} : i ∈ movedItems items ↔ i ∈ items ∧ 0 < i.dot := by
  rw [movedItems, List.mem_filter, decide_eq_true_iff, OrderedSet.mem_def]

namespace Automaton

variable {q : StateId}

/-- Every state but the first has been come to over a transition. -/
theorem exists_leads_to (h : ofGrammar g = .ok a) (hq : a.states[q]? = some items) (hpos : 0 < q) :
    ∃ p s, a.Leads g p s q := by
  obtain ⟨k, hk, _⟩ := kernel_of_state h hq
  rcases kernel_cases h hk with rfl | ⟨p, s, _, hlead⟩
  · exact absurd (Numbering.eq_of_getElem?_eq hk (kernel_zero h)) (Nat.ne_of_gt hpos)
  · exact ⟨p, s, hlead⟩

theorem Leads.previous? (h : ofGrammar g = .ok a) {p : StateId} {s : Symbol} (hlead : a.Leads g p s q)
    (hq : a.states[q]? = some items) {i : Item} (hi : i ∈ items) (hdot : 0 < i.dot) : i.previous? g = some s := by
  obtain ⟨_, j, _, _, hnext, rfl⟩ := hlead.back h hq hi hdot
  rw [Item.previous?_advance, hnext]

theorem Leads.exists_moved (h : ofGrammar g = .ok a) {p : StateId} {s : Symbol} (hlead : a.Leads g p s q)
    (hq : a.states[q]? = some items) : ∃ i ∈ items, 0 < i.dot := by
  obtain ⟨_, k, _, hkernel, hk⟩ := hlead
  obtain ⟨k', hk', hclosure⟩ := kernel_of_state h hq
  obtain rfl := Option.some.inj (hk.symm.trans hk')
  obtain ⟨i, hi⟩ := exists_mem_of_kernel? hkernel
  exact ⟨i, mem_closure_of_mem hclosure hi, dot_pos_of_mem_kernel? hkernel hi⟩

theorem movedItems_zero (h : ofGrammar g = .ok a) (hzero : a.states[0]? = some items) : movedItems items = [] := by
  obtain ⟨items', hzero', _, hdot⟩ := mem_state_zero h
  obtain rfl := Option.some.inj (hzero.symm.trans hzero')
  apply List.eq_nil_iff_forall_not_mem.mpr
  intro i hi
  obtain ⟨hmem, hpos⟩ := mem_movedItems.mp hi
  exact absurd (hdot i hmem) (Nat.ne_of_gt hpos)

theorem closure_movedItems (hg : g.Proper u) (h : ofGrammar g = .ok a) (hq : a.states[q]? = some items)
    (hpos : 0 < q) : closure g (movedItems items) = .ok items := by
  obtain ⟨k, hk, hclosure⟩ := kernel_of_state h hq
  have hne : k ≠ startKernel g := by
    rintro rfl
    exact absurd (Numbering.eq_of_getElem?_eq hk (kernel_zero h)) (Nat.ne_of_gt hpos)
  refine hg.closure_congr hclosure fun i => ?_
  rw [mem_movedItems, ← mem_kernel_iff h hk hclosure hne, OrderedSet.mem_def]

theorem movedItems_ne_nil (h : ofGrammar g = .ok a) (hq : a.states[q]? = some items) (hpos : 0 < q) :
    movedItems items ≠ [] := by
  obtain ⟨p, s, hlead⟩ := exists_leads_to h hq hpos
  obtain ⟨i, hi, hdot⟩ := hlead.exists_moved h hq
  exact List.ne_nil_of_mem (mem_movedItems.mpr ⟨hi, hdot⟩)

theorem eq_of_movedItems_eq (hg : g.Proper u) (h : ofGrammar g = .ok a) {p : StateId} {items' : ItemSet}
    (hp : a.states[p]? = some items') (hq : a.states[q]? = some items) (heq : movedItems items' = movedItems items) :
    p = q := by
  rcases Nat.eq_zero_or_pos p with rfl | hppos <;> rcases Nat.eq_zero_or_pos q with rfl | hqpos
  · rfl
  · exact absurd (heq.symm.trans (movedItems_zero h hp)) (movedItems_ne_nil h hq hqpos)
  · exact absurd (heq.trans (movedItems_zero h hq)) (movedItems_ne_nil h hp hppos)
  · have hclosure := closure_movedItems hg h hp hppos
    rw [heq, closure_movedItems hg h hq hqpos] at hclosure
    obtain rfl := Except.ok.inj hclosure
    exact eq_of_state_eq h hp hq

end Automaton

/-- In the first state every dot is at the beginning, and no transition leads there. In any other state there are
items whose dots have been moved. One symbol stands right before all of these dots, the transitions that lead to the
state are over this symbol, and the state is the closure of these items. So no two states agree in them. -/
theorem states_told_by_kernels {calls : List Builder.Call} {g : AugmentedGrammar}
    (hbuild : (Builder.ofCalls calls).build = .ok g) :
    ∃ a start, Automaton.ofGrammar g.toGrammar = .ok a ∧ a.state? 0 = some start ∧
      (∀ i ∈ start, i.dot = 0) ∧
      (∀ before ∈ a.states, ∀ s, successor g.toGrammar before s ≠ .ok start) ∧
      (∀ q items, 0 < q → a.state? q = some items →
        (∃ i ∈ items, 0 < i.dot) ∧
        (∃ s, (∀ i ∈ items, 0 < i.dot → i.previous? g.toGrammar = some s) ∧
          (∃ before ∈ a.states, successor g.toGrammar before s = .ok items) ∧
          ∀ before ∈ a.states, ∀ s', successor g.toGrammar before s' = .ok items → s' = s) ∧
        closure g.toGrammar (movedItems items) = .ok items) ∧
      ∀ p q items items', a.state? p = some items → a.state? q = some items' →
        movedItems items = movedItems items' → p = q := by
  have hg := Builder.proper_of_build hbuild
  have hsymbols : ∀ s < g.symbolCount, s ∈ g.symbols := fun _ => hg.mem_symbols.mpr
  obtain ⟨a, h⟩ := hg.exists_automaton
  obtain ⟨start, hzero, _, hdot⟩ := Automaton.mem_state_zero h
  -- A successor of a state that is a state has been come to over a transition.
  have hleads : ∀ before ∈ a.states, ∀ s q items, a.states[q]? = some items →
      successor g.toGrammar before s = .ok items → ∃ p, a.Leads g.toGrammar p s q := by
    intro before hbefore s q items hq hsuccessor
    obtain ⟨p, hp⟩ := Array.mem_iff_getElem?.mp hbefore
    obtain ⟨i, hi⟩ := Automaton.exists_mem_of_state h hq
    exact ⟨p, (Automaton.leads_iff_successor h hsymbols).mpr
      ⟨before, items, hp, hsuccessor, ne_empty_of_mem hi, hq⟩⟩
  refine ⟨a, start, h, hzero, hdot, ?_, ?_, ?_⟩
  · intro before hbefore s hsuccessor
    obtain ⟨p, hlead⟩ := hleads before hbefore s 0 start hzero hsuccessor
    exact hlead.ne_zero h rfl
  · intro q items hpos hq
    obtain ⟨p, s, hlead⟩ := Automaton.exists_leads_to h hq hpos
    have hmoved := hlead.exists_moved h hq
    refine ⟨hmoved, ⟨s, fun i hi hi' => hlead.previous? h hq hi hi', ?_, ?_⟩, Automaton.closure_movedItems hg h hq hpos⟩
    · obtain ⟨before, next, hp, hsuccessor, _, hq'⟩ := (Automaton.leads_iff_successor h hsymbols).mp hlead
      obtain rfl := Option.some.inj (hq.symm.trans hq')
      exact ⟨before, Array.mem_of_getElem? hp, hsuccessor⟩
    · intro before hbefore s' hsuccessor
      obtain ⟨p', hlead'⟩ := hleads before hbefore s' q items hq hsuccessor
      obtain ⟨i, hi, hidot⟩ := hmoved
      exact Option.some.inj ((hlead'.previous? h hq hi hidot).symm.trans (hlead.previous? h hq hi hidot))
  · intro p q items items' hp hq heq
    exact Automaton.eq_of_movedItems_eq hg h hp hq heq

/-- The state after a list in the automaton for lists: the dots have been moved over the list, and what comes next may
be an element. -/
theorem states_told_by_kernels_lists : (Builder.ofCalls listCalls).build = .ok lists ∧
    ∃ a items, Automaton.ofGrammar lists.toGrammar = .ok a ∧ a.state? 1 = some items ∧
      items.toList = [⟨0, 1⟩, ⟨1, 1⟩] ∧
      (∀ before ∈ a.states, ∀ s, successor lists.toGrammar before s = .ok items → s = 1) ∧
      closure lists.toGrammar [⟨0, 1⟩, ⟨1, 1⟩] = .ok items := by
  have hbuild : (Builder.ofCalls listCalls).build = .ok lists := by cbv
  have hrun : (Automaton.ofGrammar lists.toGrammar).toOption.map (fun a => (a.state? 1).map (·.toList)) =
      some (some [⟨0, 1⟩, ⟨1, 1⟩]) := by cbv
  obtain ⟨a, _, h, _, _, _, htold, _⟩ := states_told_by_kernels hbuild
  rw [h] at hrun
  obtain ⟨items, hq, hitems⟩ := Option.map_eq_some_iff.mp (Option.some.inj hrun)
  obtain ⟨_, ⟨s, hprevious, _, hover⟩, hclosure⟩ := htold 1 items Nat.one_pos hq
  have hmem : (⟨1, 1⟩ : Item) ∈ items := by
    rw [OrderedSet.mem_def, hitems]
    decide
  obtain rfl := Option.some.inj ((hprevious _ hmem Nat.one_pos).symm.trans (by cbv : _ = some 1))
  rw [movedItems, hitems] at hclosure
  exact ⟨hbuild, a, items, h, hq, hitems, hover, hclosure⟩

end ShiftReduce
