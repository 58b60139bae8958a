import ShiftReduce.Proofs.Conflicts
import ShiftReduce.Proofs.Stack

/-! Where the input is accepted. The completed start item has its dot past the beginning, so it came over a
transition, from a state that holds the item that begins the start rule. There is only one such state, which is
state `0`, and only one transition from there over the symbol of the start rule. So one state holds the completed
start item, and acceptance stands there at the end of the input, where no transition competes with it and every
reduction comes after it. -/

namespace ShiftReduce

variable {g : Grammar} {u : Symbol} {a : Automaton} {t : ParseTable}

namespace Grammar.Proper

theorem next?_start (hg : g.Proper u) : (⟨g.startRule, 0⟩ : Item).next? g = some u :=
  Item.next?_eq_some_iff.mpr ⟨_, hg.startRule, rfl⟩

theorem completed_start_mem_iff_leads (hg : g.Proper u) (h : Automaton.ofGrammar g = .ok a) {q : StateId}
    {items : ItemSet} (hq : a.states[q]? = some items) :
    (⟨g.startRule, 1⟩ : Item) ∈ items ↔ a.Leads g 0 u q := by
  obtain ⟨start, hzero, hbegun, _⟩ := Automaton.mem_state_zero h
  constructor
  · intro hmem
    obtain ⟨k, hk, hclosure⟩ := Automaton.kernel_of_state h hq
    have hseed := mem_seeds_of_dot_pos hclosure hmem Nat.one_pos
    rcases Automaton.kernel_cases h hk with rfl | ⟨p, s, _, hlead⟩
    · have heq := Automaton.mem_startKernel.mp hseed
      cases heq
    · obtain ⟨items', ⟨r, n⟩, hp, hj, hs, hadvance⟩ := hlead.back h hq hmem Nat.one_pos
      cases hadvance
      obtain rfl := hg.eq_zero_of_start_mem h hp hj
      obtain rfl := Option.some.inj (hs.symm.trans hg.next?_start)
      exact hlead
  · intro hlead
    exact hlead.advance_mem h hzero hq hbegun hg.next?_start

/-- The transition of state `0` over the symbol of the start rule. -/
theorem exists_leads_from_zero (hg : g.Proper u) (h : Automaton.ofGrammar g = .ok a) : ∃ q, a.Leads g 0 u q := by
  obtain ⟨start, hzero, hbegun, _⟩ := Automaton.mem_state_zero h
  exact Automaton.exists_leads_of_expects hg h hzero ⟨_, hbegun, hg.next?_start⟩

/-- If no other rule has the symbol of the start rule on its right-hand side, the state that is reached over it
holds nothing but the completed start item. -/
theorem eq_completed_start_of_mem (hg : g.Proper u) (h : Automaton.ofGrammar g = .ok a)
    (honly : ∀ r rule, g.rule? r = some rule → r ≠ g.startRule → u ∉ rule.rhs) {q : StateId}
    (hlead : a.Leads g 0 u q) {items : ItemSet} (hq : a.states[q]? = some items) {i : Item} (hi : i ∈ items) :
    i = ⟨g.startRule, 1⟩ := by
  obtain ⟨start, k, hstart, hkernel, hk⟩ := hlead
  obtain ⟨k', hk', hclosure⟩ := Automaton.kernel_of_state h hq
  obtain rfl := Option.some.inj (hk.symm.trans hk')
  obtain ⟨j, hj, hreach⟩ := (mem_closure_iff hclosure).mp hi
  have hseed : j = ⟨g.startRule, 1⟩ := by
    obtain ⟨⟨r, n⟩, hmem, hnext, rfl⟩ := (mem_of_kernel?_eq_some hkernel).mp hj
    obtain ⟨rule, hrule, hs⟩ := Item.next?_eq_some_iff.mp hnext
    obtain ⟨_, hzero, _, hdots⟩ := Automaton.mem_state_zero h
    obtain rfl := Option.some.inj (hstart.symm.trans hzero)
    obtain rfl : n = 0 := hdots _ hmem
    by_contra hne
    refine honly r rule hrule (fun hr => hne ?_) (List.mem_of_getElem? hs)
    rw [hr]
    rfl
  subst hseed
  -- Nothing is expected behind the dot, so nothing else is brought in.
  rcases Relation.ReflTransGen.cases_head hreach with heq | ⟨_, ⟨s, hnext, _⟩, _⟩
  · exact heq.symm
  · obtain ⟨rule, hrule, hs⟩ := Item.next?_eq_some_iff.mp hnext
    obtain rfl := Option.some.inj (hg.startRule.symm.trans hrule)
    cases hs

end Grammar.Proper

namespace ParseTable

theorem action?_eq_accept_iff (hg : g.Proper u) (hzero : g.startRule = 0) (htable : ofGrammar g = .ok t) {q : StateId}
    {x : Symbol} : t.action? q x = some .accept ↔ t.automaton.Leads g 0 u q ∧ x = g.endSymbol := by
  have ht := fits_of_ofGrammar hg htable
  constructor
  · intro haction
    obtain ⟨hend, items, hq, hmem⟩ := (ht.demands haction).of_accept
    exact ⟨(hg.completed_start_mem_iff_leads ht.automaton hq).mp hmem, hend⟩
  · rintro ⟨hlead, rfl⟩
    obtain ⟨items, hq⟩ := hlead.state ht.automaton
    have hmem := (hg.completed_start_mem_iff_leads ht.automaton hq).mpr hlead
    by_contra hrejected
    obtain ⟨r, hr⟩ := exists_reduce_of_rejected hg hzero htable (.accept hq hmem) hrejected
    cases hr

theorem rejected_ne_accept (hg : g.Proper u) (hzero : g.startRule = 0) (htable : ofGrammar g = .ok t) {c : Conflict}
    (hc : c ∈ t.conflicts) : c.rejected ≠ .accept := by
  obtain ⟨r, hr, _⟩ := rejects_of_mem_conflicts hg hzero htable hc
  rw [hr]
  exact fun heq => by cases heq

end ParseTable

/-- One state holds the completed start item, and it is the successor of state `0` over the start symbol that the
user has chosen. Acceptance stands in one entry of the table, the one of this state for the end symbol, and it is
never what a conflict rejects. -/
theorem acceptance_unique {calls : List Builder.Call} {g : AugmentedGrammar}
    (hbuild : (Builder.ofCalls calls).build = .ok g) :
    ∃ t start next q, ParseTable.ofGrammar g.toGrammar = .ok t ∧ t.automaton.state? 0 = some start ∧
      successor g.toGrammar start g.userStart = .ok next ∧ t.automaton.state? q = some next ∧
      (∀ p items, t.automaton.state? p = some items → ((⟨0, 1⟩ : Item) ∈ items ↔ p = q)) ∧
      (∀ p x, t.action? p x = some .accept ↔ p = q ∧ x = g.endSymbol) ∧
      ∀ c ∈ t.conflicts, c.rejected ≠ .accept := by
  have hg := Builder.proper_of_build hbuild
  have hzero := Builder.startRule_of_build hbuild
  obtain ⟨t, htable, hfits, _⟩ := ParseTable.exists_table hg
  have hsymbols : ∀ s < g.symbolCount, s ∈ g.symbols := fun _ => hg.mem_symbols.mpr
  obtain ⟨q, hlead⟩ := hg.exists_leads_from_zero hfits.automaton
  obtain ⟨start, next, hstart, hnext, _, hq⟩ := (Automaton.leads_iff_successor hfits.automaton hsymbols).mp hlead
  have honly : ∀ {p}, t.automaton.Leads g.toGrammar 0 g.userStart p ↔ p = q := by
    intro p
    constructor
    · exact fun hlead' => hlead'.unique hlead
    · rintro rfl
      exact hlead
  refine ⟨t, start, next, q, htable, hstart, hnext, hq, ?_, ?_, ?_⟩
  · intro p items hp
    rw [← honly, ← hg.completed_start_mem_iff_leads hfits.automaton hp, hzero]
  · intro p x
    rw [ParseTable.action?_eq_accept_iff hg hzero htable, honly]
  · exact fun c hc => ParseTable.rejected_ne_accept hg hzero htable hc

/-- The start symbol occurs in its own rules, so the accepting state expects more as well, and a reduction competes
with acceptance. -/
theorem acceptance_unique_ambiguous : (Builder.ofCalls ambiguousCalls).build = .ok ambiguous ∧
    ∃ t, ParseTable.ofGrammar ambiguous.toGrammar = .ok t ∧
      (∀ p x, t.action? p x = some .accept ↔ p = 1 ∧ x = 0) ∧
      ⟨1, 0, .accept, .reduce 2⟩ ∈ t.conflicts ∧ ∀ c ∈ t.conflicts, c.rejected ≠ .accept := by
  have hbuild : (Builder.ofCalls ambiguousCalls).build = .ok ambiguous := by cbv
  have hrun : (ParseTable.ofGrammar ambiguous.toGrammar).toOption.map
      (fun t => (t.action? 1 0, t.conflicts.contains ⟨1, 0, .accept, .reduce 2⟩)) = some (some .accept, true) := by cbv
  obtain ⟨t, start, next, q, htable, _, _, _, _, haccept, hrejected⟩ := acceptance_unique hbuild
  rw [htable] at hrun
  obtain ⟨haction, hconflict⟩ := Prod.mk.inj (Option.some.inj hrun)
  obtain ⟨rfl, _⟩ := (haccept 1 0).mp haction
  exact ⟨hbuild, t, htable, haccept, Array.contains_iff_mem.mp hconflict, hrejected⟩

end ShiftReduce
