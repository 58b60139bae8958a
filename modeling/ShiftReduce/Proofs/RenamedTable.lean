import ShiftReduce.Proofs.Renaming

/-! The tables of grammars that differ only in how their symbols are numbered. Items mention no symbols, so the same
items bring each other into closed sets, and the same item sets are reached. Only the order in which the symbols are
tried is another, and with it the numbers of the states. What an entry holds depends on the rules and on the items
of the state, so entries for the same items and the same symbol hold the same, and the same reductions are kept out
of them. -/

namespace ShiftReduce

variable {g g' : Grammar} {π : Symbol → Symbol} {items : ItemSet} {i j : Item} {s x : Symbol}

namespace Grammar.Mirrors

/-! ### Items -/

theorem next?_eq (h : g.Mirrors g' π) (i : Item) : i.next? g' = (i.next? g).map π := by
  rw [Item.next?, Item.next?, h.rule?_eq]
  cases g.rule? i.rule with
  | none => rfl
  | some rule => exact List.getElem?_map

theorem next?_iff (h : g.Mirrors g' π) (hs : s < g.symbolCount) : i.next? g' = some (π s) ↔ i.next? g = some s := by
  obtain ⟨u, hg⟩ := h.proper
  rw [h.next?_eq, Option.map_eq_some_iff]
  constructor
  · rintro ⟨t, hnext, heq⟩
    rwa [(h.inj (hg.next?_lt hnext) hs).mp heq] at hnext
  · exact fun hnext => ⟨s, hnext, rfl⟩

theorem exists_next? (h : g.Mirrors g' π) {s' : Symbol} (hnext : i.next? g' = some s') :
    ∃ s, i.next? g = some s ∧ s < g.symbolCount ∧ s' = π s := by
  obtain ⟨u, hg⟩ := h.proper
  rw [h.next?_eq, Option.map_eq_some_iff] at hnext
  obtain ⟨s, hnext, heq⟩ := hnext
  exact ⟨s, hnext, hg.next?_lt hnext, heq.symm⟩

theorem fault?_eq (h : g.Mirrors g' π) (i : Item) : i.fault? g' = i.fault? g := by
  rw [Item.fault?, Item.fault?, h.rule?_eq]
  cases g.rule? i.rule with
  | none => rfl
  | some rule => simp [Rule.rename]

theorem brings_iff (h : g.Mirrors g' π) : i.Brings g' j ↔ i.Brings g j := by
  obtain ⟨u, hg⟩ := h.proper
  obtain ⟨u', hg'⟩ := h.proper'
  constructor
  · rintro ⟨s', hnext', _, hrule', hdot⟩
    obtain ⟨s, hnext, hs, rfl⟩ := h.exists_next? hnext'
    obtain ⟨_, hrule', hlhs⟩ := hg'.mem_rulesWithLhs.mp hrule'
    obtain ⟨rule, hrule, rfl⟩ := h.exists_rule hrule'
    have heq := (h.inj (hg.symbols_lt hrule _ List.mem_cons_self) hs).mp hlhs
    exact ⟨s, hnext, hs, hg.mem_rulesWithLhs.mpr ⟨rule, hrule, heq⟩, hdot⟩
  · rintro ⟨s, hnext, hs, hmem, hdot⟩
    obtain ⟨rule, hrule, rfl⟩ := hg.mem_rulesWithLhs.mp hmem
    exact ⟨π rule.lhs, (h.next?_iff hs).mpr hnext, h.lt hs, hg'.mem_rulesWithLhs.mpr ⟨_, h.rule? hrule, rfl⟩, hdot⟩

theorem closure_eq (h : g.Mirrors g' π) {seeds : List Item} (hseeds : ∀ i ∈ seeds, i.fault? g = none) :
    closure g' seeds = closure g seeds := by
  obtain ⟨u, hg⟩ := h.proper
  obtain ⟨u', hg'⟩ := h.proper'
  obtain ⟨items, hclosure, _⟩ := hg.exists_closure hseeds
  obtain ⟨items', hclosure', _⟩ := hg'.exists_closure fun i hi => (h.fault?_eq i).trans (hseeds i hi)
  have hbrings : Item.Brings g' = Item.Brings g := by
    funext i j
    exact propext h.brings_iff
  have heq : items' = items := by
    apply OrderedSet.ext_mem
    intro i
    rw [mem_closure_iff hclosure, mem_closure_iff hclosure', hbrings]
  rw [hclosure, hclosure', heq]

/-! ### Successors -/

theorem kernel?_eq (h : g.Mirrors g' π) (hs : s < g.symbolCount) :
    kernel? g' items (π s) = kernel? g items s := by
  cases hkernel : kernel? g items s with
  | some k =>
      obtain ⟨_, hi⟩ := exists_mem_of_kernel? hkernel
      obtain ⟨j, hj, hnext, _⟩ := (mem_of_kernel?_eq_some hkernel).mp hi
      obtain ⟨k', hkernel', _⟩ := exists_kernel? hj ((h.next?_iff hs).mpr hnext)
      have heq : k' = k := by
        apply OrderedSet.ext_mem
        intro i
        simp only [mem_of_kernel?_eq_some hkernel, mem_of_kernel?_eq_some hkernel', h.next?_iff hs]
      rw [hkernel', heq]
  | none =>
      apply Option.eq_none_iff_forall_ne_some.mpr
      intro k' hkernel'
      obtain ⟨_, hi⟩ := exists_mem_of_kernel? hkernel'
      obtain ⟨j, hj, hnext, _⟩ := (mem_of_kernel?_eq_some hkernel').mp hi
      obtain ⟨k, hk, _⟩ := exists_kernel? hj ((h.next?_iff hs).mp hnext)
      cases hkernel.symm.trans hk

theorem successor_rename (h : g.Mirrors g' π) (hfault : ∀ i ∈ items, i.fault? g = none) (hs : s < g.symbolCount) :
    successor g' items (π s) = successor g items s := by
  rw [successor_eq hfault, successor_eq fun i hi => (h.fault?_eq i).trans (hfault i hi), h.kernel?_eq hs]
  cases hkernel : kernel? g items s with
  | none => rfl
  | some k => exact h.closure_eq fun i hi => fault?_of_mem_kernel? hkernel hi

theorem succeeds (h : g.Mirrors g' π) (hfault : ∀ i ∈ items, i.fault? g = none) {next : ItemSet}
    (hnext : Succeeds g items next) : Succeeds g' items next := by
  obtain ⟨u, hg⟩ := h.proper
  obtain ⟨s, hsuccessor, hne⟩ := hnext
  refine ⟨π s, ?_, hne⟩
  rw [successor_eq hfault] at hsuccessor
  cases hkernel : kernel? g items s with
  | none =>
      rw [hkernel] at hsuccessor
      exact absurd (Except.ok.inj hsuccessor).symm hne
  | some k =>
      obtain ⟨_, hi⟩ := exists_mem_of_kernel? hkernel
      obtain ⟨j, _, hexpects, _⟩ := (mem_of_kernel?_eq_some hkernel).mp hi
      rw [h.successor_rename hfault (hg.next?_lt hexpects), successor_eq hfault]
      exact hsuccessor

end Grammar.Mirrors

/-! ### States -/

namespace Automaton

variable {a a' : Automaton}

/-- The states with these numbers are the same item set. -/
def Same (a a' : Automaton) (q q' : StateId) : Prop := ∃ items, a.states[q]? = some items ∧ a'.states[q']? = some items

theorem same_zero (h : g.Mirrors g' π) (ha : ofGrammar g = .ok a) (ha' : ofGrammar g' = .ok a') : a.Same a' 0 0 := by
  obtain ⟨start, hclosure, hstart⟩ := state_zero ha
  obtain ⟨start', hclosure', hstart'⟩ := state_zero ha'
  have hseeds : ∀ i ∈ [(⟨g.startRule, 0⟩ : Item)], i.fault? g = none := by
    intro i hi
    exact fault?_of_mem_closure hclosure (mem_closure_of_mem hclosure hi)
  rw [h.startRule'.trans h.startRule.symm, h.closure_eq hseeds] at hclosure'
  obtain rfl := Except.ok.inj (hclosure.symm.trans hclosure')
  exact ⟨start, hstart, hstart'⟩

/-- Every state of the one is a state of the other. -/
theorem exists_same (h : g.Mirrors g' π) (ha : ofGrammar g = .ok a) (ha' : ofGrammar g' = .ok a') {q : StateId}
    (hq : a.states[q]? = some items) : ∃ q' : StateId, a'.states[q']? = some items := by
  obtain ⟨u', hg'⟩ := h.proper'
  obtain ⟨start, hstart, hstart'⟩ := same_zero h ha ha'
  have hreach := reached_of_state ha hstart hq
  clear hq
  induction hreach with
  | refl => exact ⟨0, hstart'⟩
  | @tail before _ _ hnext ih =>
      obtain ⟨p', hp'⟩ := ih
      have hfault : ∀ i ∈ before, i.fault? g = none :=
        fun i hi => (h.fault?_eq i).symm.trans (fault?_of_mem_state ha' hp' hi)
      obtain ⟨s, hsuccessor, hne⟩ := h.succeeds hfault hnext
      obtain ⟨next, hsuccessor', hstate⟩ := exists_successor ha' (fun _ => hg'.mem_symbols.mpr) hp' s
      obtain rfl := Except.ok.inj (hsuccessor.symm.trans hsuccessor')
      exact hstate.resolve_left hne

theorem size_le (h : g.Mirrors g' π) (ha : ofGrammar g = .ok a) (ha' : ofGrammar g' = .ok a') : a.size ≤ a'.size := by
  have hsubset : a.states.toList ⊆ a'.states.toList := by
    intro items hitems
    obtain ⟨q, hq⟩ := Array.mem_iff_getElem?.mp (Array.mem_toList_iff.mp hitems)
    obtain ⟨q', hq'⟩ := exists_same h ha ha' hq
    exact Array.mem_toList_iff.mpr (Array.mem_of_getElem? hq')
  exact (List.subperm_of_subset (nodup_states ha) hsubset).length_le

end Automaton

/-! ### Entries -/

/-- Two entries hold the same, apart from the numbers of the states that they name. -/
inductive Action.Alike (same : StateId → StateId → Prop) : Option Action → Option Action → Prop
  | none : Alike same none none
  | shift {p p' : StateId} : same p p' → Alike same (some (.shift p)) (some (.shift p'))
  | goto {p p' : StateId} : same p p' → Alike same (some (.goto p)) (some (.goto p'))
  | reduce (r : RuleId) : Alike same (some (.reduce r)) (some (.reduce r))
  | accept : Alike same (some .accept) (some .accept)

namespace Grammar.Mirrors

theorem expects_iff (h : g.Mirrors g' π) (hx : x < g.symbolCount) : Expects g' items (π x) ↔ Expects g items x := by
  simp only [Expects, h.next?_iff hx]

theorem completes_iff (h : g.Mirrors g' π) {r : RuleId} : Completes g' items r ↔ Completes g items r := by
  constructor
  · rintro ⟨_, hrule', hmem⟩
    obtain ⟨rule, hrule, rfl⟩ := h.exists_rule hrule'
    exact ⟨rule, hrule, by simpa [Rule.rename] using hmem⟩
  · rintro ⟨rule, hrule, hmem⟩
    exact ⟨rule.rename π, h.rule? hrule, by simpa [Rule.rename] using hmem⟩

theorem lt_of_mayReduce (h : g.Mirrors g' π) {r : RuleId} (hmay : MayReduce g items x r) : x < g.symbolCount := by
  obtain ⟨u, hg⟩ := h.proper
  obtain ⟨_, rule, hrule, _, hfollows⟩ := hmay
  exact h.lt_of_follows (hg.symbols_lt hrule _ List.mem_cons_self) (hg.not_isTerminal_lhs hrule) hfollows

theorem mayReduce_iff (h : g.Mirrors g' π) (hx : x < g.symbolCount) {r : RuleId} :
    MayReduce g' items (π x) r ↔ MayReduce g items x r := by
  obtain ⟨u, hg⟩ := h.proper
  refine and_congr_right fun _ => ?_
  constructor
  · rintro ⟨_, hrule', hmem, hfollows⟩
    obtain ⟨rule, hrule, rfl⟩ := h.exists_rule hrule'
    have hlhs := hg.symbols_lt hrule rule.lhs List.mem_cons_self
    exact ⟨rule, hrule, by simpa [Rule.rename] using hmem,
      (h.follows_iff hlhs hx (hg.not_isTerminal_lhs hrule)).mp hfollows⟩
  · rintro ⟨rule, hrule, hmem, hfollows⟩
    have hlhs := hg.symbols_lt hrule rule.lhs List.mem_cons_self
    exact ⟨rule.rename π, h.rule? hrule, by simpa [Rule.rename] using hmem,
      (h.follows_iff hlhs hx (hg.not_isTerminal_lhs hrule)).mpr hfollows⟩

theorem eq_end_iff (h : g.Mirrors g' π) (hx : x < g.symbolCount) : π x = g'.endSymbol ↔ x = g.endSymbol := by
  obtain ⟨u, hg⟩ := h.proper
  rw [← h.endSymbol, h.inj hx hg.end_lt]

end Grammar.Mirrors

namespace ParseTable

variable {t t' : ParseTable}

/-- States with the same items do the same for a symbol and for what it is renamed to. -/
theorem action?_alike (h : g.Mirrors g' π) (ht : ofGrammar g = .ok t) (ht' : ofGrammar g' = .ok t') {q q' : StateId}
    (hq : t.automaton.Same t'.automaton q q') (hx : x < g.symbolCount) :
    Action.Alike (t.automaton.Same t'.automaton) (t.action? q x) (t'.action? q' (π x)) := by
  obtain ⟨u, hg⟩ := h.proper
  obtain ⟨u', hg'⟩ := h.proper'
  have ha := (fits_of_ofGrammar hg ht).automaton
  have ha' := (fits_of_ofGrammar hg' ht').automaton
  obtain ⟨items, hq, hq'⟩ := hq
  have hentry := entry_action? hg h.startRule ht hq x
  have hentry' := entry_action? hg' h.startRule' ht' hq' (π x)
  have hfault : ∀ i ∈ items, i.fault? g = none := fun i hi => Automaton.fault?_of_mem_state ha hq hi
  have hexpects : Expects g' items (π x) ↔ Expects g items x := h.expects_iff hx
  have haccept : π x = g'.endSymbol ∧ Completes g' items 0 ↔ x = g.endSymbol ∧ Completes g items 0 :=
    and_congr (h.eq_end_iff hx) h.completes_iff
  have hmay {r : RuleId} : MayReduce g' items (π x) r ↔ MayReduce g items x r := h.mayReduce_iff hx
  have htarget {next : ItemSet} {p : StateId} (hid : t.automaton.stateId? next = some p) :
      ∃ p', t'.automaton.stateId? next = some p' ∧ t.automaton.Same t'.automaton p p' := by
    have hp := (Automaton.stateId?_eq_some_iff ha).mp hid
    obtain ⟨p', hp'⟩ := Automaton.exists_same h ha ha' hp
    exact ⟨p', (Automaton.stateId?_eq_some_iff ha').mpr hp', next, hp, hp'⟩
  -- What the second entry holds follows from the first case by case, since an entry is unique.
  generalize t.action? q x = o at hentry ⊢
  cases hentry with
  | shift hx' hterminal hnext hid =>
      obtain ⟨p', hid', hsame⟩ := htarget hid
      rw [hentry'.unique (.shift (hexpects.mpr hx') ((h.isTerminal_iff hx).mpr hterminal)
        ((h.successor_rename hfault hx).trans hnext) hid')]
      exact .shift hsame
  | goto hx' hterminal hnext hid =>
      obtain ⟨p', hid', hsame⟩ := htarget hid
      rw [hentry'.unique (.goto (hexpects.mpr hx') (fun h' => hterminal ((h.isTerminal_iff hx).mp h'))
        ((h.successor_rename hfault hx).trans hnext) hid')]
      exact .goto hsame
  | accept hx' hend hcompletes =>
      obtain ⟨hend', hcompletes'⟩ := haccept.mpr ⟨hend, hcompletes⟩
      rw [hentry'.unique (.accept (fun h' => hx' (hexpects.mp h')) hend' hcompletes')]
      exact .accept
  | reduce hx' hnot hr hleast =>
      rw [hentry'.unique (.reduce (fun h' => hx' (hexpects.mp h')) (fun h' => hnot (haccept.mp h')) (hmay.mpr hr)
        fun r' hr' => hleast r' (hmay.mp hr'))]
      exact .reduce _
  | none hx' hnot hnone =>
      rw [hentry'.unique (.none (fun h' => hx' (hexpects.mp h')) (fun h' => hnot (haccept.mp h'))
        fun r hr => hnone r (hmay.mp hr))]
      exact .none

/-! ### Conflicts -/

theorem nodup_conflicts (h : g.Mirrors g' π) (ht : ofGrammar g = .ok t) : t.conflicts.toList.Nodup := by
  obtain ⟨u, hg⟩ := h.proper
  refine (pairwise_conflicts hg h.startRule ht).imp ?_
  rintro c _ hbefore rfl
  have hirrefl : ∀ p : StateId × RuleId × Symbol,
      ¬ Prod.Lex (· < ·) (Prod.Lex (· < ·) (· < ·)) p p := by
    intro p
    simp [Prod.lex_def]
  exact hirrefl _ hbefore

/-- What a conflict is about, when states are told by their items and symbols are renamed. -/
def conflictKey (t : ParseTable) (π : Symbol → Symbol) (c : Conflict) : Option ItemSet × Action × Symbol :=
  (t.automaton.states[c.state]?, c.rejected, π c.symbol)

theorem conflictKey_injOn (h : g.Mirrors g' π) (ht : ofGrammar g = .ok t) {c d : Conflict} (hc : c ∈ t.conflicts)
    (hd : d ∈ t.conflicts) (heq : t.conflictKey π c = t.conflictKey π d) : c = d := by
  obtain ⟨u, hg⟩ := h.proper
  have ha := (fits_of_ofGrammar hg ht).automaton
  obtain ⟨r, _, ⟨items, hq, hmay, _⟩, hexisting⟩ := rejects_of_mem_conflicts hg h.startRule ht hc
  obtain ⟨r', _, ⟨items', hq', hmay', _⟩, hexisting'⟩ := rejects_of_mem_conflicts hg h.startRule ht hd
  obtain ⟨hitems, hrest⟩ := Prod.mk.inj heq
  obtain ⟨hrejected, hsymbol⟩ := Prod.mk.inj hrest
  have hstate : c.state = d.state := Automaton.eq_of_state_eq ha (hitems.trans hq') hq'
  have hsame := (h.inj (h.lt_of_mayReduce hmay) (h.lt_of_mayReduce hmay')).mp hsymbol
  rw [hstate, hsame] at hexisting
  have hfirst := Option.some.inj (hexisting.symm.trans hexisting')
  cases c
  cases d
  simp_all

/-- For every conflict there is one in the table of the renamed grammar. -/
theorem size_conflicts_le (h : g.Mirrors g' π) (ht : ofGrammar g = .ok t) (ht' : ofGrammar g' = .ok t') :
    t.conflicts.size ≤ t'.conflicts.size := by
  obtain ⟨u, hg⟩ := h.proper
  obtain ⟨u', hg'⟩ := h.proper'
  have ha := (fits_of_ofGrammar hg ht).automaton
  have ha' := (fits_of_ofGrammar hg' ht').automaton
  have hnodup : (t.conflicts.toList.map (t.conflictKey π)).Nodup := by
    refine List.Nodup.map_on ?_ (nodup_conflicts h ht)
    intro c hc d hd
    exact conflictKey_injOn h ht (Array.mem_toList_iff.mp hc) (Array.mem_toList_iff.mp hd)
  -- The conflicts of the second table have its own symbols already, so nothing is renamed in them.
  have hsubset : t.conflicts.toList.map (t.conflictKey π) ⊆ t'.conflicts.toList.map (t'.conflictKey id) := by
    intro key hkey
    obtain ⟨c, hc, rfl⟩ := List.mem_map.mp hkey
    obtain ⟨r, hr, ⟨items, hq, hmay, hne⟩, _⟩ :=
      rejects_of_mem_conflicts hg h.startRule ht (Array.mem_toList_iff.mp hc)
    have hx := h.lt_of_mayReduce hmay
    obtain ⟨q', hq'⟩ := Automaton.exists_same h ha ha' hq
    have hne' : t'.action? q' (π c.symbol) ≠ some (.reduce r) := by
      intro heq
      have halike := action?_alike h ht ht' ⟨items, hq, hq'⟩ hx
      rw [heq] at halike
      generalize t.action? c.state c.symbol = o at halike hne
      cases halike
      exact hne rfl
    obtain ⟨existing, hc'⟩ :=
      mem_conflicts_of_rejects hg' h.startRule' ht' ⟨items, hq', (h.mayReduce_iff hx).mpr hmay, hne'⟩
    refine List.mem_map.mpr ⟨_, Array.mem_toList_iff.mpr hc', ?_⟩
    rw [conflictKey, conflictKey, hr]
    exact congrArg (·, Action.reduce r, π c.symbol) (hq'.trans hq.symm)
  have hle := (List.subperm_of_subset hnodup hsubset).length_le
  rwa [List.length_map, List.length_map] at hle

end ParseTable

end ShiftReduce
