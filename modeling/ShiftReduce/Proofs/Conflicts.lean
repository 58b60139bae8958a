import ShiftReduce.Proofs.Entries

/-! Which conflicts are recorded. An entry that has been written stays, so of each demand it is known in the end
whether it has been met. Transitions and acceptance always are. All reductions that are not are recorded, in the
order in which they are demanded, each with the action that has kept it out. -/

namespace ShiftReduce

variable {g : Grammar} {u : Symbol} {t : ParseTable} {a : Automaton} {q : StateId} {items : ItemSet} {x : Symbol}

namespace ParseTable

/-! ### Demands that are not met -/

/-- The record of a demand for an entry that holds something else. -/
def clash? (t : ParseTable) (d : Demand) : Option Conflict :=
  (t.action? d.state d.symbol).bind fun e => if e = d.action then none else some ⟨d.state, d.symbol, e, d.action⟩

theorem clash?_eq_some_iff {d : Demand} {c : Conflict} : t.clash? d = some c ↔
    d = ⟨c.state, c.symbol, c.rejected⟩ ∧ t.action? c.state c.symbol = some c.existing ∧ c.existing ≠ c.rejected := by
  obtain ⟨s, y, act⟩ := d
  unfold clash?
  rw [Option.bind_eq_some_iff]
  constructor
  · rintro ⟨e, he, hc⟩
    obtain ⟨hne, hc⟩ := Option.ite_none_left_eq_some.mp hc
    obtain rfl := Option.some.inj hc
    exact ⟨rfl, he, hne⟩
  · rintro ⟨hd, he, hne⟩
    cases hd
    exact ⟨c.existing, he, if_neg hne⟩

theorem conflicts_meet (t : ParseTable) (d : Demand) :
    (t.meet d).conflicts.toList = t.conflicts.toList ++ ((t.meet d).clash? d).toList := by
  unfold clash?
  rw [action?_meet, Demand.at?, if_pos ⟨rfl, rfl⟩]
  unfold meet action?
  cases hget : t.actions.get? d.state d.symbol with
  | none =>
      simp [ActionTable.set_of_get?_eq_none hget]
  | some e =>
      rw [ActionTable.set_of_get?_eq_some hget]
      by_cases he : e = d.action
      · simp [he]
      · simp [he]

/-- An entry that has been written stays, so the record of a demand that has been dealt with stays the same. -/
theorem clash?_foldl_meet (l : List Demand) (t : ParseTable) (d : Demand) :
    (l.foldl meet (t.meet d)).clash? d = (t.meet d).clash? d := by
  have hentry : (l.foldl meet (t.meet d)).action? d.state d.symbol = (t.meet d).action? d.state d.symbol := by
    rw [action?_foldl_meet, action?_meet, Demand.at?, if_pos ⟨rfl, rfl⟩]
    cases t.action? d.state d.symbol <;> rfl
  rw [clash?, clash?, hentry]

theorem conflicts_foldl_meet (l : List Demand) (t : ParseTable) :
    (l.foldl meet t).conflicts.toList = t.conflicts.toList ++ l.filterMap (clash? (l.foldl meet t)) := by
  induction l generalizing t with
  | nil => exact (List.append_nil _).symm
  | cons d l ih =>
      rw [List.foldl_cons, ih, conflicts_meet, ← clash?_foldl_meet l t d, List.append_assoc,
        List.filterMap_eq_flatMap_toList, List.filterMap_eq_flatMap_toList, List.flatMap_cons]

/-- The conflicts are the demands that have not been met, in their order. -/
theorem conflicts_of_ofGrammar (htable : ofGrammar g = .ok t) : t.conflicts.toList =
    (demands g t.automaton).filterMap fun e => e.toOption.bind t.clash? := by
  obtain ⟨_, hfill⟩ := eq_fill_of_ofGrammar htable
  have hconflicts := conflicts_foldl_meet ((demands g t.automaton).filterMap (·.toOption))
    ⟨t.automaton, .ofStates t.automaton.size, #[]⟩
  rw [← fill, ← hfill, List.filterMap_filterMap] at hconflicts
  exact hconflicts

theorem mem_conflicts_iff (hg : g.Proper u) (htable : ofGrammar g = .ok t) {c : Conflict} : c ∈ t.conflicts ↔
    t.automaton.Demands g c.state c.symbol c.rejected ∧ t.action? c.state c.symbol = some c.existing ∧
      c.existing ≠ c.rejected := by
  have h := (fits_of_ofGrammar hg htable).automaton
  rw [← Array.mem_toList_iff, conflicts_of_ofGrammar htable, List.mem_filterMap]
  constructor
  · rintro ⟨e, he, hc⟩
    obtain ⟨d, hd, hc⟩ := Option.bind_eq_some_iff.mp hc
    obtain ⟨p, y, act, hdemand, rfl⟩ := (mem_demands_iff_demands hg h).mp he
    obtain rfl := Option.some.inj hd
    obtain ⟨heq, hexisting, hne⟩ := clash?_eq_some_iff.mp hc
    cases heq
    exact ⟨hdemand, hexisting, hne⟩
  · rintro ⟨hdemand, hrest⟩
    refine ⟨.ok ⟨c.state, c.symbol, c.rejected⟩, (mem_demands_iff_demands hg h).mpr ⟨_, _, _, hdemand, rfl⟩, ?_⟩
    exact clash?_eq_some_iff.mpr ⟨rfl, hrest⟩

/-- Only reductions are kept out. -/
theorem exists_reduce_of_rejected (hg : g.Proper u) (hzero : g.startRule = 0) (htable : ofGrammar g = .ok t)
    {act : Action} (hdemand : t.automaton.Demands g q x act) (hrejected : t.action? q x ≠ some act) :
    ∃ r, act = .reduce r := by
  have ht := fits_of_ofGrammar hg htable
  cases act with
  | shift p =>
      obtain ⟨hterminal, hlead⟩ := hdemand.of_shift
      rw [action?_of_leads hg htable hlead, if_pos hterminal] at hrejected
      exact absurd rfl hrejected
  | goto p =>
      obtain ⟨hterminal, hlead⟩ := hdemand.of_goto
      rw [action?_of_leads hg htable hlead, if_neg hterminal] at hrejected
      exact absurd rfl hrejected
  | reduce r => exact ⟨r, rfl⟩
  | accept =>
      obtain ⟨_, items, hq, _⟩ := hdemand.of_accept
      obtain ⟨hend, hcompletes⟩ := (Automaton.demands_accept_iff hg hzero hq).mp hdemand
      refine absurd (Entry.unique (entry_action? hg hzero htable hq x) (.accept ?_ hend hcompletes)) hrejected
      intro hx
      obtain ⟨p, hlead⟩ := Automaton.exists_leads_of_expects hg ht.automaton hq hx
      exact hg.ne_end_of_leads hlead hend

/-! ### The order of the conflicts -/

/-- One conflict stands before another: by the state, then by the rule that was rejected, then by the symbol. -/
def Conflict.Before (c c' : Conflict) : Prop :=
  Prod.Lex (· < ·) (Prod.Lex (· < ·) (· < ·)) (c.state, c.rejected.target, c.symbol)
    (c'.state, c'.rejected.target, c'.symbol)

/-- Transitions are all met if they are asked for as what they are. -/
theorem filterMap_transitions_eq_nil (hg : g.Proper u) (htable : ofGrammar g = .ok t)
    (hq : t.automaton.states[q]? = some items) {l : List Symbol} (hl : ∀ s ∈ l, s ∈ g.symbols)
    {action : StateId → Action} (haction : ∀ s ∈ l, ∀ p, action p = if g.isTerminal s then .shift p else .goto p) :
    (l.filterMap (transitionDemand? g t.automaton q (moves g items) action)).filterMap
      (fun e => e.toOption.bind t.clash?) = [] := by
  apply List.filterMap_eq_nil_iff.mpr
  intro e he
  obtain ⟨s, hs, he⟩ := List.mem_filterMap.mp he
  have h := (fits_of_ofGrammar hg htable).automaton
  obtain ⟨p, hlead, rfl⟩ := (transitionDemand?_eq_some_iff h hq (hl s hs)).mp he
  apply Option.eq_none_iff_forall_ne_some.mpr
  rintro ⟨q', s', existing, rejected⟩ hc
  obtain ⟨hd, hexisting, hne⟩ := clash?_eq_some_iff.mp hc
  cases hd
  rw [action?_of_leads hg htable hlead, ← haction _ hs] at hexisting
  exact hne (Option.some.inj hexisting).symm

/-- What is recorded of a state comes from its items. -/
theorem filterMap_stateDemands (hg : g.Proper u) (htable : ofGrammar g = .ok t)
    (hq : t.automaton.states[q]? = some items) :
    (stateDemands g t.automaton q items).filterMap (fun e => e.toOption.bind t.clash?) =
      (items.toList.flatMap (itemDemands g q)).filterMap fun e => e.toOption.bind t.clash? := by
  have hterminals : ∀ s ∈ g.terminals, s ∈ g.symbols := fun s hs => hg.mem_symbols.mpr (hg.mem_terminals.mp hs).1
  have hnonterminals : ∀ s ∈ g.nonterminals, s ∈ g.symbols :=
    fun s hs => hg.mem_symbols.mpr (hg.mem_nonterminals.mp hs).1
  rw [stateDemands, List.filterMap_append, List.filterMap_append, filterMap_transitions_eq_nil hg htable hq hterminals,
    filterMap_transitions_eq_nil hg htable hq hnonterminals, List.nil_append, List.nil_append]
  · exact fun s hs p => (if_neg (hg.mem_nonterminals.mp hs).2).symm
  · exact fun s hs p => (if_pos (hg.mem_terminals.mp hs).2).symm

theorem state_of_clash {c : Conflict}
    (hc : c ∈ (stateDemands g a q items).filterMap fun e => e.toOption.bind t.clash?) : c.state = q := by
  obtain ⟨e, he, hc⟩ := List.mem_filterMap.mp hc
  cases e with
  | error e => cases hc
  | ok d =>
      obtain ⟨rfl, _⟩ := clash?_eq_some_iff.mp hc
      exact state_of_mem_stateDemands he

theorem pairwise_clashes_of_items (hg : g.Proper u) (hzero : g.startRule = 0)
    (hfault : ∀ i ∈ items, i.fault? g = none) :
    ((items.toList.flatMap (itemDemands g q)).filterMap fun e => e.toOption.bind t.clash?).Pairwise fun c c' =>
      Prod.Lex (· < ·) (· < ·) (c.rejected.target, c.symbol) (c'.rejected.target, c'.symbol) := by
  refine (pairwise_demands_of_items hg hzero hfault).filterMap _ ?_
  intro e e' hbefore c hc c' hc'
  obtain ⟨d, hd, hc⟩ := Option.bind_eq_some_iff.mp hc
  obtain ⟨d', hd', hc'⟩ := Option.bind_eq_some_iff.mp hc'
  obtain ⟨rfl, _⟩ := clash?_eq_some_iff.mp hc
  obtain ⟨rfl, _⟩ := clash?_eq_some_iff.mp hc'
  cases e with
  | error e => cases hd
  | ok d =>
      cases e' with
      | error e' => cases hd'
      | ok d' =>
          obtain rfl := Option.some.inj hd
          obtain rfl := Option.some.inj hd'
          exact hbefore _ _ rfl rfl

theorem pairwise_conflicts (hg : g.Proper u) (hzero : g.startRule = 0) (htable : ofGrammar g = .ok t) :
    t.conflicts.toList.Pairwise Conflict.Before := by
  have h := (fits_of_ofGrammar hg htable).automaton
  rw [conflicts_of_ofGrammar htable, demands, List.filterMap_flatMap]
  apply List.pairwise_flatMap.mpr
  constructor
  · rintro ⟨items, q⟩ hq
    rw [List.mem_zipIdx_iff_getElem?, Array.getElem?_toList] at hq
    have hfault : ∀ i ∈ items, i.fault? g = none := fun i hi => Automaton.fault?_of_mem_state h hq hi
    have hclashes := filterMap_stateDemands hg htable hq
    have hitems := pairwise_clashes_of_items (q := q) (t := t) hg hzero hfault
    rw [← hclashes] at hitems
    refine hitems.imp_of_mem ?_
    intro c c' hc hc' hlex
    rw [Conflict.Before, state_of_clash hc, state_of_clash hc']
    exact Prod.Lex.right q hlex
  · refine (pairwise_zipIdx _).imp ?_
    rintro ⟨items, q⟩ ⟨items', q'⟩ hlt c hc c' hc'
    apply Prod.Lex.left
    rw [state_of_clash hc, state_of_clash hc']
    exact hlt

theorem isConflictFree_iff (hg : g.Proper u) (htable : ofGrammar g = .ok t) : t.isConflictFree ↔
    ∀ q x act act', t.automaton.Demands g q x act → t.automaton.Demands g q x act' → act = act' := by
  obtain ⟨t', ht', hfits, hmet⟩ := exists_table hg
  obtain rfl := Except.ok.inj (htable.symm.trans ht')
  constructor
  · intro hfree q x act act' hdemand hdemand'
    exact Option.some.inj ((hmet hfree hdemand).symm.trans (hmet hfree hdemand'))
  · intro hunique
    refine Array.isEmpty_iff.mpr (Array.eq_empty_iff_forall_not_mem.mpr ?_)
    intro c hc
    obtain ⟨hdemand, hexisting, hne⟩ := (mem_conflicts_iff hg htable).mp hc
    exact hne (hunique _ _ _ _ (hfits.demands hexisting) hdemand)

/-- A state allows a reduction, and something else stands in the entry. -/
def Rejects (t : ParseTable) (g : Grammar) (q : StateId) (r : RuleId) (x : Symbol) : Prop :=
  ∃ items, t.automaton.state? q = some items ∧ MayReduce g items x r ∧ t.action? q x ≠ some (.reduce r)

theorem rejects_of_mem_conflicts (hg : g.Proper u) (hzero : g.startRule = 0) (htable : ofGrammar g = .ok t)
    {c : Conflict} (hc : c ∈ t.conflicts) : ∃ r, c.rejected = .reduce r ∧ t.Rejects g c.state r c.symbol ∧
      t.action? c.state c.symbol = some c.existing := by
  obtain ⟨hdemand, hexisting, hne⟩ := (mem_conflicts_iff hg htable).mp hc
  have hrejected : t.action? c.state c.symbol ≠ some c.rejected := by
    rw [hexisting]
    exact fun heq => hne (Option.some.inj heq)
  obtain ⟨r, hr⟩ := exists_reduce_of_rejected hg hzero htable hdemand hrejected
  rw [hr] at hdemand hrejected
  obtain ⟨items, _, _, hq, _⟩ := hdemand.of_reduce
  exact ⟨r, hr, ⟨items, hq, (Automaton.demands_reduce_iff hg hzero hq).mp hdemand, hrejected⟩, hexisting⟩

theorem mem_conflicts_of_rejects (hg : g.Proper u) (hzero : g.startRule = 0) (htable : ofGrammar g = .ok t)
    {r : RuleId} (h : t.Rejects g q r x) : ∃ existing, ⟨q, x, existing, .reduce r⟩ ∈ t.conflicts := by
  obtain ⟨items, hq, hmay, hrejected⟩ := h
  have hdemand := (Automaton.demands_reduce_iff hg hzero hq).mpr hmay
  obtain ⟨existing, hexisting⟩ := exists_action?_of_demands hg htable hdemand
  refine ⟨existing, (mem_conflicts_iff hg htable).mpr ⟨hdemand, hexisting, ?_⟩⟩
  intro heq
  exact hrejected (hexisting.trans (congrArg some heq))

end ParseTable

theorem Builder.startRule_of_build {calls : List Builder.Call} {g : AugmentedGrammar}
    (h : (Builder.ofCalls calls).build = .ok g) : g.startRule = 0 := by
  rw [Builder.eq_ofRules_of_build h]
  rfl

/-- The items of a state settle what stands in its entries. A reduction that something else keeps out of an entry
is recorded once, together with what stands there, and nothing else is recorded. The records are ordered by
states, rules and symbols, and there are none if no state demands two actions for one symbol. -/
theorem entries_and_conflicts {calls : List Builder.Call} {g : AugmentedGrammar}
    (hbuild : (Builder.ofCalls calls).build = .ok g) :
    ∃ t, ParseTable.ofGrammar g.toGrammar = .ok t ∧
      (∀ q items, t.automaton.state? q = some items →
        ∀ x o, t.action? q x = o ↔ Entry g.toGrammar t.automaton items x o) ∧
      (∀ c ∈ t.conflicts, ∃ r, c.rejected = .reduce r ∧ t.Rejects g.toGrammar c.state r c.symbol ∧
        t.action? c.state c.symbol = some c.existing) ∧
      (∀ q r x, t.Rejects g.toGrammar q r x → ∃ existing, ⟨q, x, existing, .reduce r⟩ ∈ t.conflicts) ∧
      t.conflicts.toList.Pairwise ParseTable.Conflict.Before ∧
      (t.isConflictFree ↔ ∀ q x act act', t.automaton.Demands g.toGrammar q x act →
        t.automaton.Demands g.toGrammar q x act' → act = act') := by
  have hg := Builder.proper_of_build hbuild
  have hzero := Builder.startRule_of_build hbuild
  obtain ⟨t, htable, _⟩ := ParseTable.exists_table hg
  refine ⟨t, htable, ?_, ?_, ?_, ?_, ?_⟩
  · intro q items hq x o
    have hentry := ParseTable.entry_action? hg hzero htable hq x
    constructor
    · rintro rfl
      exact hentry
    · exact hentry.unique
  · exact fun c hc => ParseTable.rejects_of_mem_conflicts hg hzero htable hc
  · exact fun q r x h => ParseTable.mem_conflicts_of_rejects hg hzero htable h
  · exact ParseTable.pairwise_conflicts hg hzero htable
  · exact ParseTable.isConflictFree_iff hg htable

/-- A symbol that stands for itself, for two of itself and for a terminal. -/
def ambiguousCalls : List Builder.Call :=
  [.addToken "s", .addToken "x", .addRule 1 [1, 1], .addRule 1 [1], .addRule 1 [2], .setStart 1]

def ambiguous : AugmentedGrammar := .ofRules #["$end", "s", "x"] #[⟨1, [1, 1]⟩, ⟨1, [1]⟩, ⟨1, [2]⟩] 1

theorem entries_and_conflicts_ambiguous : (Builder.ofCalls ambiguousCalls).build = .ok ambiguous ∧
    ∃ t, ParseTable.ofGrammar ambiguous.toGrammar = .ok t ∧
      t.conflicts.toList = [⟨1, 0, .accept, .reduce 2⟩, ⟨1, 2, .shift 2, .reduce 2⟩, ⟨3, 2, .shift 2, .reduce 1⟩,
        ⟨3, 0, .reduce 1, .reduce 2⟩, ⟨3, 2, .shift 2, .reduce 2⟩] ∧
      t.conflicts.toList.Pairwise ParseTable.Conflict.Before ∧
      ∀ items, t.automaton.state? 3 = some items →
        Entry ambiguous.toGrammar t.automaton items 0 (some (.reduce 1)) := by
  have hbuild : (Builder.ofCalls ambiguousCalls).build = .ok ambiguous := by cbv
  have hrun : (ParseTable.ofGrammar ambiguous.toGrammar).toOption.map
      (fun t => (t.conflicts.toList, t.action? 3 0)) =
      some ([⟨1, 0, .accept, .reduce 2⟩, ⟨1, 2, .shift 2, .reduce 2⟩, ⟨3, 2, .shift 2, .reduce 1⟩,
        ⟨3, 0, .reduce 1, .reduce 2⟩, ⟨3, 2, .shift 2, .reduce 2⟩], some (.reduce 1)) := by cbv
  obtain ⟨t, htable, hentries, _, _, hordered, _⟩ := entries_and_conflicts hbuild
  rw [htable] at hrun
  obtain ⟨hconflicts, haction⟩ := Prod.mk.inj (Option.some.inj hrun)
  exact ⟨hbuild, t, htable, hconflicts, hordered, fun items hq => (hentries 3 items hq 0 _).mp haction⟩

end ShiftReduce
