import ShiftReduce.Proofs.ActionTable

/-! What stands in the parse table of a grammar. The first of the demands for an entry is the one that
is met, so every entry has been demanded, and if nothing competes every demand is met. The demands of
a state are its transitions, a reduction by each completed rule on what follows the left-hand side,
and acceptance at the end of the input where the start rule is completed. -/

namespace ShiftReduce

namespace ParseTable

/-! ### Meeting demands -/

theorem actions_meet (t : ParseTable) (d : Demand) : (t.meet d).actions = t.actions.perform d := by
  cases hget : t.actions.get? d.state d.symbol with
  | none => rw [meet, ActionTable.set_of_get?_eq_none hget, ActionTable.perform]
  | some e =>
      rw [meet, ActionTable.set_of_get?_eq_some hget, ActionTable.perform, ActionTable.put_of_get?_eq_some hget]
      by_cases he : e = d.action
      · rw [if_pos he]
      · rw [if_neg he]

theorem actions_foldl_meet (l : List Demand) (t : ParseTable) :
    (l.foldl meet t).actions = l.foldl ActionTable.perform t.actions := by
  induction l generalizing t with
  | nil => rfl
  | cons d l ih => rw [List.foldl_cons, ih, actions_meet, List.foldl_cons]

/-- The actions of a table are what is left by the demands, met or not. -/
theorem actions_fill (a : Automaton) (l : List Demand) : (fill a l).actions = .ofDemands a.size l :=
  actions_foldl_meet l _

theorem action?_meet (t : ParseTable) (d : Demand) (s : StateId) (x : Symbol) :
    (t.meet d).action? s x = (t.action? s x).or (Demand.at? d s x) := by
  rw [action?, actions_meet]
  exact ActionTable.get?_put _ _ _ _ s x

/-- An entry holds what the first demand for it asks for. -/
theorem action?_foldl_meet (l : List Demand) (t : ParseTable) (s : StateId) (x : Symbol) :
    (l.foldl meet t).action? s x = (t.action? s x).or (l.findSome? (Demand.at? · s x)) := by
  rw [action?, actions_foldl_meet, ActionTable.get?_foldl_perform, action?]

theorem action?_fill (a : Automaton) (l : List Demand) (s : StateId) (x : Symbol) :
    (fill a l).action? s x = l.findSome? (Demand.at? · s x) := by
  rw [action?, actions_fill, ActionTable.get?_ofDemands]

theorem mem_of_action?_fill {a : Automaton} {l : List Demand} {s : StateId} {x : Symbol} {act : Action}
    (h : (fill a l).action? s x = some act) : ⟨s, x, act⟩ ∈ l := by
  rw [action?_fill] at h
  obtain ⟨d, hd, hat⟩ := List.exists_of_findSome?_eq_some h
  rwa [Demand.at?_eq_some_iff.mp hat] at hd

theorem automaton_foldl_meet (l : List Demand) (t : ParseTable) : (l.foldl meet t).automaton = t.automaton := by
  induction l generalizing t with
  | nil => rfl
  | cons d l ih =>
      rw [List.foldl_cons, ih]
      unfold meet
      split <;> rfl

theorem met_of_conflicts_meet {t : ParseTable} {d : Demand} (h : (t.meet d).conflicts = #[]) :
    t.conflicts = #[] ∧ (t.meet d).action? d.state d.symbol = some d.action := by
  rw [action?_meet, Demand.at?, if_pos ⟨rfl, rfl⟩, action?]
  cases hget : t.actions.get? d.state d.symbol with
  | none =>
      rw [meet, ActionTable.set_of_get?_eq_none hget] at h
      exact ⟨h, rfl⟩
  | some e =>
      rw [meet, ActionTable.set_of_get?_eq_some hget] at h
      by_cases he : e = d.action
      · rw [if_pos he] at h
        exact ⟨h, congrArg some he⟩
      · rw [if_neg he] at h
        simp at h

theorem met_of_conflicts_foldl_meet {l : List Demand} {t : ParseTable} (h : (l.foldl meet t).conflicts = #[]) :
    t.conflicts = #[] ∧ ∀ d ∈ l, (l.foldl meet t).action? d.state d.symbol = some d.action := by
  induction l generalizing t with
  | nil => exact ⟨h, fun _ hd => absurd hd List.not_mem_nil⟩
  | cons d l ih =>
      obtain ⟨hmeet, hrest⟩ := ih h
      obtain ⟨ht, hd⟩ := met_of_conflicts_meet hmeet
      refine ⟨ht, ?_⟩
      intro d' hd'
      rcases List.mem_cons.mp hd' with rfl | hd'
      · rw [List.foldl_cons, action?_foldl_meet, hd]
        rfl
      · exact hrest d' hd'

end ParseTable

/-! ### What the states of an automaton demand -/

/-- A state of an automaton demands an action on a symbol. -/
inductive Automaton.Demands (g : Grammar) (a : Automaton) (p : StateId) : Symbol → Action → Prop
  | shift {s q} : g.isTerminal s → a.Leads g p s q → Demands g a p s (.shift q)
  | goto {s q} : ¬ g.isTerminal s → a.Leads g p s q → Demands g a p s (.goto q)
  | reduce {items r rule follow s} : a.states[p]? = some items → g.rule? r = some rule →
      (⟨r, rule.rhs.length⟩ : Item) ∈ items → rule.lhs ≠ g.startSymbol →
      g.follow? rule.lhs = some follow → s ∈ follow → Demands g a p s (.reduce r)
  | accept {items} : a.states[p]? = some items → (⟨g.startRule, 1⟩ : Item) ∈ items →
      Demands g a p g.endSymbol .accept

variable {g : Grammar} {u : Symbol} {a : Automaton}

namespace Automaton.Demands

variable {p : StateId} {s : Symbol}

theorem of_shift {q : StateId} (h : a.Demands g p s (.shift q)) : g.isTerminal s ∧ a.Leads g p s q := by
  cases h with
  | shift hterminal hlead => exact ⟨hterminal, hlead⟩

theorem of_goto {q : StateId} (h : a.Demands g p s (.goto q)) : ¬ g.isTerminal s ∧ a.Leads g p s q := by
  cases h with
  | goto hnonterminal hlead => exact ⟨hnonterminal, hlead⟩

theorem of_reduce {r : RuleId} (h : a.Demands g p s (.reduce r)) : ∃ items rule follow, a.states[p]? = some items ∧
    g.rule? r = some rule ∧ (⟨r, rule.rhs.length⟩ : Item) ∈ items ∧ rule.lhs ≠ g.startSymbol ∧
    g.follow? rule.lhs = some follow ∧ s ∈ follow := by
  cases h with
  | reduce hp hrule hi hlhs hfollow hs => exact ⟨_, _, _, hp, hrule, hi, hlhs, hfollow, hs⟩

theorem of_accept (h : a.Demands g p s .accept) : s = g.endSymbol ∧ ∃ items, a.states[p]? = some items ∧
    (⟨g.startRule, 1⟩ : Item) ∈ items := by
  cases h with
  | accept hp hi => exact ⟨rfl, _, hp, hi⟩

end Automaton.Demands

namespace ParseTable

theorem transitionDemand?_eq_some_iff (h : Automaton.ofGrammar g = .ok a) {p : StateId} {items : ItemSet}
    (hp : a.states[p]? = some items) {s : Symbol} (hs : s ∈ g.symbols) {action : StateId → Action}
    {d : Except TableError Demand} :
    transitionDemand? g a p (moves g items) action s = some d ↔
      ∃ q, a.Leads g p s q ∧ d = .ok ⟨p, s, action q⟩ := by
  unfold transitionDemand?
  cases hkernel : kernelOver? (moves g items) s with
  | none =>
      simp only [reduceCtorEq, false_iff]
      rintro ⟨q, ⟨items', k, hitems', hk, _⟩, _⟩
      obtain rfl := Option.some.inj (hp.symm.trans hitems')
      cases hkernel.symm.trans hk
  | some k =>
      obtain ⟨k₀, hk₀, hclosure₀⟩ := Automaton.kernel_of_state h hp
      obtain ⟨items₀, hclosure, _, hnexts⟩ := Automaton.state_of_kernel h hk₀
      obtain rfl := Except.ok.inj (hclosure₀.symm.trans hclosure)
      obtain ⟨q, hq⟩ := Array.mem_iff_getElem?.mp (hnexts s hs k hkernel)
      have hlead : a.Leads g p s q := ⟨items, k, hp, hkernel, hq⟩
      simp only [Numbering.number?_eq_some_iff.mpr hq, Option.some.injEq]
      constructor
      · rintro rfl
        exact ⟨q, hlead, rfl⟩
      · rintro ⟨q', hlead', rfl⟩
        rw [hlead.unique hlead']

/-- What an item of a state demands is accepting, or a reduction on a symbol that can follow. -/
theorem mem_itemDemands_iff (hg : g.Proper u) {p : StateId} {i : Item} (hfault : i.fault? g = none)
    {d : Except TableError Demand} : d ∈ itemDemands g p i ↔
      (i = ⟨g.startRule, 1⟩ ∧ d = .ok ⟨p, g.endSymbol, .accept⟩) ∨
      ∃ rule follow s, g.rule? i.rule = some rule ∧ i.dot = rule.rhs.length ∧ rule.lhs ≠ g.startSymbol ∧
        g.follow? rule.lhs = some follow ∧ s ∈ follow ∧ d = .ok ⟨p, s, .reduce i.rule⟩ := by
  obtain ⟨rule, hrule, hdot⟩ := Item.fault?_eq_none_iff.mp hfault
  obtain ⟨follow, hfollow⟩ := hg.follow (hg.symbols_lt hrule rule.lhs List.mem_cons_self)
  have hstart : i = ⟨g.startRule, 1⟩ ↔ i.dot = rule.rhs.length ∧ rule.lhs = g.startSymbol := by
    constructor
    · rintro rfl
      obtain rfl := Option.some.inj (hrule.symm.trans hg.startRule)
      exact ⟨rfl, rfl⟩
    · rintro ⟨hend, hlhs⟩
      have hr := hg.start_unique hrule hlhs
      rw [hr] at hrule
      obtain rfl := Option.some.inj (hrule.symm.trans hg.startRule)
      obtain ⟨r, n⟩ := i
      obtain rfl : r = g.startRule := hr
      obtain rfl : n = 1 := hend
      rfl
  rw [itemDemands, Item.readRule_eq_ok_iff.mpr ⟨hrule, hdot⟩, hstart]
  simp only [hrule, Option.some.injEq]
  by_cases hend : i.dot = rule.rhs.length
  · rw [if_neg (not_not_intro hend)]
    by_cases hlhs : rule.lhs = g.startSymbol
    · rw [if_pos hlhs, List.mem_singleton]
      simp only [hend, hlhs, true_and]
      constructor
      · exact Or.inl
      · rintro (h | ⟨rule', _, _, rfl, _, hne, _⟩)
        · exact h
        · exact absurd hlhs hne
    · rw [if_neg hlhs]
      simp only [hfollow, List.mem_map]
      constructor
      · rintro ⟨s, hs, rfl⟩
        exact Or.inr ⟨rule, follow, s, rfl, hend, hlhs, hfollow, hs, rfl⟩
      · rintro (⟨⟨_, heq⟩, _⟩ | ⟨rule', follow', s, rfl, _, _, hfollow', hs, rfl⟩)
        · exact absurd heq hlhs
        · obtain rfl := Option.some.inj (hfollow.symm.trans hfollow')
          exact ⟨s, hs, rfl⟩
  · rw [if_pos hend]
    simp only [List.not_mem_nil, false_iff]
    rintro (⟨⟨heq, _⟩, _⟩ | ⟨rule', _, _, rfl, heq, _⟩)
    · exact hend heq
    · exact hend heq

theorem mem_demands_iff {d : Except TableError Demand} :
    d ∈ demands g a ↔ ∃ p items, a.states[p]? = some items ∧ d ∈ stateDemands g a p items := by
  simp only [demands, List.mem_flatMap, Prod.exists, List.mem_zipIdx_iff_getElem?, Array.getElem?_toList]
  exact exists_comm

/-- The demands of the states of a proper grammar, none of which fails. -/
theorem mem_demands_iff_demands (hg : g.Proper u) (h : Automaton.ofGrammar g = .ok a)
    {d : Except TableError Demand} :
    d ∈ demands g a ↔ ∃ p s act, a.Demands g p s act ∧ d = .ok ⟨p, s, act⟩ := by
  rw [mem_demands_iff]
  constructor
  · rintro ⟨p, items, hp, hd⟩
    simp only [stateDemands, List.mem_append, List.mem_filterMap, List.mem_flatMap] at hd
    rcases hd with (⟨s, hs, hd⟩ | ⟨s, hs, hd⟩) | ⟨i, hi, hd⟩
    · obtain ⟨hlt, hterminal⟩ := hg.mem_terminals.mp hs
      obtain ⟨q, hlead, rfl⟩ := (transitionDemand?_eq_some_iff h hp (hg.mem_symbols.mpr hlt)).mp hd
      exact ⟨p, s, _, .shift hterminal hlead, rfl⟩
    · obtain ⟨hlt, hterminal⟩ := hg.mem_nonterminals.mp hs
      obtain ⟨q, hlead, rfl⟩ := (transitionDemand?_eq_some_iff h hp (hg.mem_symbols.mpr hlt)).mp hd
      exact ⟨p, s, _, .goto hterminal hlead, rfl⟩
    · rcases (mem_itemDemands_iff hg (hg.fault?_of_mem_state h hp hi)).mp hd with ⟨rfl, rfl⟩ |
        ⟨rule, follow, s, hrule, hdot, hlhs, hfollow, hs, rfl⟩
      · exact ⟨p, _, _, .accept hp hi, rfl⟩
      · refine ⟨p, s, _, .reduce hp hrule ?_ hlhs hfollow hs, rfl⟩
        rw [← hdot]
        exact hi
  · rintro ⟨p, s, act, hdemand, rfl⟩
    cases hdemand with
    | shift hterminal hlead =>
        have hlt := hg.lt_of_leads hlead
        obtain ⟨items, hp⟩ := hlead.source
        refine ⟨p, items, hp, List.mem_append_left _ (List.mem_append_left _ (List.mem_filterMap.mpr
          ⟨s, hg.mem_terminals.mpr ⟨hlt, hterminal⟩, ?_⟩))⟩
        exact (transitionDemand?_eq_some_iff h hp (hg.mem_symbols.mpr hlt)).mpr ⟨_, hlead, rfl⟩
    | goto hterminal hlead =>
        have hlt := hg.lt_of_leads hlead
        obtain ⟨items, hp⟩ := hlead.source
        refine ⟨p, items, hp, List.mem_append_left _ (List.mem_append_right _ (List.mem_filterMap.mpr
          ⟨s, hg.mem_nonterminals.mpr ⟨hlt, hterminal⟩, ?_⟩))⟩
        exact (transitionDemand?_eq_some_iff h hp (hg.mem_symbols.mpr hlt)).mpr ⟨_, hlead, rfl⟩
    | reduce hp hrule hi hlhs hfollow hs =>
        refine ⟨p, _, hp, List.mem_append_right _ (List.mem_flatMap.mpr ⟨_, hi, ?_⟩)⟩
        exact (mem_itemDemands_iff hg (hg.fault?_of_mem_state h hp hi)).mpr
          (Or.inr ⟨_, _, _, hrule, rfl, hlhs, hfollow, hs, rfl⟩)
    | accept hp hi =>
        refine ⟨p, _, hp, List.mem_append_right _ (List.mem_flatMap.mpr ⟨_, hi, ?_⟩)⟩
        exact (mem_itemDemands_iff hg (hg.fault?_of_mem_state h hp hi)).mpr (Or.inl ⟨rfl, rfl⟩)

/-! ### The whole table -/

theorem firstFailure?_eq_none {ε α : Type} {l : List (Except ε α)} (h : ∀ r ∈ l, ∃ x, r = .ok x) :
    firstFailure? l = none := by
  induction l with
  | nil => rfl
  | cons r l ih =>
      obtain ⟨x, rfl⟩ := h r List.mem_cons_self
      exact ih fun r' hr' => h r' (List.mem_cons_of_mem _ hr')

theorem mem_resultsBeforeFailure_iff {ε α : Type} {l : List (Except ε α)} (h : ∀ r ∈ l, ∃ x, r = .ok x)
    {x : α} : x ∈ resultsBeforeFailure l ↔ Except.ok x ∈ l := by
  have hall : l.takeWhile (·.isOk) = l := by
    refine List.takeWhile_eq_self_iff.mpr ?_
    intro r hr
    obtain ⟨x, rfl⟩ := h r hr
    rfl
  rw [resultsBeforeFailure, hall, List.mem_filterMap]
  constructor
  · rintro ⟨r, hr, hx⟩
    obtain ⟨y, rfl⟩ := h r hr
    obtain rfl := Option.some.inj hx
    exact hr
  · intro hx
    exact ⟨_, hx, rfl⟩

/-- The table is about the automaton of the grammar, and each entry has been demanded. -/
structure Fits (t : ParseTable) (g : Grammar) : Prop where
  automaton : Automaton.ofGrammar g = .ok t.automaton
  demands : ∀ {p s act}, t.action? p s = some act → t.automaton.Demands g p s act

/-- Each goto leads to a state of the automaton. -/
theorem Fits.goto_lt {t : ParseTable} (ht : t.Fits g) (p : StateId) (s : Symbol) (q : StateId)
    (h : t.action? p s = some (.goto q)) : q < t.automaton.size := by
  obtain ⟨_, hlead⟩ := (ht.demands h).of_goto
  obtain ⟨items, hitems⟩ := hlead.state ht.automaton
  exact (Array.getElem?_eq_some_iff.mp hitems).1

/-- A proper grammar has a table. If there are no conflicts, each demand has been met. -/
theorem exists_table (hg : g.Proper u) : ∃ t, ofGrammar g = .ok t ∧ t.Fits g ∧
    (t.isConflictFree → ∀ {p s act}, t.automaton.Demands g p s act → t.action? p s = some act) := by
  obtain ⟨a, ha⟩ := hg.exists_automaton
  have hok : ∀ r ∈ demands g a, ∃ d, r = Except.ok d := by
    intro r hr
    obtain ⟨p, s, act, _, rfl⟩ := (mem_demands_iff_demands hg ha).mp hr
    exact ⟨_, rfl⟩
  have hmem : ∀ {p s act}, (⟨p, s, act⟩ : Demand) ∈ resultsBeforeFailure (demands g a) ↔
      a.Demands g p s act := by
    intro p s act
    rw [mem_resultsBeforeFailure_iff hok, mem_demands_iff_demands hg ha]
    constructor
    · rintro ⟨_, _, _, hdemand, heq⟩
      cases heq
      exact hdemand
    · exact fun hdemand => ⟨p, s, act, hdemand, rfl⟩
  have hautomaton : (fill a (resultsBeforeFailure (demands g a))).automaton = a := automaton_foldl_meet _ _
  refine ⟨fill a (resultsBeforeFailure (demands g a)), ?_, ⟨?_, ?_⟩, ?_⟩
  · rw [ofGrammar, ha]
    simp only [firstFailure?_eq_none hok]
  · rw [hautomaton, ha]
  · intro p s act h
    rw [hautomaton]
    exact hmem.mp (mem_of_action?_fill h)
  · intro hfree p s act hdemand
    rw [hautomaton] at hdemand
    have hconflicts : (fill a (resultsBeforeFailure (demands g a))).conflicts = #[] :=
      Array.isEmpty_iff.mp hfree
    exact (met_of_conflicts_foldl_meet hconflicts).2 _ (hmem.mpr hdemand)

end ParseTable

end ShiftReduce
