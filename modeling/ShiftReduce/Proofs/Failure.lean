import Mathlib.Data.List.Sort
import ShiftReduce.Proofs.StateSpace
import ShiftReduce.Proofs.Transitions

/-! Why there is no table. Nothing is asked of a grammar here but that it lists its symbols and finds its rules in
the default way. The items in the states are those of the reachable rules, with the dot in every place, and none of
them has a fault once there is a start rule. So what can go wrong is that a reachable rule mentions a symbol without
a label, which keeps an item from being expanded, or else that nothing is known to follow its left-hand side. A
transition never leads out of the automaton. -/

namespace ShiftReduce

variable {g : Grammar} {a : Automaton}

namespace Grammar

/-- Symbols are listed and rules are found in the default way. -/
structure Plain (g : Grammar) : Prop where
  symbols : g.symbols = List.range g.symbolCount
  terminals : g.terminals = (List.range g.symbolCount).filter g.isTerminal
  nonterminals : g.nonterminals = (List.range g.symbolCount).filter fun s => !g.isTerminal s
  rulesWithLhs : ∀ s, g.rulesWithLhs s = scanRules g.rules s

/-- The start rule, and the rules of the symbols on the right of reachable rules. -/
inductive ReachableRule (g : Grammar) : RuleId → Prop
  | start : ReachableRule g g.startRule
  | step {r r' rule rule'} : ReachableRule g r → g.rule? r = some rule → g.rule? r' = some rule' →
      rule'.lhs ∈ rule.rhs → ReachableRule g r'

/-- A symbol on the right of a reachable rule has no label. -/
def Unknown (g : Grammar) (x : Symbol) : Prop :=
  g.symbolCount ≤ x ∧ ∃ r rule, g.ReachableRule r ∧ g.rule? r = some rule ∧ x ∈ rule.rhs

/-- A symbol on the left of a reachable rule has no FOLLOW set, and completing its rules does not accept. -/
def Unfollowed (g : Grammar) (s : Symbol) : Prop :=
  s ≠ g.startSymbol ∧ g.follow? s = none ∧ ∃ r rule, g.ReachableRule r ∧ g.rule? r = some rule ∧ rule.lhs = s

end Grammar

theorem mem_scanRules {rules : Array Rule} {s : Symbol} {r : RuleId} :
    r ∈ scanRules rules s ↔ ∃ rule, rules[r]? = some rule ∧ rule.lhs = s := by
  rw [scanRules, List.mem_filter, List.mem_range, Option.any_eq_true]
  simp only [beq_iff_eq]
  constructor
  · exact And.right
  · rintro ⟨rule, hrule, hlhs⟩
    exact ⟨(Array.getElem?_eq_some_iff.mp hrule).1, rule, hrule, hlhs⟩

theorem pairwise_scanRules (rules : Array Rule) (s : Symbol) : (scanRules rules s).Pairwise (· < ·) :=
  List.pairwise_lt_range.filter _

namespace Grammar.Plain

theorem mem_symbols (hg : g.Plain) {s : Symbol} : s ∈ g.symbols ↔ s < g.symbolCount := by
  rw [hg.symbols, List.mem_range]

theorem mem_symbols_of_terminals (hg : g.Plain) {s : Symbol} (h : s ∈ g.terminals) : s ∈ g.symbols := by
  rw [hg.terminals] at h
  rw [hg.symbols]
  exact (List.mem_filter.mp h).1

theorem mem_symbols_of_nonterminals (hg : g.Plain) {s : Symbol} (h : s ∈ g.nonterminals) : s ∈ g.symbols := by
  rw [hg.nonterminals] at h
  rw [hg.symbols]
  exact (List.mem_filter.mp h).1

theorem mem_rulesWithLhs (hg : g.Plain) {s : Symbol} {r : RuleId} :
    r ∈ g.rulesWithLhs s ↔ ∃ rule, g.rule? r = some rule ∧ rule.lhs = s := by
  rw [hg.rulesWithLhs]
  exact mem_scanRules

end Grammar.Plain

/-! ### Items of reachable rules -/

namespace Item

/-- The rule of the item is reachable, and the item has no fault. -/
def Grounded (g : Grammar) (i : Item) : Prop := g.ReachableRule i.rule ∧ i.fault? g = none

variable {i j : Item}

theorem Grounded.unknown (hi : i.Grounded g) {x : Symbol} (hnext : i.next? g = some x) (hx : g.symbolCount ≤ x) :
    g.Unknown x := by
  obtain ⟨rule, hrule, hget⟩ := next?_eq_some_iff.mp hnext
  exact ⟨hx, i.rule, rule, hi.1, hrule, List.mem_of_getElem? hget⟩

theorem Grounded.of_brings (hg : g.Plain) (hi : i.Grounded g) (h : i.Brings g j) : j.Grounded g := by
  obtain ⟨s, hnext, _, hmem, hdot⟩ := h
  obtain ⟨rule, hrule, hget⟩ := next?_eq_some_iff.mp hnext
  obtain ⟨rule', hrule', rfl⟩ := hg.mem_rulesWithLhs.mp hmem
  exact ⟨.step hi.1 hrule hrule' (List.mem_of_getElem? hget),
    fault?_eq_none_iff.mpr ⟨rule', hrule', hdot ▸ Nat.zero_le _⟩⟩

theorem Grounded.of_reaches (hg : g.Plain) (hi : i.Grounded g) (h : Relation.ReflTransGen (Brings g) i j) :
    j.Grounded g := by
  induction h with
  | refl => exact hi
  | tail _ hbrings ih => exact ih.of_brings hg hbrings

theorem grounded_start {rule : Rule} (hstart : g.rule? g.startRule = some rule) :
    (⟨g.startRule, 0⟩ : Item).Grounded g :=
  ⟨.start, fault?_eq_none_iff.mpr ⟨rule, hstart, Nat.zero_le _⟩⟩

theorem visit_eq_error_iff {e : TableError} : i.visit g = .error e ↔ i.expand g = .error e := by
  unfold visit
  cases i.expand g <;> simp [Except.map]

/-- An item without a fault cannot be expanded only if it expects a symbol without a label. -/
theorem unknown_of_expand (hfault : i.fault? g = none) {e : TableError} (h : i.expand g = .error e) :
    ∃ x, i.next? g = some x ∧ g.symbolCount ≤ x ∧ e = .unknownSymbol x := by
  cases hnext : i.next? g with
  | none =>
      rw [expand, next_eq_ok hfault, hnext] at h
      cases h
  | some x =>
      by_cases hx : x < g.symbolCount
      · cases (expand_eq_ok_of_next? hnext hx).symm.trans h
      · have hle := Nat.not_lt.mp hx
        exact ⟨x, rfl, hle, Except.error.inj (h.symm.trans (expand_of_le hnext hle))⟩

end Item

/-- Items of reachable rules that have no faults can be closed unless a symbol is unknown. -/
theorem unknown_of_closure (hg : g.Plain) {seeds : List Item} (hseeds : ∀ i ∈ seeds, i.Grounded g) {e : TableError}
    (h : closure g seeds = .error e) : ∃ x, g.Unknown x ∧ e = .unknownSymbol x := by
  unfold closure at h
  rw [List.findSome?_eq_none_iff.mpr fun i hi => (hseeds i hi).2] at h
  dsimp only at h
  split at h
  · rename_i hfault
    obtain rfl := Except.error.inj h
    obtain ⟨i, ⟨seed, hseed, hreach⟩, hv⟩ := Search.exists_of_fault?_run hfault
    rw [Item.leads_visit] at hreach
    have hi := (hseeds seed hseed).of_reaches hg hreach
    obtain ⟨x, hnext, hx, he⟩ := Item.unknown_of_expand hi.2 (Item.visit_eq_error_iff.mp hv)
    exact ⟨x, hi.unknown hnext hx, he⟩
  · cases h

theorem grounded_of_mem_closure (hg : g.Plain) {seeds : List Item} {items : ItemSet}
    (hseeds : ∀ i ∈ seeds, i.Grounded g) (h : closure g seeds = .ok items) {i : Item} (hi : i ∈ items) :
    i.Grounded g := by
  obtain ⟨seed, hseed, hreach⟩ := (mem_closure_iff h).mp hi
  exact (hseeds seed hseed).of_reaches hg hreach

theorem grounded_of_mem_kernel? {items k : ItemSet} {s : Symbol} (hitems : ∀ i ∈ items, i.Grounded g)
    (h : kernel? g items s = some k) {i : Item} (hi : i ∈ k) : i.Grounded g := by
  refine ⟨?_, fault?_of_mem_kernel? h hi⟩
  obtain ⟨j, hj, _, rfl⟩ := (mem_of_kernel?_eq_some h).mp hi
  exact (hitems j hj).1

namespace Automaton

/-! ### The search for the states -/

theorem visit_eq_error_iff {k : ItemSet} {e : TableError} : visit g k = .error e ↔ closure g k.toList = .error e := by
  unfold visit
  cases closure g k.toList <;> simp [Except.map]

theorem ofGrammar_eq_error_iff {e : TableError} : ofGrammar g = .error e ↔ (discover g).fault? = some e := by
  unfold ofGrammar
  dsimp only
  cases (discover g).fault? <;> simp

theorem grounded_of_reached (hg : g.Plain) (hstart : (⟨g.startRule, 0⟩ : Item).Grounded g) {k : ItemSet}
    (hreach : Relation.ReflTransGen (Search.Leads (visit g)) (startKernel g) k) : ∀ i ∈ k, i.Grounded g := by
  induction hreach with
  | refl =>
      intro i hi
      rw [mem_startKernel.mp hi]
      exact hstart
  | tail _ hlead ih =>
      obtain ⟨items, l, hv, hmem⟩ := Search.leads_iff.mp hlead
      obtain ⟨hclosure, rfl⟩ := visit_eq_ok_iff.mp hv
      obtain ⟨s, _, hkernel⟩ := mem_nextKernels.mp hmem
      have hitems : ∀ j ∈ items, j.Grounded g := fun j hj => grounded_of_mem_closure hg ih hclosure hj
      exact fun i hi => grounded_of_mem_kernel? hitems hkernel hi

/-- Without a start rule there is nothing to begin with. -/
theorem ofGrammar_of_no_start (h : g.rule? g.startRule = none) :
    ofGrammar g = .error (.unknownRule g.startRule) := by
  have hclosure : closure g (startKernel g).toList = .error (.unknownRule g.startRule) := by
    apply closure_of_fault?
    rw [toList_startKernel, List.findSome?_singleton, Item.fault?, h]
  cases hrun : ofGrammar g with
  | ok a =>
      obtain ⟨items, hclosure', _⟩ := state_of_kernel hrun (kernel_zero hrun)
      cases hclosure.symm.trans hclosure'
  | error e =>
      -- The kernel that failed is the first, as the first leads nowhere.
      obtain ⟨k, ⟨_, hseed, hreach⟩, hv⟩ := Search.exists_of_fault?_run (ofGrammar_eq_error_iff.mp hrun)
      obtain rfl := List.mem_singleton.mp hseed
      rcases Relation.ReflTransGen.cases_head hreach with rfl | ⟨k', hlead, _⟩
      · rw [Except.error.inj ((visit_eq_error_iff.mp hv).symm.trans hclosure)]
      · obtain ⟨items, l, hv', _⟩ := Search.leads_iff.mp hlead
        cases hclosure.symm.trans (visit_eq_ok_iff.mp hv').1

/-- With a start rule, only a symbol that is unknown keeps the states from being found. -/
theorem unknown_of_ofGrammar (hg : g.Plain) {rule : Rule} (hstart : g.rule? g.startRule = some rule) {e : TableError}
    (h : ofGrammar g = .error e) : ∃ x, g.Unknown x ∧ e = .unknownSymbol x := by
  obtain ⟨k, ⟨_, hseed, hreach⟩, hv⟩ := Search.exists_of_fault?_run (ofGrammar_eq_error_iff.mp h)
  obtain rfl := List.mem_singleton.mp hseed
  have hk := grounded_of_reached hg (Item.grounded_start hstart) hreach
  exact unknown_of_closure hg hk (visit_eq_error_iff.mp hv)

/-! ### The items in the states -/

theorem grounded_of_mem_state (hg : g.Plain) (h : ofGrammar g = .ok a) {q : StateId} {items : ItemSet}
    (hq : a.states[q]? = some items) {i : Item} (hi : i ∈ items) : i.Grounded g := by
  obtain ⟨items₀, hzero, hmem, _⟩ := mem_state_zero h
  have hstart : (⟨g.startRule, 0⟩ : Item).Grounded g := ⟨.start, fault?_of_mem_state h hzero hmem⟩
  obtain ⟨k, hk, hclosure⟩ := kernel_of_state h hq
  obtain ⟨_, rfl⟩ := ofGrammar_eq_ok_iff.mp h
  obtain ⟨_, hseed, hreach⟩ := Search.reached_of_mem_run (Array.mem_of_getElem? hk)
  obtain rfl := List.mem_singleton.mp hseed
  exact grounded_of_mem_closure hg (grounded_of_reached hg hstart hreach) hclosure hi

theorem exists_state_of_begun (hg : g.Plain) (h : ofGrammar g = .ok a) {q : StateId} {items : ItemSet}
    (hq : a.states[q]? = some items) {r : RuleId} {rule : Rule} (hrule : g.rule? r = some rule)
    (hmem : (⟨r, 0⟩ : Item) ∈ items) (n : Nat) (hn : n ≤ rule.rhs.length) :
    ∃ (p : StateId) (items' : ItemSet), a.states[p]? = some items' ∧ (⟨r, n⟩ : Item) ∈ items' := by
  induction n with
  | zero => exact ⟨q, items, hq, hmem⟩
  | succ n ih =>
      obtain ⟨p, items', hp, hitem⟩ := ih (Nat.le_of_succ_le hn)
      have hnext : (⟨r, n⟩ : Item).next? g = some rule.rhs[n] :=
        Item.next?_eq_some_iff.mpr ⟨rule, hrule, List.getElem?_eq_getElem hn⟩
      have hsymbol := hg.mem_symbols.mpr (next?_lt_of_mem_state h hp hitem hnext)
      obtain ⟨p', items'', _, hp', hadvance⟩ := exists_leads h hp hitem hnext hsymbol
      exact ⟨p', items'', hp', hadvance⟩

/-- The items of reachable rules all are in some state. -/
theorem exists_state_of_reachableRule (hg : g.Plain) (h : ofGrammar g = .ok a) {r : RuleId} (hr : g.ReachableRule r)
    {rule : Rule} (hrule : g.rule? r = some rule) {n : Nat} (hn : n ≤ rule.rhs.length) :
    ∃ (q : StateId) (items : ItemSet), a.states[q]? = some items ∧ (⟨r, n⟩ : Item) ∈ items := by
  induction hr generalizing rule n with
  | start =>
      obtain ⟨items, hzero, hmem, _⟩ := mem_state_zero h
      exact exists_state_of_begun hg h hzero hrule hmem n hn
  | @step r r' before after _ hbefore hafter hlhs ih =>
      obtain rfl := Option.some.inj (hafter.symm.trans hrule)
      -- In some state the dot of the rule before stands right before the left-hand side.
      obtain ⟨m, hm⟩ := List.mem_iff_getElem?.mp hlhs
      obtain ⟨q, items, hq, hmem⟩ := ih hbefore (Nat.le_of_lt (List.getElem?_eq_some_iff.mp hm).1)
      have hnext : (⟨r, m⟩ : Item).next? g = some after.lhs := Item.next?_eq_some_iff.mpr ⟨before, hbefore, hm⟩
      have hlt := next?_lt_of_mem_state h hq hmem hnext
      have hbrings : Item.Brings g ⟨r, m⟩ ⟨r', 0⟩ :=
        ⟨after.lhs, hnext, hlt, hg.mem_rulesWithLhs.mpr ⟨after, hafter, rfl⟩, rfl⟩
      exact exists_state_of_begun hg h hq hrule (mem_state_of_brings h hq hmem hbrings) n hn

theorem not_unknown (hg : g.Plain) (h : ofGrammar g = .ok a) (x : Symbol) : ¬ g.Unknown x := by
  rintro ⟨hx, r, rule, hr, hrule, hmem⟩
  obtain ⟨n, hn⟩ := List.mem_iff_getElem?.mp hmem
  have hle := Nat.le_of_lt (List.getElem?_eq_some_iff.mp hn).1
  obtain ⟨q, items, hq, hitem⟩ := exists_state_of_reachableRule hg h hr hrule hle
  have hlt := next?_lt_of_mem_state h hq hitem (Item.next?_eq_some_iff.mpr ⟨rule, hrule, hn⟩)
  exact absurd hlt (Nat.not_lt.mpr hx)

end Automaton

namespace ParseTable

/-! ### Demands that fail -/

theorem error_mem_itemDemands_iff {q : StateId} {i : Item} (hfault : i.fault? g = none) {e : TableError} :
    .error e ∈ itemDemands g q i ↔ ∃ rule, g.rule? i.rule = some rule ∧ i.dot = rule.rhs.length ∧
      rule.lhs ≠ g.startSymbol ∧ g.follow? rule.lhs = none ∧ e = .unknownSymbol rule.lhs := by
  obtain ⟨rule, hrule, hdot⟩ := Item.fault?_eq_none_iff.mp hfault
  simp only [hrule, Option.some.injEq, exists_eq_left']
  rw [itemDemands, Item.readRule_eq_ok_iff.mpr ⟨hrule, hdot⟩]
  dsimp only
  by_cases hend : i.dot = rule.rhs.length
  · rw [if_neg (not_not_intro hend)]
    by_cases hlhs : rule.lhs = g.startSymbol
    · simp [hlhs]
    · rw [if_neg hlhs]
      cases g.follow? rule.lhs <;> simp [hend, hlhs]
  · simp [hend]

theorem error_mem_demands_iff (hg : g.Plain) (h : Automaton.ofGrammar g = .ok a) {e : TableError} :
    .error e ∈ demands g a ↔ ∃ s, g.Unfollowed s ∧ e = .unknownSymbol s := by
  rw [mem_demands_iff]
  constructor
  · rintro ⟨q, items, hq, hmem⟩
    simp only [stateDemands, List.mem_append, List.mem_filterMap, List.mem_flatMap] at hmem
    rcases hmem with (⟨s, hs, hmem⟩ | ⟨s, hs, hmem⟩) | ⟨i, hi, hmem⟩
    · obtain ⟨_, _, heq⟩ := (transitionDemand?_eq_some_iff h hq (hg.mem_symbols_of_terminals hs)).mp hmem
      cases heq
    · obtain ⟨_, _, heq⟩ := (transitionDemand?_eq_some_iff h hq (hg.mem_symbols_of_nonterminals hs)).mp hmem
      cases heq
    · obtain ⟨hreachable, hfault⟩ := Automaton.grounded_of_mem_state hg h hq hi
      obtain ⟨rule, hrule, _, hlhs, hfollow, he⟩ := (error_mem_itemDemands_iff hfault).mp hmem
      exact ⟨rule.lhs, ⟨hlhs, hfollow, i.rule, rule, hreachable, hrule, rfl⟩, he⟩
  · rintro ⟨_, ⟨hlhs, hfollow, r, rule, hr, hrule, rfl⟩, rfl⟩
    obtain ⟨q, items, hq, hmem⟩ := Automaton.exists_state_of_reachableRule hg h hr hrule (Nat.le_refl _)
    have hfault := Automaton.fault?_of_mem_state h hq hmem
    refine ⟨q, items, hq, List.mem_append_right _ (List.mem_flatMap.mpr ⟨_, hmem, ?_⟩)⟩
    exact (error_mem_itemDemands_iff hfault).mpr ⟨rule, hrule, rfl, hlhs, hfollow, rfl⟩

theorem mem_of_firstFailure? {ε α : Type} {l : List (Except ε α)} {e : ε} (h : firstFailure? l = some e) :
    .error e ∈ l := by
  induction l with
  | nil => cases h
  | cons r l ih =>
      cases r with
      | error e' => exact List.mem_cons.mpr (Or.inl (congrArg Except.error (Option.some.inj h).symm))
      | ok x => exact List.mem_cons_of_mem _ (ih h)

theorem exists_firstFailure? {ε α : Type} {l : List (Except ε α)} {e : ε} (h : .error e ∈ l) :
    ∃ e', firstFailure? l = some e' := by
  induction l with
  | nil => cases h
  | cons r l ih =>
      cases r with
      | error e' => exact ⟨e', rfl⟩
      | ok x =>
          rcases List.mem_cons.mp h with heq | hmem
          · cases heq
          · exact ih hmem

theorem ofGrammar_eq_error_iff {e : TableError} : ofGrammar g = .error e ↔ Automaton.ofGrammar g = .error e ∨
    ∃ a, Automaton.ofGrammar g = .ok a ∧ firstFailure? (demands g a) = some e := by
  unfold ofGrammar
  cases Automaton.ofGrammar g with
  | error e' => simp
  | ok a =>
      dsimp only
      cases hfirst : firstFailure? (demands g a) <;> simp [hfirst]

theorem cases_of_error (hg : g.Plain) {e : TableError} (h : ofGrammar g = .error e) :
    g.rule? g.startRule = none ∧ e = .unknownRule g.startRule ∨ (∃ x, g.Unknown x ∧ e = .unknownSymbol x) ∨
      (∀ x, ¬ g.Unknown x) ∧ ∃ s, g.Unfollowed s ∧ e = .unknownSymbol s := by
  rcases ofGrammar_eq_error_iff.mp h with hautomaton | ⟨a, hautomaton, hfirst⟩
  · cases hstart : g.rule? g.startRule with
    | none =>
        have heq := hautomaton.symm.trans (Automaton.ofGrammar_of_no_start hstart)
        exact Or.inl ⟨rfl, Except.error.inj heq⟩
    | some rule => exact Or.inr (Or.inl (Automaton.unknown_of_ofGrammar hg hstart hautomaton))
  · have hunfollowed := (error_mem_demands_iff hg hautomaton).mp (mem_of_firstFailure? hfirst)
    exact Or.inr (Or.inr ⟨Automaton.not_unknown hg hautomaton, hunfollowed⟩)

theorem not_unknown (hg : g.Plain) {t : ParseTable} (h : ofGrammar g = .ok t) (x : Symbol) : ¬ g.Unknown x :=
  Automaton.not_unknown hg (eq_fill_of_ofGrammar h).1 x

theorem not_unfollowed (hg : g.Plain) {t : ParseTable} (h : ofGrammar g = .ok t) (s : Symbol) : ¬ g.Unfollowed s := by
  intro hs
  have hautomaton := (eq_fill_of_ofGrammar h).1
  obtain ⟨e, he⟩ := exists_firstFailure? ((error_mem_demands_iff hg hautomaton).mpr ⟨s, hs, rfl⟩)
  cases h.symm.trans (ofGrammar_eq_error_iff.mpr (Or.inr ⟨t.automaton, hautomaton, he⟩))

/-- With a start rule, the faults of the grammar settle the outcome. -/
theorem cases_of_start (hg : g.Plain) (hstart : g.rule? g.startRule ≠ none) :
    (∃ x, g.Unknown x ∧ ofGrammar g = .error (.unknownSymbol x)) ∨ (∀ x, ¬ g.Unknown x) ∧
      ((∃ s, g.Unfollowed s ∧ ofGrammar g = .error (.unknownSymbol s)) ∨
        (∀ s, ¬ g.Unfollowed s) ∧ ∃ t, ofGrammar g = .ok t) := by
  cases h : ofGrammar g with
  | ok t => exact Or.inr ⟨not_unknown hg h, Or.inr ⟨not_unfollowed hg h, t, rfl⟩⟩
  | error e =>
      rcases cases_of_error hg h with ⟨hnone, _⟩ | ⟨x, hx, rfl⟩ | ⟨hknown, s, hs, rfl⟩
      · exact absurd hnone hstart
      · exact Or.inl ⟨x, hx, rfl⟩
      · exact Or.inr ⟨hknown, Or.inl ⟨s, hs, rfl⟩⟩

end ParseTable

/-! ### Grammars that have been put together -/

theorem Grouping.pairwise_get_ofPairs {β : Type} {R : β → β → Prop} {bound : Nat} {pairs : List (Nat × β)}
    (h : pairs.Pairwise fun x y => R x.2 y.2) (n : Nat) : ((ofPairs bound pairs).get n).Pairwise R := by
  by_cases hn : n < bound
  · rw [get_ofPairs hn]
    refine h.filterMap _ ?_
    intro x y hxy b hb c hc
    obtain ⟨_, hb⟩ := Option.ite_none_right_eq_some.mp hb
    obtain ⟨_, hc⟩ := Option.ite_none_right_eq_some.mp hc
    obtain rfl := Option.some.inj hb
    obtain rfl := Option.some.inj hc
    exact hxy
  · rw [get_ofPairs_of_le (Nat.not_lt.mp hn)]
    exact List.Pairwise.nil

theorem AugmentedGrammar.pairwise_rulesWithLhs_ofRules (labels : Array String) (userRules : Array Rule) (u s : Symbol) :
    ((ofRules labels userRules u).rulesWithLhs s).Pairwise (· < ·) := by
  change ((Grouping.ofPairs _ _).get s).Pairwise _
  apply Grouping.pairwise_get_ofPairs
  exact List.pairwise_map.mpr (pairwise_zipIdx _)

theorem Builder.plain_of_build {calls : List Builder.Call} {g : AugmentedGrammar}
    (h : (Builder.ofCalls calls).build = .ok g) : g.toGrammar.Plain := by
  have hg := Builder.proper_of_build h
  refine ⟨hg.symbols, hg.terminals, hg.nonterminals, ?_⟩
  intro s
  have hindex : (g.rulesWithLhs s).Pairwise (· < ·) := by
    rw [Builder.eq_ofRules_of_build h]
    exact AugmentedGrammar.pairwise_rulesWithLhs_ofRules _ _ _ s
  refine hindex.eq_of_mem_iff (pairwise_scanRules g.rules s) ?_
  intro r
  rw [hg.mem_rulesWithLhs, mem_scanRules]
  rfl

/-- Whether a grammar has a table, and if not, why. Without a start rule that is what is wrong. With one, it is a
symbol that is unknown, if there is any, or else a symbol that has no FOLLOW set. If there is none of them either,
there is a table, as there always is for a grammar that has been put together. -/
theorem table_or_fault :
    (∀ g : Grammar, g.Plain →
      (g.rule? g.startRule = none → ParseTable.ofGrammar g = .error (.unknownRule g.startRule)) ∧
      (g.rule? g.startRule ≠ none → (∃ x, g.Unknown x) →
        ∃ x, g.Unknown x ∧ ParseTable.ofGrammar g = .error (.unknownSymbol x)) ∧
      (g.rule? g.startRule ≠ none → (∀ x, ¬ g.Unknown x) → (∃ s, g.Unfollowed s) →
        ∃ s, g.Unfollowed s ∧ ParseTable.ofGrammar g = .error (.unknownSymbol s)) ∧
      (g.rule? g.startRule ≠ none → (∀ x, ¬ g.Unknown x) → (∀ s, ¬ g.Unfollowed s) →
        ∃ t, ParseTable.ofGrammar g = .ok t) ∧
      (∀ q s, ParseTable.ofGrammar g ≠ .error (.missingState q s)) ∧
      ∀ i, ParseTable.ofGrammar g ≠ .error (.dotOutOfBounds i)) ∧
    ∀ (calls : List Builder.Call) (g : AugmentedGrammar), (Builder.ofCalls calls).build = .ok g →
      g.toGrammar.Plain ∧ ∃ t, ParseTable.ofGrammar g.toGrammar = .ok t := by
  constructor
  · intro g hg
    refine ⟨?_, ?_, ?_, ?_, ?_, ?_⟩
    · intro hstart
      exact ParseTable.ofGrammar_eq_error_iff.mpr (Or.inl (Automaton.ofGrammar_of_no_start hstart))
    · intro hstart ⟨x, hx⟩
      rcases ParseTable.cases_of_start hg hstart with h | ⟨hknown, _⟩
      · exact h
      · exact absurd hx (hknown x)
    · intro hstart hknown ⟨s, hs⟩
      rcases ParseTable.cases_of_start hg hstart with ⟨x, hx, _⟩ | ⟨_, h | ⟨hfollowed, _⟩⟩
      · exact absurd hx (hknown x)
      · exact h
      · exact absurd hs (hfollowed s)
    · intro hstart hknown hfollowed
      rcases ParseTable.cases_of_start hg hstart with ⟨x, hx, _⟩ | ⟨_, ⟨s, hs, _⟩ | ⟨_, h⟩⟩
      · exact absurd hx (hknown x)
      · exact absurd hs (hfollowed s)
      · exact h
    · intro q s h
      rcases ParseTable.cases_of_error hg h with ⟨_, he⟩ | ⟨_, _, he⟩ | ⟨_, _, _, he⟩ <;> cases he
    · intro i h
      rcases ParseTable.cases_of_error hg h with ⟨_, he⟩ | ⟨_, _, he⟩ | ⟨_, _, _, he⟩ <;> cases he
  · intro calls g hbuild
    obtain ⟨t, htable, _⟩ := ParseTable.exists_table (Builder.proper_of_build hbuild)
    exact ⟨Builder.plain_of_build hbuild, t, htable⟩

/-- A grammar with a symbol that has no label and another one that has no FOLLOW set. -/
def torn : Grammar where
  labels := #["$end", "s", "x"]
  rules := #[⟨1, [2, 9]⟩, ⟨2, []⟩]
  startRule := 0
  startSymbol := 1
  endSymbol := 0
  isTerminal := (· == 0)
  follow? := fun _ => none

theorem table_or_fault_torn : torn.Plain ∧ torn.rule? torn.startRule ≠ none ∧ torn.Unfollowed 2 ∧ torn.Unknown 9 ∧
    ParseTable.ofGrammar torn = .error (.unknownSymbol 9) := by
  have hplain : torn.Plain := ⟨rfl, rfl, rfl, fun _ => rfl⟩
  have hstart : torn.rule? torn.startRule ≠ none := by decide
  have hreachable : torn.ReachableRule 1 :=
    @Grammar.ReachableRule.step torn 0 1 ⟨1, [2, 9]⟩ ⟨2, []⟩ .start rfl rfl List.mem_cons_self
  have hunfollowed : torn.Unfollowed 2 := ⟨by decide, rfl, 1, ⟨2, []⟩, hreachable, rfl, rfl⟩
  have hunknown : torn.Unknown 9 := ⟨by decide, 0, ⟨1, [2, 9]⟩, .start, rfl, by decide⟩
  obtain ⟨x, ⟨hx, r, rule, _, hrule, hmem⟩, herror⟩ := (table_or_fault.1 torn hplain).2.1 hstart ⟨9, hunknown⟩
  have hnine : x = 9 := by
    have hcases : rule = ⟨1, [2, 9]⟩ ∨ rule = ⟨2, []⟩ := by simpa [torn] using Array.mem_of_getElem? hrule
    rcases hcases with rfl | rfl
    · rcases List.mem_cons.mp hmem with rfl | hmem
      · exact absurd hx (by decide)
      · exact List.mem_singleton.mp hmem
    · cases hmem
  rw [hnine] at herror
  exact ⟨hplain, hstart, hunfollowed, hunknown, herror⟩

end ShiftReduce
