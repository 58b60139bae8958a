import Mathlib.Data.Prod.Basic
import ShiftReduce.Proofs.Sets
import ShiftReduce.Proofs.StateSpace
import ShiftReduce.Proofs.Transitions

/-! What stands in each entry of a table. The demands of the items of a state come in ascending order of their
rules, where accepting counts as rule `0`, and for one rule in ascending order of the symbols. As no transition
ever meets with anything else over the same symbol before it, an entry holds the transition if there is one, else
acceptance, else the reduction by the least rule. -/

namespace ShiftReduce

variable {g : Grammar} {u : Symbol} {t : ParseTable} {a : Automaton} {q : StateId} {items : ItemSet} {x : Symbol}

/-! ### What the items of a state allow -/

/-- The symbol stands right after the dot of an item. -/
def Expects (g : Grammar) (items : ItemSet) (x : Symbol) : Prop := ∃ i ∈ items, i.next? g = some x

/-- The rule is there with its dot at the end. -/
def Completes (g : Grammar) (items : ItemSet) (r : RuleId) : Prop :=
  ∃ rule, g.rule? r = some rule ∧ (⟨r, rule.rhs.length⟩ : Item) ∈ items

/-- The rule is not the start rule, it is there with its dot at the end, and the symbol can follow its left-hand
side. -/
def MayReduce (g : Grammar) (items : ItemSet) (x : Symbol) (r : RuleId) : Prop :=
  r ≠ 0 ∧ ∃ rule, g.rule? r = some rule ∧ (⟨r, rule.rhs.length⟩ : Item) ∈ items ∧ g.Follows rule.lhs x

/-- What stands in the entry of a state for a symbol. -/
inductive Entry (g : Grammar) (a : Automaton) (items : ItemSet) (x : Symbol) : Option Action → Prop
  | shift {next target} : Expects g items x → g.isTerminal x → successor g items x = .ok next →
      a.stateId? next = some target → Entry g a items x (some (.shift target))
  | goto {next target} : Expects g items x → ¬ g.isTerminal x → successor g items x = .ok next →
      a.stateId? next = some target → Entry g a items x (some (.goto target))
  | accept : ¬ Expects g items x → x = g.endSymbol → Completes g items 0 → Entry g a items x (some .accept)
  | reduce {r} : ¬ Expects g items x → ¬ (x = g.endSymbol ∧ Completes g items 0) → MayReduce g items x r →
      (∀ r', MayReduce g items x r' → r ≤ r') → Entry g a items x (some (.reduce r))
  | none : ¬ Expects g items x → ¬ (x = g.endSymbol ∧ Completes g items 0) → (∀ r, ¬ MayReduce g items x r) →
      Entry g a items x none

/-- The items of a state settle its entries. -/
theorem Entry.unique {o o' : Option Action} (h : Entry g a items x o) (h' : Entry g a items x o') : o = o' := by
  cases h with
  | shift hexpects hterminal hnext htarget =>
      cases h' with
      | shift _ _ hnext' htarget' =>
          obtain rfl := Except.ok.inj (hnext.symm.trans hnext')
          rw [Option.some.inj (htarget.symm.trans htarget')]
      | goto _ hnot => exact absurd hterminal hnot
      | accept hnot => exact absurd hexpects hnot
      | reduce hnot => exact absurd hexpects hnot
      | none hnot => exact absurd hexpects hnot
  | goto hexpects hterminal hnext htarget =>
      cases h' with
      | goto _ _ hnext' htarget' =>
          obtain rfl := Except.ok.inj (hnext.symm.trans hnext')
          rw [Option.some.inj (htarget.symm.trans htarget')]
      | shift _ hyes => exact absurd hyes hterminal
      | accept hnot => exact absurd hexpects hnot
      | reduce hnot => exact absurd hexpects hnot
      | none hnot => exact absurd hexpects hnot
  | accept hexpects hend hcompletes =>
      cases h' with
      | shift hyes => exact absurd hyes hexpects
      | goto hyes => exact absurd hyes hexpects
      | accept => rfl
      | reduce _ hnot => exact absurd ⟨hend, hcompletes⟩ hnot
      | none _ hnot => exact absurd ⟨hend, hcompletes⟩ hnot
  | reduce hexpects haccept hmay hleast =>
      cases h' with
      | shift hyes => exact absurd hyes hexpects
      | goto hyes => exact absurd hyes hexpects
      | accept _ hend hcompletes => exact absurd ⟨hend, hcompletes⟩ haccept
      | reduce _ _ hmay' hleast' => rw [Nat.le_antisymm (hleast _ hmay') (hleast' _ hmay)]
      | none _ _ hnot => exact absurd hmay (hnot _)
  | none hexpects haccept hnone =>
      cases h' with
      | shift hyes => exact absurd hyes hexpects
      | goto hyes => exact absurd hyes hexpects
      | accept _ hend hcompletes => exact absurd ⟨hend, hcompletes⟩ haccept
      | reduce _ _ hmay => exact absurd hmay (hnone _)
      | none => rfl

namespace Automaton

/-! ### Demands by the items of the state -/

theorem demands_accept_iff (hg : g.Proper u) (hzero : g.startRule = 0) (hq : a.states[q]? = some items) :
    a.Demands g q x .accept ↔ x = g.endSymbol ∧ Completes g items 0 := by
  have hstart := hzero ▸ hg.startRule
  constructor
  · intro h
    obtain ⟨hend, items', hq', hmem⟩ := h.of_accept
    obtain rfl := Option.some.inj (hq.symm.trans hq')
    exact ⟨hend, _, hstart, hzero ▸ hmem⟩
  · rintro ⟨rfl, rule, hrule, hmem⟩
    obtain rfl := Option.some.inj (hstart.symm.trans hrule)
    exact .accept hq (hzero ▸ hmem)

theorem demands_reduce_iff (hg : g.Proper u) (hzero : g.startRule = 0) (hq : a.states[q]? = some items) {r : RuleId} :
    a.Demands g q x (.reduce r) ↔ MayReduce g items x r := by
  constructor
  · intro h
    obtain ⟨items', rule, follow, hq', hrule, hmem, hlhs, hfollow, hx⟩ := h.of_reduce
    obtain rfl := Option.some.inj (hq.symm.trans hq')
    refine ⟨?_, rule, hrule, hmem, follow, hfollow, hx⟩
    rintro rfl
    obtain rfl := Option.some.inj ((hzero ▸ hg.startRule).symm.trans hrule)
    exact hlhs rfl
  · intro ⟨hne, rule, hrule, hmem, follow, hfollow, hx⟩
    refine .reduce hq hrule hmem ?_ hfollow hx
    intro hlhs
    exact hne ((hg.start_unique hrule hlhs).trans hzero)

theorem expects_of_leads {p : StateId} (hq : a.states[q]? = some items) (hlead : a.Leads g q x p) :
    Expects g items x := by
  obtain ⟨items', k, hq', hkernel, _⟩ := hlead
  obtain rfl := Option.some.inj (hq.symm.trans hq')
  obtain ⟨_, hi⟩ := exists_mem_of_kernel? hkernel
  obtain ⟨j, hj, hnext, _⟩ := (mem_of_kernel?_eq_some hkernel).mp hi
  exact ⟨j, hj, hnext⟩

theorem exists_leads_of_expects (hg : g.Proper u) (h : ofGrammar g = .ok a) (hq : a.states[q]? = some items)
    (hx : Expects g items x) : ∃ p, a.Leads g q x p := by
  obtain ⟨i, hi, hnext⟩ := hx
  obtain ⟨p, _, hlead, _⟩ := exists_leads h hq hi hnext (hg.mem_symbols.mpr (hg.next?_lt hnext))
  exact ⟨p, hlead⟩

end Automaton

namespace ParseTable

/-! ### The order of the demands -/

/-- One demand stands before another: its rule is less, or it is the same and its symbol is less. -/
def Demand.Before (d d' : Demand) : Prop :=
  Prod.Lex (· < ·) (· < ·) (d.action.target, d.symbol) (d'.action.target, d'.symbol)

/-- Only a rule with its dot at the end demands anything, and what it demands is about that rule. -/
theorem target_of_mem_itemDemands (hg : g.Proper u) (hzero : g.startRule = 0) {i : Item} {d : Demand}
    (hfault : i.fault? g = none) (h : .ok d ∈ itemDemands g q i) :
    d.action.target = i.rule ∧ ∃ rule, g.rule? i.rule = some rule ∧ i.dot = rule.rhs.length := by
  rcases (mem_itemDemands_iff hg hfault).mp h with ⟨rfl, hd⟩ | ⟨rule, follow, s, hrule, hdot, _, _, _, hd⟩
  · obtain rfl := Except.ok.inj hd
    exact ⟨hzero.symm, _, hg.startRule, rfl⟩
  · obtain rfl := Except.ok.inj hd
    exact ⟨rfl, rule, hrule, hdot⟩

theorem pairwise_itemDemands (i : Item) : (itemDemands g q i).Pairwise fun e e' =>
    ∀ d d', e = .ok d → e' = .ok d' → Demand.Before d d' := by
  unfold itemDemands
  split
  · exact List.pairwise_singleton _ _
  · split
    · exact List.Pairwise.nil
    · split
      · exact List.pairwise_singleton _ _
      · split
        · exact List.pairwise_singleton _ _
        · rename_i follow _
          refine List.pairwise_map.mpr (follow.ascending.imp ?_)
          rintro s s' hs d d' hd hd'
          obtain rfl := Except.ok.inj hd
          obtain rfl := Except.ok.inj hd'
          exact Prod.Lex.right _ hs

theorem pairwise_demands_of_items (hg : g.Proper u) (hzero : g.startRule = 0)
    (hfault : ∀ i ∈ items, i.fault? g = none) : (items.toList.flatMap (itemDemands g q)).Pairwise fun e e' =>
      ∀ d d', e = .ok d → e' = .ok d' → Demand.Before d d' := by
  refine List.pairwise_flatMap.mpr ⟨fun i _ => pairwise_itemDemands i, ?_⟩
  refine items.ascending.imp_of_mem ?_
  rintro i j hi hj hij _ hd _ hd' d d' rfl rfl
  obtain ⟨htarget, rule, hrule, hdot⟩ := target_of_mem_itemDemands hg hzero (hfault i hi) hd
  obtain ⟨htarget', rule', hrule', hdot'⟩ := target_of_mem_itemDemands hg hzero (hfault j hj) hd'
  apply Prod.Lex.left
  rw [htarget, htarget']
  rcases Item.lt_def.mp hij with hlt | ⟨heq, hlt⟩
  · exact hlt
  -- A rule is there with its dot at the end once only.
  · rw [heq] at hrule
    obtain rfl := Option.some.inj (hrule.symm.trans hrule')
    exact absurd hlt (hdot ▸ hdot' ▸ Nat.lt_irrefl _)

/-! ### Entries -/

theorem mem_asked_iff {l : List (Except TableError Demand)} {act : Action} :
    act ∈ asked q x l ↔ .ok ⟨q, x, act⟩ ∈ l := by
  rw [asked, List.mem_filterMap]
  constructor
  · rintro ⟨e, he, hat⟩
    cases e with
    | error e => cases hat
    | ok d =>
        rw [Demand.at?_eq_some_iff.mp hat] at he
        exact he
  · intro h
    exact ⟨_, h, Demand.at?_eq_some_iff.mpr rfl⟩

theorem mem_asked_demands_iff (hg : g.Proper u) (h : Automaton.ofGrammar g = .ok a) {act : Action} :
    act ∈ asked q x (demands g a) ↔ a.Demands g q x act := by
  rw [mem_asked_iff, mem_demands_iff_demands hg h]
  constructor
  · rintro ⟨_, _, _, hdemand, heq⟩
    cases heq
    exact hdemand
  · exact fun hdemand => ⟨q, x, act, hdemand, rfl⟩

theorem asked_transitions_eq_nil (h : Automaton.ofGrammar g = .ok a) (hq : a.states[q]? = some items)
    (hx : ¬ Expects g items x) {l : List Symbol} (hl : ∀ s ∈ l, s ∈ g.symbols) (action : StateId → Action) :
    asked q x (l.filterMap (transitionDemand? g a q (moves g items) action)) = [] := by
  apply asked_eq_nil_iff.mpr
  intro act hact
  obtain ⟨s, hs, hdemand⟩ := List.mem_filterMap.mp hact
  obtain ⟨p, hlead, heq⟩ := (transitionDemand?_eq_some_iff h hq (hl s hs)).mp hdemand
  cases heq
  exact hx (Automaton.expects_of_leads hq hlead)

/-- Where no transition is possible, what is asked for comes in ascending order of the rules. -/
theorem pairwise_asked (hg : g.Proper u) (hzero : g.startRule = 0) (h : Automaton.ofGrammar g = .ok a)
    (hq : a.states[q]? = some items) (hx : ¬ Expects g items x) :
    (asked q x (demands g a)).Pairwise fun act act' => act.target < act'.target := by
  have hterminals : ∀ s ∈ g.terminals, s ∈ g.symbols := fun s hs => hg.mem_symbols.mpr (hg.mem_terminals.mp hs).1
  have hnonterminals : ∀ s ∈ g.nonterminals, s ∈ g.symbols :=
    fun s hs => hg.mem_symbols.mpr (hg.mem_nonterminals.mp hs).1
  rw [asked_demands hq, stateDemands, asked_append, asked_append, asked_transitions_eq_nil h hq hx hterminals,
    asked_transitions_eq_nil h hq hx hnonterminals]
  have hfault : ∀ i ∈ items, i.fault? g = none := fun i hi => Automaton.fault?_of_mem_state h hq hi
  refine (pairwise_demands_of_items (q := q) hg hzero hfault).filterMap _ ?_
  intro e e' hbefore act hact act' hact'
  cases e with
  | error e => cases hact
  | ok d =>
      cases e' with
      | error e' => cases hact'
      | ok d' =>
          have hd := Demand.at?_eq_some_iff.mp hact
          have hd' := Demand.at?_eq_some_iff.mp hact'
          subst hd hd'
          rcases Prod.lex_iff.mp (hbefore _ _ rfl rfl) with hlt | ⟨_, hlt⟩
          · exact hlt
          · exact absurd hlt (Nat.lt_irrefl x)

/-- Where no transition is possible, an entry holds the demand for the least rule. -/
theorem least_of_action? (hg : g.Proper u) (hzero : g.startRule = 0) (htable : ofGrammar g = .ok t)
    (hq : t.automaton.states[q]? = some items) (hx : ¬ Expects g items x) {act : Action}
    (haction : t.action? q x = some act) {act' : Action} (hdemand : t.automaton.Demands g q x act') :
    act.target ≤ act'.target := by
  have h := (fits_of_ofGrammar hg htable).automaton
  have hpairwise := pairwise_asked hg hzero h hq hx
  have hmem := (mem_asked_demands_iff hg h).mpr hdemand
  rw [action?_eq_head?_asked htable] at haction
  obtain ⟨rest, hrest⟩ := List.head?_eq_some_iff.mp haction
  rw [hrest] at hpairwise hmem
  rcases List.mem_cons.mp hmem with rfl | hmem
  · exact Nat.le_refl _
  · exact Nat.le_of_lt (List.rel_of_pairwise_cons hpairwise hmem)

theorem exists_action?_of_demands (hg : g.Proper u) (htable : ofGrammar g = .ok t) {act : Action}
    (hdemand : t.automaton.Demands g q x act) : ∃ act', t.action? q x = some act' := by
  have h := (fits_of_ofGrammar hg htable).automaton
  have hmem := (mem_asked_demands_iff hg h).mpr hdemand
  rw [action?_eq_head?_asked htable]
  exact Option.isSome_iff_exists.mp (List.isSome_head?.mpr (List.ne_nil_of_mem hmem))

theorem entry_action? (hg : g.Proper u) (hzero : g.startRule = 0) (htable : ofGrammar g = .ok t)
    (hq : t.automaton.states[q]? = some items) (x : Symbol) : Entry g t.automaton items x (t.action? q x) := by
  have ht := fits_of_ofGrammar hg htable
  have hsymbols : ∀ s < g.symbolCount, s ∈ g.symbols := fun _ => hg.mem_symbols.mpr
  by_cases hx : Expects g items x
  · obtain ⟨p, hlead⟩ := Automaton.exists_leads_of_expects hg ht.automaton hq hx
    rw [action?_of_leads hg htable hlead]
    obtain ⟨items', next, hq', hnext, _, hp⟩ := (Automaton.leads_iff_successor ht.automaton hsymbols).mp hlead
    obtain rfl := Option.some.inj (hq.symm.trans hq')
    have hid := (Automaton.stateId?_eq_some_iff ht.automaton).mpr hp
    by_cases hterminal : g.isTerminal x
    · rw [if_pos hterminal]
      exact .shift hx hterminal hnext hid
    · rw [if_neg hterminal]
      exact .goto hx hterminal hnext hid
  · have hmay : ∀ {r}, MayReduce g items x r → t.automaton.Demands g q x (.reduce r) :=
      (Automaton.demands_reduce_iff hg hzero hq).mpr
    have haccept : x = g.endSymbol ∧ Completes g items 0 → t.automaton.Demands g q x .accept :=
      (Automaton.demands_accept_iff hg hzero hq).mpr
    cases haction : t.action? q x with
    | none =>
        have hnone : ∀ act, ¬ t.automaton.Demands g q x act := by
          intro act hdemand
          obtain ⟨act', hact'⟩ := exists_action?_of_demands hg htable hdemand
          cases haction.symm.trans hact'
        exact .none hx (fun h => hnone _ (haccept h)) fun r h => hnone _ (hmay h)
    | some act =>
        have hleast : ∀ act', t.automaton.Demands g q x act' → act.target ≤ act'.target :=
          fun act' => least_of_action? hg hzero htable hq hx haction
        have hdemand := ht.demands haction
        cases act with
        | shift p => exact absurd (Automaton.expects_of_leads hq hdemand.of_shift.2) hx
        | goto p => exact absurd (Automaton.expects_of_leads hq hdemand.of_goto.2) hx
        | accept =>
            obtain ⟨hend, hcompletes⟩ := (Automaton.demands_accept_iff hg hzero hq).mp hdemand
            exact .accept hx hend hcompletes
        | reduce r =>
            have hr := (Automaton.demands_reduce_iff hg hzero hq).mp hdemand
            refine .reduce hx ?_ hr fun r' hr' => hleast _ (hmay hr')
            -- Acceptance counts as rule `0` and would have come before.
            intro h
            exact hr.1 (Nat.le_zero.mp (hleast _ (haccept h)))

end ParseTable

end ShiftReduce
