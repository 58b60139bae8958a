import Mathlib.Data.List.Nodup
import ShiftReduce.Proofs.Table

/-! The transitions of the automaton stand in its table, whatever else is demanded there. Of the demands
for one entry the first is met, and the transitions of a state are demanded before its reductions. Each
symbol is tried once, so at most one transition is demanded for an entry, and nothing comes before it. -/

namespace ShiftReduce

/-- If only one member of a list contributes anything, it contributes all there is. -/
theorem flatMap_eq_of_unique {α β : Type} {f : α → List β} {l : List α} {a : α} (hl : l.Nodup) (ha : a ∈ l)
    (hother : ∀ b ∈ l, b ≠ a → f b = []) : l.flatMap f = f a := by
  obtain ⟨before, after, rfl⟩ := List.append_of_mem ha
  rw [List.nodup_middle, List.nodup_cons, List.mem_append, not_or] at hl
  have hbefore : before.flatMap f = [] := by
    apply List.flatMap_eq_nil_iff.mpr
    intro b hb
    exact hother b (List.mem_append_left _ hb) fun heq => hl.1.1 (heq ▸ hb)
  have hafter : after.flatMap f = [] := by
    apply List.flatMap_eq_nil_iff.mpr
    intro b hb
    exact hother b (List.mem_append_right _ (List.mem_cons_of_mem a hb)) fun heq => hl.1.2 (heq ▸ hb)
  rw [List.flatMap_append, List.flatMap_cons, hbefore, hafter, List.nil_append, List.append_nil]

theorem nodup_zipIdx {α : Type} (l : List α) : l.zipIdx.Nodup := by
  apply List.Nodup.of_map Prod.snd
  rw [List.zipIdx_map_snd]
  exact List.nodup_range'

variable {g : Grammar} {u : Symbol} {t : ParseTable} {a : Automaton}

namespace ParseTable

/-! ### The demands for one entry -/

/-- What a list of demands asks for in an entry, in order. A demand that fails asks for nothing. -/
def asked (s : StateId) (x : Symbol) (l : List (Except TableError Demand)) : List Action :=
  l.filterMap fun r => r.toOption.bind (Demand.at? · s x)

theorem asked_append (s : StateId) (x : Symbol) (l l' : List (Except TableError Demand)) :
    asked s x (l ++ l') = asked s x l ++ asked s x l' :=
  List.filterMap_append

theorem asked_eq_nil_iff {s : StateId} {x : Symbol} {l : List (Except TableError Demand)} :
    asked s x l = [] ↔ ∀ act, .ok ⟨s, x, act⟩ ∉ l := by
  rw [asked, List.filterMap_eq_nil_iff]
  constructor
  · intro h act hmem
    have hnone := h _ hmem
    rw [Except.toOption, Option.bind_some, Demand.at?, if_pos ⟨rfl, rfl⟩] at hnone
    cases hnone
  · intro h r hr
    cases r with
    | error e => rfl
    | ok d =>
        apply Option.eq_none_iff_forall_ne_some.mpr
        intro act hact
        rw [Demand.at?_eq_some_iff.mp hact] at hr
        exact h act hr

theorem resultsBeforeFailure_of_firstFailure? {ε α : Type} {l : List (Except ε α)} (h : firstFailure? l = none) :
    resultsBeforeFailure l = l.filterMap (·.toOption) := by
  have hall : ∀ r ∈ l, r.isOk := by
    induction l with
    | nil => exact fun _ hr => absurd hr List.not_mem_nil
    | cons r l ih =>
        cases r with
        | error e => cases h
        | ok x => exact List.forall_mem_cons.mpr ⟨rfl, ih h⟩
  rw [resultsBeforeFailure, List.takeWhile_eq_self_iff.mpr hall]

/-- A table is filled from the demands of its automaton, none of which fails. -/
theorem eq_fill_of_ofGrammar (h : ofGrammar g = .ok t) : Automaton.ofGrammar g = .ok t.automaton ∧
    t = fill t.automaton ((demands g t.automaton).filterMap (·.toOption)) := by
  unfold ofGrammar at h
  split at h
  · cases h
  · rename_i a ha
    dsimp only at h
    split at h
    · cases h
    · rename_i hfirst
      obtain rfl := Except.ok.inj h
      have hautomaton : (fill a (resultsBeforeFailure (demands g a))).automaton = a := automaton_foldl_meet _ _
      rw [hautomaton, ha, ← resultsBeforeFailure_of_firstFailure? hfirst]
      exact ⟨rfl, rfl⟩

/-- An entry holds what is asked for first. -/
theorem action?_eq_head?_asked (h : ofGrammar g = .ok t) (s : StateId) (x : Symbol) :
    t.action? s x = (asked s x (demands g t.automaton)).head? :=
  calc t.action? s x
      _ = (fill t.automaton ((demands g t.automaton).filterMap (·.toOption))).action? s x :=
        congrArg (fun t : ParseTable => t.action? s x) (eq_fill_of_ofGrammar h).2
      _ = (((demands g t.automaton).filterMap (·.toOption)).filterMap (Demand.at? · s x)).head? := by
        rw [action?_fill, List.head?_filterMap]
      _ = (asked s x (demands g t.automaton)).head? := by
        rw [List.filterMap_filterMap]
        rfl

theorem state_of_mem_transitions {p : StateId} {m : List (Symbol × Item)} {action : StateId → Action} {s : Symbol}
    {d : Demand} (h : transitionDemand? g a p m action s = some (.ok d)) : d.state = p ∧ d.symbol = s := by
  unfold transitionDemand? at h
  split at h
  · cases h
  · split at h
    · obtain rfl := Except.ok.inj (Option.some.inj h)
      exact ⟨rfl, rfl⟩
    · split at h <;> cases h

theorem state_of_mem_itemDemands {p : StateId} {i : Item} {d : Demand} (h : .ok d ∈ itemDemands g p i) :
    d.state = p := by
  unfold itemDemands at h
  split at h
  · cases List.mem_singleton.mp h
  · split at h
    · cases h
    · split at h
      · obtain rfl := Except.ok.inj (List.mem_singleton.mp h)
        rfl
      · split at h
        · cases List.mem_singleton.mp h
        · obtain ⟨s, _, hs⟩ := List.mem_map.mp h
          obtain rfl := Except.ok.inj hs
          rfl

theorem state_of_mem_stateDemands {p : StateId} {items : ItemSet} {d : Demand}
    (h : .ok d ∈ stateDemands g a p items) : d.state = p := by
  simp only [stateDemands, List.mem_append, List.mem_filterMap, List.mem_flatMap] at h
  rcases h with (⟨_, _, h⟩ | ⟨_, _, h⟩) | ⟨_, _, h⟩
  · exact (state_of_mem_transitions h).1
  · exact (state_of_mem_transitions h).1
  · exact state_of_mem_itemDemands h

/-- Only the state of an entry asks for anything there. -/
theorem asked_demands {p : StateId} {items : ItemSet} (hp : a.states[p]? = some items) (s : Symbol) :
    asked p s (demands g a) = asked p s (stateDemands g a p items) := by
  rw [asked, demands, List.filterMap_flatMap]
  refine flatMap_eq_of_unique (a := (items, p)) (nodup_zipIdx _) ?_ ?_
  · rw [List.mem_zipIdx_iff_getElem?, Array.getElem?_toList]
    exact hp
  · rintro ⟨items', p'⟩ hmem hne
    rw [List.mem_zipIdx_iff_getElem?, Array.getElem?_toList] at hmem
    apply asked_eq_nil_iff.mpr
    intro act hact
    obtain rfl : p = p' := state_of_mem_stateDemands hact
    exact hne (Prod.ext (Option.some.inj (hmem.symm.trans hp)) rfl)

/-! ### Transitions -/

/-- Among the transitions of a state, one over a symbol is asked for once, if the symbol is tried. -/
theorem asked_transitions (h : Automaton.ofGrammar g = .ok a) {p q : StateId} {items : ItemSet}
    (hp : a.states[p]? = some items) {s : Symbol} (hlead : a.Leads g p s q) {l : List Symbol} (hl : l.Nodup)
    (hs : s ∈ g.symbols) (action : StateId → Action) :
    asked p s (l.filterMap (transitionDemand? g a p (moves g items) action)) =
      if s ∈ l then [action q] else [] := by
  split
  · rename_i hmem
    have hdemand : transitionDemand? g a p (moves g items) action s = some (.ok ⟨p, s, action q⟩) :=
      (transitionDemand?_eq_some_iff h hp hs).mpr ⟨q, hlead, rfl⟩
    rw [List.filterMap_eq_flatMap_toList, asked, List.filterMap_flatMap,
      flatMap_eq_of_unique hl hmem, hdemand]
    · simp [Except.toOption, Demand.at?]
    · intro x _ hx
      apply asked_eq_nil_iff.mpr
      intro act hact
      exact hx (state_of_mem_transitions (Option.mem_toList.mp hact)).2.symm
  · rename_i hmem
    apply asked_eq_nil_iff.mpr
    intro act hact
    obtain ⟨x, hx, hdemand⟩ := List.mem_filterMap.mp hact
    obtain rfl : s = x := (state_of_mem_transitions hdemand).2
    exact hmem hx

/-- Every transition stands in the table: over a terminal as a shift, over any other symbol as a goto. -/
theorem action?_of_leads (hg : g.Proper u) (h : ofGrammar g = .ok t) {p q : StateId} {s : Symbol}
    (hlead : t.automaton.Leads g p s q) : t.action? p s = some (if g.isTerminal s then .shift q else .goto q) := by
  obtain ⟨hautomaton, _⟩ := eq_fill_of_ofGrammar h
  obtain ⟨items, hp⟩ := hlead.source
  have hlt := hg.lt_of_leads hlead
  have hs := hg.mem_symbols.mpr hlt
  have hterminals : g.terminals.Nodup := hg.terminals ▸ List.nodup_range.filter _
  have hnonterminals : g.nonterminals.Nodup := hg.nonterminals ▸ List.nodup_range.filter _
  rw [action?_eq_head?_asked h, asked_demands hp, stateDemands, asked_append, asked_append,
    asked_transitions hautomaton hp hlead hterminals hs, asked_transitions hautomaton hp hlead hnonterminals hs]
  by_cases hterminal : g.isTerminal s
  · rw [if_pos (hg.mem_terminals.mpr ⟨hlt, hterminal⟩), if_pos hterminal]
    rfl
  · rw [if_neg fun hmem => hterminal (hg.mem_terminals.mp hmem).2,
      if_pos (hg.mem_nonterminals.mpr ⟨hlt, hterminal⟩), if_neg hterminal]
    rfl

theorem fits_of_ofGrammar (hg : g.Proper u) (h : ofGrammar g = .ok t) : t.Fits g := by
  obtain ⟨t', ht', hfits, _⟩ := exists_table hg
  obtain rfl := Except.ok.inj (h.symm.trans ht')
  exact hfits

/-- The state to which the table goes over a symbol, by a shift if it is a terminal and by a goto if not. -/
def target? (g : Grammar) (t : ParseTable) (p : StateId) (s : Symbol) : Option StateId :=
  match t.action? p s with
  | some (.shift q) => if g.isTerminal s then some q else none
  | some (.goto q) => if g.isTerminal s then none else some q
  | _ => none

theorem target?_eq_some_iff (hg : g.Proper u) (h : ofGrammar g = .ok t) {p q : StateId} {s : Symbol} :
    t.target? g p s = some q ↔ t.automaton.Leads g p s q := by
  constructor
  · intro htarget
    have ht := fits_of_ofGrammar hg h
    unfold target? at htarget
    split at htarget
    · rename_i haction
      obtain ⟨_, heq⟩ := Option.ite_none_right_eq_some.mp htarget
      obtain rfl := Option.some.inj heq
      exact (ht.demands haction).of_shift.2
    · rename_i haction
      obtain ⟨_, heq⟩ := Option.ite_none_left_eq_some.mp htarget
      obtain rfl := Option.some.inj heq
      exact (ht.demands haction).of_goto.2
    · cases htarget
  · intro hlead
    rw [target?, action?_of_leads hg h hlead]
    by_cases hterminal : g.isTerminal s
    · simp only [if_pos hterminal]
    · simp only [if_neg hterminal]

end ParseTable

end ShiftReduce
