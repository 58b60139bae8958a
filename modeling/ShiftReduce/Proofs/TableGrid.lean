import Std.Data.String.ToNat
import ShiftReduce.Proofs.Conflicts
import ShiftReduce.Proofs.FollowSets
import ShiftReduce.Proofs.WriteHistory
import ShiftReduce.Report.Table

/-! The grid of a table shows all of it. An entry is demanded over a symbol that stands on a right-hand side, over one
that follows a left-hand side or over the end symbol. None of them is the start symbol of the grammar, which is the
only symbol without a column. There is a row for each state and a cell for each column, what is written in a cell
tells the action, and the symbols of a row of actions differ, so cells with something in them and entries go together
one by one. -/

namespace ShiftReduce

/-! ### Actions in writing -/

theorem toDigits_inj {m n : Nat} : Nat.toDigits 10 m = Nat.toDigits 10 n ↔ m = n := by
  rw [← Nat.repr_inj, Nat.repr_eq_ofList_toDigits, Nat.repr_eq_ofList_toDigits, String.ofList_inj]

/-- An action is written as a letter for its kind and a number, and acceptance as a word. -/
theorem Action.toList_text (act : Action) : act.text.toList =
    match act with
    | shift target => 's' :: Nat.toDigits 10 target
    | goto target => 'g' :: Nat.toDigits 10 target
    | reduce rule => 'r' :: Nat.toDigits 10 rule
    | accept => ['a', 'c', 'c'] := by
  cases act with
  | shift target => simp [text, toString]
  | goto target => simp [text, toString]
  | reduce rule => simp [text, toString]
  | accept => rfl

theorem Action.text_injective : Function.Injective Action.text := by
  intro act act' h
  have hchars := congrArg String.toList h
  rw [toList_text, toList_text] at hchars
  cases act <;> cases act' <;> simp [toDigits_inj] at hchars <;> simp [hchars]

theorem Action.text_ne_empty (act : Action) : act.text ≠ "" := by
  intro h
  have hchars := congrArg String.toList h
  rw [toList_text] at hchars
  cases act <;> cases hchars

namespace Report

theorem actionText_ne_empty_iff {o : Option Action} : actionText o ≠ "" ↔ o.isSome := by
  cases o with
  | none => simp [actionText]
  | some act => simpa [actionText] using act.text_ne_empty

/-- A cell tells what stands in the entry. -/
theorem actionText_injective : Function.Injective actionText := by
  intro o o' h
  have hsome : o.isSome ↔ o'.isSome := by rw [← actionText_ne_empty_iff, h, actionText_ne_empty_iff]
  cases o with
  | none =>
      cases o' with
      | none => rfl
      | some act' => simp at hsome
  | some act =>
      cases o' with
      | none => simp at hsome
      | some act' => rw [Action.text_injective h]

/-! ### Columns -/

variable {g : Grammar} {u x : Symbol}

/-- Only the start symbol has no column. -/
theorem mem_columns_iff (hg : g.Proper u) : x ∈ columns g ↔ x < g.symbolCount ∧ x ≠ g.startSymbol := by
  have hstart : g.isTerminal x → x ≠ g.startSymbol := by
    rintro hterminal rfl
    exact hg.not_isTerminal_lhs hg.startRule hterminal
  rw [columns, List.mem_append, List.mem_filter, hg.mem_terminals, hg.mem_nonterminals, bne_iff_ne]
  by_cases hterminal : g.isTerminal x
  · simp [hterminal, hstart hterminal]
  · simp [hterminal]

theorem nodup_columns (hg : g.Proper u) : (columns g).Nodup := by
  refine List.nodup_append.mpr ⟨?_, ?_, ?_⟩
  · exact hg.terminals ▸ List.nodup_range.filter _
  · exact (hg.nonterminals ▸ List.nodup_range.filter _ : g.nonterminals.Nodup).filter _
  · rintro x hx y hy rfl
    exact (hg.mem_nonterminals.mp (List.mem_filter.mp hy).1).2 (hg.mem_terminals.mp hx).2

end Report

/-- Nothing is demanded over the start symbol of the grammar. -/
theorem Automaton.Demands.mem_columns {calls : List Builder.Call} {g : AugmentedGrammar}
    (hbuild : (Builder.ofCalls calls).build = .ok g) {a : Automaton} {p : StateId} {x : Symbol} {act : Action}
    (h : a.Demands g.toGrammar p x act) : x ∈ Report.columns g.toGrammar := by
  have hg := Builder.proper_of_build hbuild
  have hterminal : g.isTerminal x → x ∈ Report.columns g.toGrammar := fun hx =>
    List.mem_append_left _ (hg.mem_terminals.mpr ⟨(hg.isTerminal_iff.mp hx).1, hx⟩)
  have htransition : ∀ {q}, a.Leads g.toGrammar p x q → x ∈ Report.columns g.toGrammar := by
    intro q hlead
    refine (Report.mem_columns_iff hg).mpr ⟨hg.lt_of_leads hlead, ?_⟩
    rintro rfl
    obtain ⟨_, _, hrule, hmem⟩ := hlead.mem_rhs
    exact hg.start_not_mem hrule hmem
  cases h with
  | shift _ hlead => exact htransition hlead
  | goto _ hlead => exact htransition hlead
  | reduce _ hrule _ _ hfollow hx =>
      exact hterminal (AugmentedGrammar.isTerminal_of_follows (Builder.eq_ofRules_of_build hbuild) hg
        (hg.symbols_lt hrule _ List.mem_cons_self) (hg.not_isTerminal_lhs hrule) ⟨_, hfollow, hx⟩)
  | accept =>
      refine (Report.mem_columns_iff hg).mpr ⟨hg.end_lt, fun heq => ?_⟩
      exact hg.end_not_mem hg.startRule (heq ▸ List.mem_cons_self)

/-! ### Entries and rows -/

section Row

variable {row : Row}

theorem Row.Ascending.nodup_map_fst (h : row.Ascending) : (row.map Prod.fst).Nodup :=
  List.pairwise_map.mpr (h.imp Nat.ne_of_lt)

/-- Where symbols ascend, each entry is found by its symbol. -/
theorem Row.Ascending.mem_iff (h : row.Ascending) {x : Symbol} {a : Action} :
    (x, a) ∈ row ↔ row.lookup x = some a := by
  rw [List.lookup_eq_some_iff]
  constructor
  · intro he
    obtain ⟨before, after, rfl⟩ := List.append_of_mem he
    refine ⟨before, after, rfl, fun p hp => bne_iff_ne.mpr ?_⟩
    exact Nat.ne_of_gt ((List.pairwise_append.mp h).2.2 p hp _ List.mem_cons_self)
  · rintro ⟨before, after, rfl, -⟩
    exact List.mem_append_right _ List.mem_cons_self

theorem Row.isSome_lookup_iff {x : Symbol} : (row.lookup x).isSome ↔ x ∈ row.map Prod.fst := by
  rw [List.lookup_isSome_iff, List.mem_map]
  constructor
  · rintro ⟨e, he, hx⟩
    exact ⟨e, he, (beq_iff_eq.mp hx).symm⟩
  · rintro ⟨e, he, hx⟩
    exact ⟨e, he, beq_iff_eq.mpr hx.symm⟩

/-- Of the columns, as many have an entry in the row as the row has entries. -/
theorem Row.Ascending.countP_columns (h : row.Ascending) {columns : List Symbol} (hcolumns : columns.Nodup)
    (hmem : ∀ e ∈ row, e.1 ∈ columns) : columns.countP (fun x => (row.lookup x).isSome) = row.length := by
  have hperm : (columns.filter fun x => (row.lookup x).isSome).Perm (row.map Prod.fst) := by
    refine (List.perm_ext_iff_of_nodup (hcolumns.filter _) h.nodup_map_fst).mpr fun x => ?_
    rw [List.mem_filter, Row.isSome_lookup_iff]
    refine and_iff_right_of_imp fun hx => ?_
    obtain ⟨e, he, rfl⟩ := List.mem_map.mp hx
    exact hmem e he
  rw [List.countP_eq_length_filter, hperm.length_eq, List.length_map]

end Row

namespace ParseTable

variable {g : Grammar} {t : ParseTable}

/-- The actions of a table are what is left by the demands of its states, met or not. -/
theorem actions_of_ofGrammar (htable : ofGrammar g = .ok t) :
    t.actions = .ofDemands t.automaton.size ((demands g t.automaton).filterMap (·.toOption)) :=
  calc t.actions
      _ = (fill t.automaton ((demands g t.automaton).filterMap (·.toOption))).actions :=
        congrArg ParseTable.actions (eq_fill_of_ofGrammar htable).2
      _ = _ := actions_fill _ _

theorem ordered_actions (htable : ofGrammar g = .ok t) : t.actions.Ordered := by
  rw [actions_of_ofGrammar htable]
  exact (ActionTable.ordered_ofStates _).foldl_perform _

theorem foldl_max_of_forall_le {l : List Nat} {n : Nat} (h : ∀ m ∈ l, m ≤ n) : l.foldl max n = n := by
  induction l with
  | nil => rfl
  | cons m l ih =>
      obtain ⟨hm, hl⟩ := List.forall_mem_cons.mp h
      rw [List.foldl_cons, Nat.max_eq_left hm, ih hl]

/-- The table has a row of actions for each state. -/
theorem stateCount_actions (htable : ofGrammar g = .ok t) :
    t.actions.stateCount = t.automaton.size := by
  have hstates : ∀ d ∈ (demands g t.automaton).filterMap (·.toOption), d.state < t.automaton.size := by
    intro d hd
    obtain ⟨e, he, hd⟩ := List.mem_filterMap.mp hd
    obtain ⟨p, items, hp, he⟩ := mem_demands_iff.mp he
    cases e with
    | error e => cases hd
    | ok d' =>
        obtain rfl := Option.some.inj hd
        rw [state_of_mem_stateDemands he]
        exact (Array.getElem?_eq_some_iff.mp hp).1
  have hempty : (ActionTable.ofStates t.automaton.size).stateCount = t.automaton.size := Array.size_replicate
  rw [actions_of_ofGrammar htable, ActionTable.ofDemands, ActionTable.stateCount_foldl_perform, hempty]
  refine foldl_max_of_forall_le fun m hm => ?_
  obtain ⟨d, hd, rfl⟩ := List.mem_map.mp hm
  exact hstates d hd

end ParseTable

namespace Report

variable {calls : List Builder.Call} {g : AugmentedGrammar} {t : ParseTable}

/-- An entry of a row of actions is about a state of the automaton and a symbol with a column. -/
theorem mem_columns_of_row (hbuild : (Builder.ofCalls calls).build = .ok g)
    (htable : ParseTable.ofGrammar g.toGrammar = .ok t) {q : StateId} {row : Row} (hrow : t.actions.row? q = some row)
    {e : Symbol × Action} (he : e ∈ row) :
    q < t.automaton.size ∧ e.1 ∈ columns g.toGrammar ∧ t.action? q e.1 = some e.2 := by
  have haction : t.action? q e.1 = some e.2 := by
    rw [ParseTable.action?, ActionTable.get?, ← ActionTable.row?, hrow]
    exact (ParseTable.ordered_actions htable q row hrow).mem_iff.mp he
  have hdemand := (ParseTable.fits_of_ofGrammar (Builder.proper_of_build hbuild) htable).demands haction
  refine ⟨?_, hdemand.mem_columns hbuild, haction⟩
  rw [← ParseTable.stateCount_actions htable]
  exact (Array.getElem?_eq_some_iff.mp hrow).1

theorem length_rows (g : Grammar) (t : ParseTable) : (tableGrid g t).rows.length = t.automaton.size := by
  rw [tableGrid, List.length_map, List.length_zipIdx, Array.length_toList, Automaton.size]

theorem getElem?_rows {g : Grammar} {q : StateId} {row : List String} :
    (tableGrid g t).rows[q]? = some row ↔
      ∃ items, t.automaton.states[q]? = some items ∧ tableRow g t items q = row := by
  rw [tableGrid, List.getElem?_map, List.getElem?_zipIdx, Array.getElem?_toList, Option.map_map,
    Option.map_eq_some_iff]
  simp

/-- Where a row of the grid has something in a cell, there is an entry in the row of actions. -/
theorem countP_tableRow (hbuild : (Builder.ofCalls calls).build = .ok g)
    (htable : ParseTable.ofGrammar g.toGrammar = .ok t) {q : StateId} {row : Row} (hrow : t.actions.row? q = some row)
    (items : ItemSet) : ((tableRow g.toGrammar t items q).drop 2).countP (· ≠ "") = row.length := by
  have hentry : ∀ x, actionText (t.action? q x) ≠ "" ↔ (row.lookup x).isSome := by
    intro x
    rw [actionText_ne_empty_iff, ParseTable.action?, ActionTable.get?, ← ActionTable.row?, hrow]
    rfl
  calc ((tableRow g.toGrammar t items q).drop 2).countP (· ≠ "")
      _ = ((columns g.toGrammar).map fun x => actionText (t.action? q x)).countP (· ≠ "") := rfl
      _ = (columns g.toGrammar).countP fun x => (row.lookup x).isSome := by
        rw [List.countP_map]
        refine List.countP_congr fun x _ => ?_
        rw [Function.comp_apply, decide_eq_true_iff]
        exact hentry x
      _ = row.length :=
        (ParseTable.ordered_actions htable q row hrow).countP_columns (nodup_columns (Builder.proper_of_build hbuild))
          fun _ he => (mem_columns_of_row hbuild htable hrow he).2.1

theorem sum_countP_rows (hbuild : (Builder.ofCalls calls).build = .ok g)
    (htable : ParseTable.ofGrammar g.toGrammar = .ok t) :
    ((tableGrid g.toGrammar t).rows.map fun row => (row.drop 2).countP (· ≠ "")).sum = t.actions.size := by
  have hlength : (tableGrid g.toGrammar t).rows.length = t.actions.rows.toList.length := by
    rw [length_rows, ← ParseTable.stateCount_actions htable, ActionTable.stateCount, Array.length_toList]
  rw [ActionTable.size_eq_sum]
  refine congrArg List.sum (List.ext_getElem (by rw [List.length_map, List.length_map, hlength]) fun q hq hq' => ?_)
  rw [List.getElem_map, List.getElem_map]
  obtain ⟨items, -, hrow⟩ := getElem?_rows.mp (List.getElem?_eq_getElem (List.length_map _ ▸ hq))
  rw [← hrow]
  refine countP_tableRow hbuild htable ?_ items
  rw [ActionTable.row?, ← Array.getElem?_toList, List.getElem?_eq_getElem]

/-- The grid of a table has a row for each state. The columns after the first two are those of all symbols but the
start symbol, none of them twice, and a cell there shows the action of the state on the symbol, if there is one, in
such a way that no two actions look the same. Each entry of the table lies in one of the columns, so there are as
many cells with something in them as there are entries. -/
theorem grid_shows_all (hbuild : (Builder.ofCalls calls).build = .ok g) :
    ∃ (t : ParseTable) (columns : List Symbol), ParseTable.ofGrammar g.toGrammar = .ok t ∧
      columns.Nodup ∧ (∀ x, x ∈ columns ↔ x < g.symbolCount ∧ x ≠ g.startSymbol) ∧
      (tableGrid g.toGrammar t).titles = "#" :: "LR(0) items" :: columns.map g.label ∧
      (tableGrid g.toGrammar t).rows.length = t.automaton.size ∧
      (∀ q row, (tableGrid g.toGrammar t).rows[q]? = some row → row.length = columns.length + 2 ∧
        ∀ k x, columns[k]? = some x → row[k + 2]? = some (actionText (t.action? q x))) ∧
      Function.Injective actionText ∧ (∀ o, actionText o = "" ↔ o = none) ∧
      (∀ q row, t.actions.row? q = some row → ∀ e ∈ row,
        q < t.automaton.size ∧ e.1 ∈ columns ∧ t.action? q e.1 = some e.2) ∧
      ((tableGrid g.toGrammar t).rows.map fun row => (row.drop 2).countP (· ≠ "")).sum = t.actions.size := by
  have hg := Builder.proper_of_build hbuild
  obtain ⟨t, htable, -⟩ := ParseTable.exists_table hg
  refine ⟨t, columns g.toGrammar, htable, nodup_columns hg, fun x => mem_columns_iff hg, rfl, length_rows _ t, ?_,
    actionText_injective, fun o => ?_, fun q row hrow e he => mem_columns_of_row hbuild htable hrow he,
    sum_countP_rows hbuild htable⟩
  · intro q row hrow
    obtain ⟨items, -, rfl⟩ := getElem?_rows.mp hrow
    refine ⟨by simp [tableRow], fun k x hx => ?_⟩
    rw [tableRow, List.getElem?_cons_succ, List.getElem?_cons_succ, List.getElem?_map, hx]
    rfl
  · rw [← not_iff_not, ← Ne, actionText_ne_empty_iff, Option.isSome_iff_ne_none]

theorem grid_shows_all_ambiguous : (Builder.ofCalls ambiguousCalls).build = .ok ambiguous ∧
    ∃ t, ParseTable.ofGrammar ambiguous.toGrammar = .ok t ∧ t.actions.size = 10 ∧
      (tableGrid ambiguous.toGrammar t).rows.map (·.drop 2) =
        [["", "s2", "g1"], ["acc", "s2", "g3"], ["r3", "r3", ""], ["r1", "s2", "g3"]] ∧
      (tableGrid ambiguous.toGrammar t).rows.length = t.automaton.size ∧
      ((tableGrid ambiguous.toGrammar t).rows.map fun row => (row.drop 2).countP (· ≠ "")).sum = 10 := by
  have hbuild : (Builder.ofCalls ambiguousCalls).build = .ok ambiguous := by cbv
  have hrun : (ParseTable.ofGrammar ambiguous.toGrammar).toOption.map
      (fun t => (t.actions.size, (tableGrid ambiguous.toGrammar t).rows.map (·.drop 2))) =
      some (10, [["", "s2", "g1"], ["acc", "s2", "g3"], ["r3", "r3", ""], ["r1", "s2", "g3"]]) := by cbv
  obtain ⟨t, columns, htable, -, -, -, hlength, -, -, -, -, hcount⟩ := grid_shows_all hbuild
  rw [htable] at hrun
  obtain ⟨hsize, hcells⟩ := Prod.mk.inj (Option.some.inj hrun)
  exact ⟨hbuild, t, htable, hsize, hcells, hlength, hcount.trans hsize⟩

end Report

end ShiftReduce
