import Mathlib.Algebra.BigOperators.Group.List.Basic
import Mathlib.Data.Finset.Card
import Mathlib.Data.List.Induction
import ShiftReduce.Proofs.ActionTable

/-! What a table of actions holds after any writes that come one after the other, be they repeated, in each other's
way or beyond the last row. An entry holds what was written there first. A write that finds its entry free adds it to
its row in its place, so the rows stay in ascending order, and there are as many entries as places that have been
written to. Rows are added as far as a write needs them. -/

namespace ShiftReduce

/-! ### Rows -/

/-- The symbols of a row come in ascending order, none of them twice. -/
def Row.Ascending (row : Row) : Prop := row.Pairwise fun e e' => e.1 < e'.1

section Row

variable {row : Row} {s : Symbol} {a : Action}

theorem Row.length_insert : (Row.insert s a row).length = row.length + 1 := by
  induction row with
  | nil => rfl
  | cons e row ih =>
      unfold Row.insert
      split
      · rfl
      · rw [List.length_cons, ih, List.length_cons]

theorem Row.mem_insert {e : Symbol × Action} : e ∈ Row.insert s a row ↔ e = (s, a) ∨ e ∈ row := by
  induction row with
  | nil => exact List.mem_cons
  | cons e' row ih =>
      unfold Row.insert
      split
      · exact List.mem_cons
      · rw [List.mem_cons, List.mem_cons, ih, or_left_comm]

/-- A new symbol goes before the first greater one. -/
theorem Row.Ascending.insert (h : row.Ascending) (hfree : row.lookup s = none) (a : Action) :
    (Row.insert s a row).Ascending := by
  induction row with
  | nil => exact List.pairwise_singleton _ _
  | cons e row ih =>
      obtain ⟨y, b⟩ := e
      obtain ⟨hfirst, hrest⟩ := List.pairwise_cons.mp h
      obtain ⟨hne, hfree⟩ : s ≠ y ∧ row.lookup s = none := by
        rw [Row.lookup_cons] at hfree
        split at hfree
        · cases hfree
        · exact ⟨‹_›, hfree⟩
      unfold Row.insert
      split
      · rename_i hlt
        refine List.pairwise_cons.mpr ⟨fun e he => ?_, h⟩
        rcases List.mem_cons.mp he with rfl | he
        · exact hlt
        · exact Nat.lt_trans hlt (hfirst e he)
      · rename_i hge
        refine List.pairwise_cons.mpr ⟨fun e he => ?_, ih hrest hfree⟩
        rcases Row.mem_insert.mp he with rfl | he
        · exact Nat.lt_of_le_of_ne (Nat.not_lt.mp hge) (Ne.symm hne)
        · exact hfirst e he

end Row

namespace ActionTable

/-- All rows are in ascending order. -/
def Ordered (t : ActionTable) : Prop := ∀ s row, t.row? s = some row → row.Ascending

/-! ### One write -/

section Put

variable {t : ActionTable} {s : StateId} {x : Symbol} {a : Action}

theorem stateCount_extendTo (t : ActionTable) (s : StateId) : (t.extendTo s).stateCount = max t.stateCount (s + 1) := by
  rw [stateCount, extendTo, Array.size_append, Array.size_replicate, stateCount]
  lia

theorem stateCount_put (t : ActionTable) (s : StateId) (x : Symbol) (a : Action) :
    (t.put s x a).2.stateCount = max t.stateCount (s + 1) := by
  rw [← stateCount_extendTo]
  cases hget : t.get? s x with
  | none =>
      rw [put_of_get?_eq_none hget]
      exact Array.size_modify
  | some e => rw [put_of_get?_eq_some hget, extendTo_of_get? hget]

theorem size_eq_sum (t : ActionTable) : t.size = (t.rows.toList.map List.length).sum := by
  rw [size, ← Array.foldl_toList, List.sum_eq_foldl, List.foldl_map]

theorem size_extendTo (t : ActionTable) (s : StateId) : (t.extendTo s).size = t.size := by
  rw [size_eq_sum, size_eq_sum, extendTo, Array.toList_append, Array.toList_replicate, List.map_append,
    List.sum_append, List.map_replicate, List.length_nil, List.sum_replicate]
  rfl

theorem sum_length_modify {rows : List Row} {f : Row → Row} (hf : ∀ row, (f row).length = row.length + 1)
    (hs : s < rows.length) : ((rows.modify s f).map List.length).sum = (rows.map List.length).sum + 1 := by
  induction rows generalizing s with
  | nil => exact absurd hs (Nat.not_lt_zero s)
  | cons row rows ih =>
      cases s with
      | zero =>
          rw [List.modify_zero_cons, List.map_cons, List.sum_cons, List.map_cons, List.sum_cons, hf]
          lia
      | succ s =>
          rw [List.modify_succ_cons, List.map_cons, List.sum_cons, List.map_cons, List.sum_cons,
            ih (Nat.lt_of_succ_lt_succ hs)]
          lia

theorem size_put (t : ActionTable) (s : StateId) (x : Symbol) (a : Action) :
    (t.put s x a).2.size = if (t.get? s x).isSome then t.size else t.size + 1 := by
  cases hget : t.get? s x with
  | none =>
      have hlt : s < (t.extendTo s).rows.toList.length := by
        have hcount := stateCount_extendTo t s
        rw [stateCount] at hcount
        rw [Array.length_toList]
        lia
      rw [put_of_get?_eq_none hget, size_eq_sum, Array.toList_modify,
        sum_length_modify (fun row => Row.length_insert) hlt, ← size_eq_sum, size_extendTo]
      rfl
  | some e => rw [put_of_get?_eq_some hget, Option.isSome_some, if_pos rfl]

theorem ascending_of_replicate {n : Nat} {row : Row} (h : (Array.replicate n ([] : Row))[s]? = some row) :
    row.Ascending := by
  rw [Array.getElem?_replicate] at h
  obtain ⟨-, h⟩ := Option.ite_none_right_eq_some.mp h
  rw [← Option.some.inj h]
  exact List.Pairwise.nil

theorem Ordered.extendTo (h : t.Ordered) (s : StateId) : (t.extendTo s).Ordered := by
  intro s' row hrow
  rw [row?, ActionTable.extendTo, Array.getElem?_append] at hrow
  split at hrow
  · exact h s' row hrow
  · exact ascending_of_replicate hrow

theorem Ordered.put (h : t.Ordered) (s : StateId) (x : Symbol) (a : Action) : (t.put s x a).2.Ordered := by
  cases hget : t.get? s x with
  | none =>
      have hfree := (t.get?_extendTo s s x).trans hget
      intro s' row hrow
      rw [put_of_get?_eq_none hget, row?, Array.getElem?_modify] at hrow
      split at hrow
      · subst s'
        obtain ⟨row', hrow', rfl⟩ := Option.map_eq_some_iff.mp hrow
        rw [get?, hrow'] at hfree
        exact (h.extendTo s s row' hrow').insert hfree a
      · exact h.extendTo s s' row hrow
  | some e =>
      rw [put_of_get?_eq_some hget]
      exact h

end Put

/-! ### Many writes -/

theorem stateCount_foldl_perform (l : List Demand) (t : ActionTable) :
    (l.foldl perform t).stateCount = (l.map (·.state + 1)).foldl max t.stateCount := by
  induction l generalizing t with
  | nil => rfl
  | cons d l ih => rw [List.foldl_cons, ih, perform, stateCount_put, List.map_cons, List.foldl_cons]

theorem Ordered.foldl_perform {t : ActionTable} (h : t.Ordered) (l : List Demand) : (l.foldl perform t).Ordered := by
  induction l generalizing t with
  | nil => exact h
  | cons d l ih => exact ih (h.put d.state d.symbol d.action)

theorem ordered_ofStates (count : Nat) : (ofStates count).Ordered := fun _ _ hrow => ascending_of_replicate hrow

theorem size_ofStates (count : Nat) : (ofStates count).size = 0 := by
  rw [size_eq_sum, ofStates, Array.toList_replicate, List.map_replicate, List.length_nil, List.sum_replicate]
  rfl

/-- Of some demands, the first that is about the entry asks for the action. -/
def IsFirst (l : List Demand) (s : StateId) (x : Symbol) (a : Action) : Prop :=
  ∃ before after, l = before ++ ⟨s, x, a⟩ :: after ∧ ∀ d ∈ before, ¬ (d.state = s ∧ d.symbol = x)

theorem get?_ofDemands_eq_some_iff {count : Nat} {l : List Demand} {s : StateId} {x : Symbol} {a : Action} :
    (ofDemands count l).get? s x = some a ↔ IsFirst l s x a := by
  rw [get?_ofDemands, List.findSome?_eq_some_iff]
  constructor
  · rintro ⟨before, d, after, rfl, hd, hbefore⟩
    obtain rfl := ParseTable.Demand.at?_eq_some_iff.mp hd
    exact ⟨before, after, rfl, fun d hd => ParseTable.Demand.at?_eq_none_iff.mp (hbefore d hd)⟩
  · rintro ⟨before, after, rfl, hbefore⟩
    exact ⟨before, _, after, rfl, ParseTable.Demand.at?_eq_some_iff.mpr rfl,
      fun d hd => ParseTable.Demand.at?_eq_none_iff.mpr (hbefore d hd)⟩

theorem get?_ofDemands_eq_none_iff {count : Nat} {l : List Demand} {s : StateId} {x : Symbol} :
    (ofDemands count l).get? s x = none ↔ ∀ d ∈ l, ¬ (d.state = s ∧ d.symbol = x) := by
  rw [get?_ofDemands, List.findSome?_eq_none_iff]
  exact forall_congr' fun d => imp_congr_right fun _ => ParseTable.Demand.at?_eq_none_iff

theorem ofDemands_concat (count : Nat) (l : List Demand) (d : Demand) :
    ofDemands count (l ++ [d]) = (ofDemands count l).perform d := by
  rw [ofDemands, List.foldl_concat, ofDemands]

theorem isSome_get?_ofDemands_iff {count : Nat} {l : List Demand} {s : StateId} {x : Symbol} :
    ((ofDemands count l).get? s x).isSome ↔ (s, x) ∈ (l.map fun d => (d.state, d.symbol)).toFinset := by
  rw [← Option.ne_none_iff_isSome, Ne, get?_ofDemands_eq_none_iff]
  simp

/-- There is one entry for each place that has been written to. -/
theorem size_ofDemands (count : Nat) (l : List Demand) :
    (ofDemands count l).size = (l.map fun d => (d.state, d.symbol)).toFinset.card := by
  induction l using List.reverseRecOn with
  | nil => exact size_ofStates count
  | append_singleton l d ih =>
      have hkeys : ((l ++ [d]).map fun d => (d.state, d.symbol)).toFinset =
          insert (d.state, d.symbol) (l.map fun d => (d.state, d.symbol)).toFinset := by
        ext
        simp
      rw [ofDemands_concat, perform, size_put, ih, hkeys]
      split
      · rw [Finset.insert_eq_of_mem (isSome_get?_ofDemands_iff.mp ‹_›)]
      · rename_i hnew
        rw [Finset.card_insert_of_notMem fun hmem => hnew (isSome_get?_ofDemands_iff.mpr hmem)]

/-- A table after any writes, one after the other, to one in which some states have empty rows. An entry holds the
action of the first write to it, and nothing if there was none. The next write, whatever it is, comes to a conflict
if that action is another one. The conflict tells the entry and both actions, and the table is as before. There are
rows up to the greatest state, at least as many as at the beginning, and one entry for each place that has been
written to. In each row the symbols ascend. -/
theorem first_write_wins (count : Nat) (l : List Demand) :
    (∀ s x a, (ofDemands count l).get? s x = some a ↔ IsFirst l s x a) ∧
    (∀ s x, (ofDemands count l).get? s x = none ↔ ∀ d ∈ l, ¬ (d.state = s ∧ d.symbol = x)) ∧
    (∀ s x a c, ((ofDemands count l).put s x a).1 = .error c ↔
      ∃ first, IsFirst l s x first ∧ first ≠ a ∧ c = ⟨s, x, first, a⟩) ∧
    (∀ s x a c, ((ofDemands count l).put s x a).1 = .error c →
      ((ofDemands count l).put s x a).2 = ofDemands count l) ∧
    (ofDemands count l).stateCount = (l.map (·.state + 1)).foldl max count ∧
    (ofDemands count l).size = (l.map fun d => (d.state, d.symbol)).toFinset.card ∧
    ∀ s row, (ofDemands count l).row? s = some row → row.Pairwise fun e e' => e.1 < e'.1 := by
  refine ⟨fun s x a => get?_ofDemands_eq_some_iff, fun s x => get?_ofDemands_eq_none_iff, fun s x a c => ?_,
    fun s x a c => put_of_error, ?_, size_ofDemands count l, (ordered_ofStates count).foldl_perform l⟩
  · rw [put_eq_error_iff]
    exact exists_congr fun first => and_congr_left fun _ => get?_ofDemands_eq_some_iff
  · rw [ofDemands, stateCount_foldl_perform, stateCount, ofStates, Array.size_replicate]

/-- Some writes of which one lies beyond the last row, one is repeated and one finds its entry taken. -/
def clashingDemands : List Demand :=
  [⟨0, 5, .shift 1⟩, ⟨3, 2, .reduce 1⟩, ⟨0, 1, .goto 2⟩, ⟨0, 5, .shift 1⟩, ⟨3, 2, .accept⟩]

theorem first_write_wins_clashing :
    (ofDemands 1 clashingDemands).get? 3 2 = some (.reduce 1) ∧
    ((ofDemands 1 clashingDemands).put 0 1 (.reduce 7)).1 = .error ⟨0, 1, .goto 2, .reduce 7⟩ ∧
    ((ofDemands 1 clashingDemands).put 0 1 (.reduce 7)).2 = ofDemands 1 clashingDemands ∧
    (ofDemands 1 clashingDemands).stateCount = 4 ∧ (ofDemands 1 clashingDemands).size = 3 ∧
    (ofDemands 1 clashingDemands).row? 0 = some [(1, .goto 2), (5, .shift 1)] ∧
    List.Pairwise (fun e e' => e.1 < e'.1) [(1, Action.goto 2), (5, .shift 1)] := by
  obtain ⟨hfirst, -, hclash, hsame, hcount, hsize, hordered⟩ := first_write_wins 1 clashingDemands
  have hgoto : IsFirst clashingDemands 0 1 (.goto 2) :=
    ⟨[⟨0, 5, .shift 1⟩, ⟨3, 2, .reduce 1⟩], [⟨0, 5, .shift 1⟩, ⟨3, 2, .accept⟩], rfl, by decide⟩
  have hreduce : IsFirst clashingDemands 3 2 (.reduce 1) := ⟨[⟨0, 5, .shift 1⟩], _, rfl, by decide⟩
  have herror : ((ofDemands 1 clashingDemands).put 0 1 (.reduce 7)).1 = .error ⟨0, 1, .goto 2, .reduce 7⟩ :=
    (hclash 0 1 (.reduce 7) _).mpr ⟨.goto 2, hgoto, by decide, rfl⟩
  have hrow : (ofDemands 1 clashingDemands).row? 0 = some [(1, .goto 2), (5, .shift 1)] := by cbv
  exact ⟨(hfirst 3 2 _).mpr hreduce, herror, hsame 0 1 _ _ herror, hcount.trans (by decide), hsize.trans (by decide),
    hrow, hordered 0 _ hrow⟩

end ActionTable

end ShiftReduce
