import Mathlib.Computability.Primrec.List
import Mathlib.Data.List.TakeWhile
import ShiftReduce.ParseTable
import ShiftReduce.Proofs.Automaton

-- `cbv` looks up entries by the equations of `List.lookup` in `Primrec.List`.

/-! The entries of a table of actions after writes that come one after the other. A write that finds its entry taken
leaves the table as it was, and one that finds it free changes this entry only. So an entry holds what was written
there first. -/

namespace ShiftReduce

/-! ### Demands -/

/-- What a demand asks for in an entry, if it is about that entry. -/
def ParseTable.Demand.at? (d : Demand) (s : StateId) (x : Symbol) : Option Action :=
  if s = d.state ∧ x = d.symbol then some d.action else none

theorem ParseTable.Demand.at?_eq_some_iff {d : Demand} {s : StateId} {x : Symbol} {a : Action} :
    Demand.at? d s x = some a ↔ d = ⟨s, x, a⟩ := by
  obtain ⟨s', x', a'⟩ := d
  unfold Demand.at?
  simp only [Option.ite_none_right_eq_some, Option.some.injEq, Demand.mk.injEq]
  constructor
  · rintro ⟨⟨rfl, rfl⟩, rfl⟩
    exact ⟨rfl, rfl, rfl⟩
  · rintro ⟨rfl, rfl, rfl⟩
    exact ⟨⟨rfl, rfl⟩, rfl⟩

theorem ParseTable.Demand.at?_eq_none_iff {d : Demand} {s : StateId} {x : Symbol} :
    Demand.at? d s x = none ↔ ¬ (d.state = s ∧ d.symbol = x) := by
  rw [eq_comm (a := d.state), eq_comm (a := d.symbol)]
  unfold Demand.at?
  split <;> simp [*]

/-! ### Rows -/

theorem Row.lookup_cons (x y : Symbol) (b : Action) (row : Row) :
    List.lookup x ((y, b) :: row) = if x = y then some b else row.lookup x := by
  rw [List.lookup_cons]
  by_cases h : x = y
  · rw [if_pos h, beq_iff_eq.mpr h]
  · rw [if_neg h, beq_false_of_ne h]

theorem Row.lookup_insert {row : Row} {s : Symbol} (h : row.lookup s = none) (a : Action) (x : Symbol) :
    (Row.insert s a row).lookup x = if x = s then some a else row.lookup x := by
  induction row with
  | nil => exact Row.lookup_cons x s a []
  | cons e row ih =>
      obtain ⟨y, b⟩ := e
      rw [Row.lookup_cons] at h
      unfold Row.insert
      split
      · exact Row.lookup_cons x s a _
      · split at h
        · cases h
        · rename_i hne
          rw [Row.lookup_cons, Row.lookup_cons, ih h]
          by_cases hx : x = y
          · rw [if_pos hx, if_pos hx, if_neg fun heq => hne (heq.symm.trans hx)]
          · rw [if_neg hx, if_neg hx]

namespace ActionTable

/-! ### One write -/

section Put

variable {t : ActionTable} {s : StateId} {x : Symbol} {a : Action}

theorem get?_extendTo (t : ActionTable) (n : Nat) (s : StateId) (x : Symbol) :
    (t.extendTo n).get? s x = t.get? s x := by
  rw [get?, extendTo, Array.getElem?_append]
  split
  · rfl
  · rename_i hlt
    rw [get?, Array.getElem?_eq_none (Nat.not_lt.mp hlt), Array.getElem?_replicate]
    split <;> rfl

/-- A row that holds something is there already. -/
theorem extendTo_of_get? {e : Action} (h : t.get? s x = some e) : t.extendTo s = t := by
  have hlt : s < t.rows.size := by
    obtain ⟨_, hrow, _⟩ := Option.bind_eq_some_iff.mp h
    exact (Array.getElem?_eq_some_iff.mp hrow).1
  rw [extendTo, Nat.sub_eq_zero_of_le hlt, Array.replicate_zero, Array.append_empty]

theorem put_of_get?_eq_none (h : t.get? s x = none) (a : Action) :
    t.put s x a = (.ok (), ⟨(t.extendTo s).rows.modify s (Row.insert x a)⟩) := by
  rw [put, t.get?_extendTo, h]

/-- An entry that is taken stays, and so does the rest of the table. -/
theorem put_of_get?_eq_some {e : Action} (h : t.get? s x = some e) (a : Action) :
    t.put s x a = (if e = a then .ok () else .error ⟨s, x, e, a⟩, t) := by
  rw [put, extendTo_of_get? h, h]

theorem set_of_get?_eq_none (h : t.get? s x = none) (a : Action) : t.set s x a = .ok (t.put s x a).2 := by
  rw [set, put_of_get?_eq_none h]

theorem set_of_get?_eq_some {e : Action} (h : t.get? s x = some e) (a : Action) :
    t.set s x a = if e = a then .ok t else .error ⟨s, x, e, a⟩ := by
  rw [set, put_of_get?_eq_some h]
  by_cases he : e = a
  · rw [if_pos he, if_pos he]
  · rw [if_neg he, if_neg he]

/-- A write to a free entry changes this entry only. -/
theorem get?_put_of_get?_eq_none (h : t.get? s x = none) (a : Action) (s' : StateId) (x' : Symbol) :
    (t.put s x a).2.get? s' x' = if s' = s ∧ x' = x then some a else t.get? s' x' := by
  have hfree := (t.get?_extendTo s s x).trans h
  rw [put_of_get?_eq_none h, ← t.get?_extendTo s s' x']
  unfold get? at hfree ⊢
  dsimp only
  rw [Array.getElem?_modify]
  by_cases hs : s = s'
  · subst hs
    have hlt : s < (t.extendTo s).rows.size := by
      simp only [extendTo, Array.size_append, Array.size_replicate]
      lia
    rw [Array.getElem?_eq_getElem hlt] at hfree ⊢
    rw [if_pos rfl]
    change (Row.insert x a _).lookup x' = if s = s ∧ x' = x then _ else _
    rw [Row.lookup_insert hfree]
    simp
  · simp [hs, Ne.symm hs]

theorem get?_put (t : ActionTable) (s : StateId) (x : Symbol) (a : Action) (s' : StateId) (x' : Symbol) :
    (t.put s x a).2.get? s' x' = (t.get? s' x').or (if s' = s ∧ x' = x then some a else none) := by
  cases hget : t.get? s x with
  | none =>
      rw [get?_put_of_get?_eq_none hget]
      split
      · rename_i heq
        rw [heq.1, heq.2, hget, Option.none_or]
      · rw [Option.or_none]
  | some e =>
      rw [put_of_get?_eq_some hget]
      dsimp only
      split
      · rename_i heq
        rw [heq.1, heq.2, hget, Option.some_or]
      · rw [Option.or_none]

/-- A write is refused if the entry is taken by another action. -/
theorem put_eq_error_iff {c : Conflict} :
    (t.put s x a).1 = .error c ↔ ∃ e, t.get? s x = some e ∧ e ≠ a ∧ c = ⟨s, x, e, a⟩ := by
  cases hget : t.get? s x with
  | none => simp [put_of_get?_eq_none hget]
  | some e =>
      rw [put_of_get?_eq_some hget]
      by_cases he : e = a
      · simp [he]
      · rw [if_neg he, Except.error.injEq]
        constructor
        · rintro rfl
          exact ⟨e, rfl, he, rfl⟩
        · rintro ⟨e', he', -, rfl⟩
          rw [Option.some.inj he']

/-- A write that is refused changes nothing. -/
theorem put_of_error {c : Conflict} (h : (t.put s x a).1 = .error c) : (t.put s x a).2 = t := by
  obtain ⟨e, hget, -⟩ := put_eq_error_iff.mp h
  rw [put_of_get?_eq_some hget]

end Put

/-! ### Many writes -/

/-- The table that is left by a demand, whether it can be met or not. -/
def perform (t : ActionTable) (d : Demand) : ActionTable := (t.put d.state d.symbol d.action).2

/-- The table that is left by some demands, if it begins with so many rows. -/
def ofDemands (count : Nat) (l : List Demand) : ActionTable := l.foldl perform (.ofStates count)

theorem get?_foldl_perform (l : List Demand) (t : ActionTable) (s : StateId) (x : Symbol) :
    (l.foldl perform t).get? s x = (t.get? s x).or (l.findSome? (ParseTable.Demand.at? · s x)) := by
  induction l generalizing t with
  | nil => rw [List.foldl_nil, List.findSome?_nil, Option.or_none]
  | cons d l ih =>
      rw [List.foldl_cons, ih, perform, get?_put, Option.or_assoc, List.findSome?_cons, ParseTable.Demand.at?]
      split <;> rfl

theorem get?_ofStates (count : Nat) (s : StateId) (x : Symbol) : (ofStates count).get? s x = none := by
  rw [get?, ofStates, Array.getElem?_replicate]
  split <;> rfl

theorem get?_ofDemands (count : Nat) (l : List Demand) (s : StateId) (x : Symbol) :
    (ofDemands count l).get? s x = l.findSome? (ParseTable.Demand.at? · s x) := by
  rw [ofDemands, get?_foldl_perform, get?_ofStates, Option.none_or]

end ActionTable

end ShiftReduce
