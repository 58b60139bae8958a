import Mathlib.Logic.Relation
import ShiftReduce.Search

/-! What a search finds: the elements that can be reached from the seeds by going from an element to
its successors, and no others. If no visit fails, every element has been visited, and what was made of
it stands at its number. -/

namespace ShiftReduce

namespace Search

variable {ε α β : Type} {visit : α → Except ε (β × List α)}

/-- The visit of `a` tells of `b`. -/
def Leads (visit : α → Except ε (β × List α)) (a b : α) : Prop := b ∈ successors visit a

theorem leads_iff {a b : α} : Leads visit a b ↔ ∃ c l, visit a = .ok (c, l) ∧ b ∈ l := by
  unfold Leads successors told
  cases hv : visit a with
  | error e => simp
  | ok r =>
      obtain ⟨c, l⟩ := r
      constructor
      · exact fun h => ⟨c, l, rfl, h⟩
      · rintro ⟨c', l', h, hb⟩
        cases h
        exact hb

variable [Ord α] [Std.TransOrd α] [Std.LawfulEqOrd α] {hfin : FiniteRange (successors visit)}

/-- The first elements have been visited, and their successors have been found. -/
structure Explored (visit : α → Except ε (β × List α)) (found : Numbering α) (visited : Array β) : Prop where
  le : visited.size ≤ found.elems.size
  visited : ∀ n a, n < visited.size → found.elems[n]? = some a →
    ∃ b l, visit a = .ok (b, l) ∧ visited[n]? = some b ∧ ∀ c ∈ l, c ∈ found

/-- A visit puts what it tells at the end of what has been found, so what was visited before keeps its place. -/
theorem Explored.step {found : Numbering α} {visited : Array β} (h : Explored visit found visited)
    (hlt : visited.size < found.elems.size) {b : β} {l : List α}
    (hv : visit found.elems[visited.size] = .ok (b, l)) :
    Explored visit (l.foldl .add found) (visited.push b) := by
  have hstays : ∀ {n : Nat} {a : α}, found.elems[n]? = some a → (l.foldl .add found).elems[n]? = some a :=
    Numbering.getElem?_foldl_add
  have hlast := hstays (Array.getElem?_eq_getElem hlt)
  constructor
  · rw [Array.size_push]
    exact (Array.getElem?_eq_some_iff.mp hlast).1
  · intro n a hn ha
    rw [Array.size_push] at hn
    by_cases heq : n = visited.size
    · subst heq
      obtain rfl := Option.some.inj (hlast.symm.trans ha)
      exact ⟨b, l, hv, by simp, fun c hc => Numbering.mem_foldl_add.mpr (Or.inr hc)⟩
    · have hbefore : n < visited.size := by omega
      have hn' := Array.getElem?_eq_getElem (Nat.lt_trans hbefore hlt)
      obtain rfl := Option.some.inj ((hstays hn').symm.trans ha)
      obtain ⟨b', l', hv', hb', hl'⟩ := h.visited n _ hbefore hn'
      refine ⟨b', l', hv', ?_, fun c hc => Numbering.mem_foldl_add.mpr (Or.inl (hl' c hc))⟩
      rw [Array.getElem?_push_lt hbefore, ← hb', Array.getElem?_eq_getElem hbefore]

theorem explored_explore {found : Numbering α} {visited : Array β} (h : Explored visit found visited) :
    Explored visit (explore visit hfin found visited).found (explore visit hfin found visited).visited := by
  fun_induction explore visit hfin found visited with
  | case1 => exact h
  | case2 found visited hlt r b l hv ih =>
      refine ih ?_
      rw [hv]
      exact h.step hlt hv
  | case3 => exact h

/-- What has a number keeps it. -/
theorem getElem?_explore {found : Numbering α} {visited : Array β} {n : Nat} {a : α}
    (h : found.elems[n]? = some a) : (explore visit hfin found visited).found.elems[n]? = some a := by
  fun_induction explore visit hfin found visited with
  | case1 => exact h
  | case2 found visited hlt r b l hv ih => exact ih (Numbering.getElem?_foldl_add h)
  | case3 => exact h

/-- Nothing is left unvisited unless a visit has failed. -/
theorem size_le_of_fault?_explore {found : Numbering α} {visited : Array β}
    (h : (explore visit hfin found visited).fault? = none) :
    (explore visit hfin found visited).found.elems.size ≤ (explore visit hfin found visited).visited.size := by
  fun_induction explore visit hfin found visited with
  | case1 => simp at h
  | case2 found visited hlt r b l hv ih => exact ih h
  | case3 found visited hle => exact Nat.not_lt.mp hle

/-- The search ends early only with the error of an element that it has found. -/
theorem exists_of_fault?_explore {found : Numbering α} {visited : Array β} {e : ε}
    (h : (explore visit hfin found visited).fault? = some e) :
    ∃ a ∈ (explore visit hfin found visited).found, visit a = .error e := by
  fun_induction explore visit hfin found visited with
  | case1 found visited hlt r e' hv =>
      obtain rfl := Option.some.inj h
      exact ⟨_, Array.getElem_mem hlt, hv⟩
  | case2 found visited hlt r b l hv ih => exact ih h
  | case3 => cases h

/-- Nothing is found without being reached, and this does not depend on whether a visit fails. -/
theorem reached_of_mem_explore {found : Numbering α} {visited : Array β} {a : α}
    (h : a ∈ (explore visit hfin found visited).found) :
    ∃ b ∈ found, Relation.ReflTransGen (Leads visit) b a := by
  fun_induction explore visit hfin found visited with
  | case1 => exact ⟨a, h, .refl⟩
  | case2 found visited hlt r b l hv ih =>
      obtain ⟨c, hc, hreach⟩ := ih h
      rcases Numbering.mem_foldl_add.mp hc with hc | hc
      · exact ⟨c, hc, hreach⟩
      · exact ⟨_, Array.getElem_mem hlt, .head hc hreach⟩
  | case3 => exact ⟨a, h, .refl⟩

/-! ### Searches from seeds -/

variable {seeds : List α}

theorem explored_run : Explored visit (run visit hfin seeds).found (run visit hfin seeds).visited :=
  explored_explore ⟨Nat.zero_le _, fun _ _ hn _ => absurd hn (Nat.not_lt_zero _)⟩

theorem mem_run_of_mem {a : α} (h : a ∈ seeds) : a ∈ (run visit hfin seeds).found := by
  obtain ⟨n, hn⟩ := Array.mem_iff_getElem?.mp (Numbering.mem_ofList.mpr h)
  exact Array.mem_of_getElem? (getElem?_explore hn)

/-- Every visited element has left what was made of it at its number. -/
theorem visited_run (hfault : (run visit hfin seeds).fault? = none) {n : Nat} {a : α}
    (h : (run visit hfin seeds).found.elems[n]? = some a) :
    ∃ b l, visit a = .ok (b, l) ∧ (run visit hfin seeds).visited[n]? = some b ∧
      ∀ c ∈ l, c ∈ (run visit hfin seeds).found := by
  have hlt := (Array.getElem?_eq_some_iff.mp h).1
  exact explored_run.visited n a (Nat.lt_of_lt_of_le hlt (size_le_of_fault?_explore hfault)) h

theorem size_visited_run (hfault : (run visit hfin seeds).fault? = none) :
    (run visit hfin seeds).visited.size = (run visit hfin seeds).found.elems.size :=
  Nat.le_antisymm explored_run.le (size_le_of_fault?_explore hfault)

theorem reached_of_mem_run {a : α} (h : a ∈ (run visit hfin seeds).found) :
    ∃ b ∈ seeds, Relation.ReflTransGen (Leads visit) b a := by
  obtain ⟨b, hb, hreach⟩ := reached_of_mem_explore h
  exact ⟨b, Numbering.mem_ofList.mp hb, hreach⟩

/-- A search that does not fail finds what can be reached from its seeds. -/
theorem mem_run_iff (hfault : (run visit hfin seeds).fault? = none) {a : α} :
    a ∈ (run visit hfin seeds).found ↔ ∃ b ∈ seeds, Relation.ReflTransGen (Leads visit) b a := by
  constructor
  · exact reached_of_mem_run
  · rintro ⟨b, hb, hreach⟩
    induction hreach with
    | refl => exact mem_run_of_mem hb
    | tail _ hlead ih =>
        obtain ⟨n, hn⟩ := Array.mem_iff_getElem?.mp ih
        obtain ⟨c, l, hv, _, hl⟩ := visited_run hfault hn
        obtain ⟨c', l', hv', hmem⟩ := leads_iff.mp hlead
        rw [hv] at hv'
        cases hv'
        exact hl _ hmem

theorem exists_of_fault?_run {e : ε} (h : (run visit hfin seeds).fault? = some e) :
    ∃ a, (∃ b ∈ seeds, Relation.ReflTransGen (Leads visit) b a) ∧ visit a = .error e := by
  obtain ⟨a, ha, hv⟩ := exists_of_fault?_explore h
  exact ⟨a, reached_of_mem_run ha, hv⟩

end Search

/-- If the visits cannot fail, the search finds exactly what can be reached. -/
theorem mem_reach_iff {α : Type} [Ord α] [Std.TransOrd α] [Std.LawfulEqOrd α] {next : α → List α}
    {hfin : FiniteRange next} {seeds : List α} {a : α} :
    a ∈ reach next hfin seeds ↔ ∃ b ∈ seeds, Relation.ReflTransGen (fun a b => b ∈ next a) b a := by
  have hfault : (Search.run (ε := Empty) (fun a => .ok ((), next a)) hfin seeds).fault? = none :=
    Option.eq_none_iff_forall_not_mem.mpr fun e _ => e.elim
  rw [reach, Numbering.toList, Array.mem_toList_iff, ← Numbering.mem_def, Search.mem_run_iff hfault]
  rfl

end ShiftReduce
