import ShiftReduce.Proofs.Failure
import ShiftReduce.Proofs.Rounds

/-! The states found as item sets. The search for the states goes from kernel to kernel and closes a kernel when it is
visited. It may as well go from item set to item set, and close the kernels of a state as soon as they are told. Kernels
are told apart by their closures, whatever the grammar, so an item set is new if and only if its kernel is. Hence both
searches number alike as long as every kernel can be closed, and the first kernel that cannot be closed ends both of
them, with the same fault. -/

namespace ShiftReduce

variable {g : Grammar}

namespace Numbering

variable {α : Type} [Ord α] [Std.TransOrd α] [Std.LawfulEqOrd α]

theorem elems_ofList_singleton (a : α) : (ofList [a]).elems = #[a] := by
  rw [ofList, List.foldl_cons, List.foldl_nil, elems_add, if_neg not_mem_empty]
  rfl

end Numbering

namespace Search

variable {ε α β : Type} {visit : α → Except ε (β × List α)} [Ord α] [Std.TransOrd α] [Std.LawfulEqOrd α]
  {hfin : FiniteRange (successors visit)}

/-- A search ends with the failure of the first element whose visit fails. -/
theorem fault?_explore_of_first {found : Numbering α} {visited : Array β} {m : Nat} {a : α} {e : ε}
    (ha : found.elems[m]? = some a) (hv : visit a = .error e)
    (hbefore : ∀ q < m, ∀ b, found.elems[q]? = some b → ∃ r, visit b = .ok r) (hle : visited.size ≤ m) :
    (explore visit hfin found visited).fault? = some e := by
  have hm := (Array.getElem?_eq_some_iff.mp ha).1
  fun_induction explore visit hfin found visited with
  | case1 found visited hlt r e' hv' =>
      have hget := Array.getElem?_eq_getElem hlt
      rcases Nat.lt_or_eq_of_le hle with hlt' | rfl
      · obtain ⟨r', hr'⟩ := hbefore visited.size hlt' _ hget
        cases hv'.symm.trans hr'
      · obtain rfl := Option.some.inj (hget.symm.trans ha)
        exact congrArg some (Except.error.inj (hv'.symm.trans hv))
  | case2 found visited hlt r b l hv' ih =>
      have hget := Array.getElem?_eq_getElem hlt
      have hne : visited.size ≠ m := by
        rintro rfl
        obtain rfl := Option.some.inj (hget.symm.trans ha)
        cases hv'.symm.trans hv
      have ha' := Numbering.getElem?_foldl_add (l := told r) ha
      refine ih ha' ?_ ?_ (Array.getElem?_eq_some_iff.mp ha').1
      · intro q hq c hc
        have hold := Array.getElem?_eq_getElem (Nat.lt_trans hq hm)
        obtain rfl := Option.some.inj ((Numbering.getElem?_foldl_add hold).symm.trans hc)
        exact hbefore q hq _ hold
      · rw [Array.size_push]
        omega
  | case3 found visited hle' => exact absurd (Nat.lt_of_le_of_lt hle hm) hle'

end Search

/-! ### Kernels of any grammar -/

/-- The kernel of the start item, or some items whose dots have been moved. -/
def IsKernel (g : Grammar) (k : ItemSet) : Prop :=
  k = Automaton.startKernel g ∨ (∃ i, i ∈ k) ∧ ∀ i ∈ k, 0 < i.dot

theorem isKernel_of_kernel? {items k : ItemSet} {s : Symbol} (h : kernel? g items s = some k) : IsKernel g k :=
  Or.inr ⟨exists_mem_of_kernel? h, fun _ hi => Automaton.dot_pos_of_mem_kernel? h hi⟩

/-- The closure of the start item has no dot further on. -/
theorem not_mem_closure_startKernel {items : ItemSet} (h : closure g (Automaton.startKernel g).toList = .ok items)
    {i : Item} (hdot : 0 < i.dot) : i ∉ items := by
  intro hi
  rw [Automaton.mem_startKernel.mp (mem_seeds_of_dot_pos h hi hdot)] at hdot
  exact absurd hdot (Nat.lt_irrefl 0)

theorem IsKernel.eq_of_closure_eq {k k' items : ItemSet} (hk : IsKernel g k) (hk' : IsKernel g k')
    (h : closure g k.toList = .ok items) (h' : closure g k'.toList = .ok items) : k = k' := by
  rcases hk with rfl | ⟨⟨i, hi⟩, hdots⟩ <;> rcases hk' with rfl | ⟨⟨i', hi'⟩, hdots'⟩
  · rfl
  · exact absurd (mem_closure_of_mem h' hi') (not_mem_closure_startKernel h (hdots' i' hi'))
  · exact absurd (mem_closure_of_mem h hi) (not_mem_closure_startKernel h' (hdots i hi))
  · apply OrderedSet.ext_mem
    intro j
    constructor
    · exact fun hj => mem_seeds_of_dot_pos h' (mem_closure_of_mem h hj) (hdots j hj)
    · exact fun hj => mem_seeds_of_dot_pos h (mem_closure_of_mem h' hj) (hdots' j hj)

/-! ### Item sets and kernels side by side -/

/-- The item set of a transition, if there is one. -/
def tellState (g : Grammar) (items : ItemSet) (s : Symbol) : Except TableError (List ItemSet) :=
  (successor g items s).map fun next => if next.isEmpty then [] else [next]

/-- The item sets that one symbol leads to, in the order of the symbols. -/
def tellStates (g : Grammar) (items : ItemSet) : Except TableError (List ItemSet) :=
  collect (tellState g items) g.symbols

theorem isEmpty_eq_false_of_mem {items : ItemSet} {i : Item} (hi : i ∈ items) : items.isEmpty = false := by
  rw [OrderedSet.isEmpty, Array.isEmpty_eq_false_iff]
  intro hempty
  rw [OrderedSet.mem_def, OrderedSet.toList, hempty] at hi
  cases hi

section Tell

variable {items : ItemSet} (hfault : ∀ i ∈ items, i.fault? g = none)

include hfault

theorem tellState_of_none {s : Symbol} (hkernel : kernel? g items s = none) : tellState g items s = .ok [] := by
  rw [tellState, successor_eq hfault, hkernel]
  rfl

theorem tellState_of_error {s : Symbol} {k : ItemSet} {e : TableError} (hkernel : kernel? g items s = some k)
    (hclosure : closure g k.toList = .error e) : tellState g items s = .error e := by
  rw [tellState, successor_eq hfault, hkernel]
  simp only [hclosure]
  rfl

theorem tellState_of_ok {s : Symbol} {k next : ItemSet} (hkernel : kernel? g items s = some k)
    (hclosure : closure g k.toList = .ok next) : tellState g items s = .ok [next] := by
  obtain ⟨i, hi⟩ := exists_mem_of_kernel? hkernel
  have hnext := isEmpty_eq_false_of_mem (mem_closure_of_mem hclosure hi)
  rw [tellState, successor_eq hfault, hkernel]
  simp only [hclosure, Except.map, hnext, Bool.false_eq_true, if_false]

end Tell

/-- The item sets are the closures of the kernels, number by number. -/
structure ClosedBy (g : Grammar) (kernels states : Numbering ItemSet) : Prop where
  isKernel : ∀ k ∈ kernels, IsKernel g k
  size : states.elems.size = kernels.elems.size
  closes : ∀ (q : StateId) (k : ItemSet), kernels.elems[q]? = some k →
    ∃ items, closure g k.toList = .ok items ∧ states.elems[q]? = some items

/-- Of the kernels, the first that cannot be closed fails with `e`. -/
def FailsFirst (g : Grammar) (kernels : Numbering ItemSet) (e : TableError) : Prop :=
  ∃ (m : StateId) (k : ItemSet), kernels.elems[m]? = some k ∧ closure g k.toList = .error e ∧
    ∀ q < m, ∀ k', kernels.elems[q]? = some k' → ∃ items, closure g k'.toList = .ok items

theorem FailsFirst.singleton {k : ItemSet} {e : TableError} (h : closure g k.toList = .error e) :
    FailsFirst g (.ofList [k]) e := by
  refine ⟨0, k, ?_, h, fun q hq => absurd hq (Nat.not_lt_zero q)⟩
  rw [Numbering.elems_ofList_singleton]
  rfl

/-- The search over kernels ends with the first kernel that cannot be closed. -/
theorem FailsFirst.fault?_explore {kernels : Numbering ItemSet} {e : TableError} (h : FailsFirst g kernels e)
    (visited : Array ItemSet) (hvisited : ∀ q < visited.size, ∀ k, kernels.elems[q]? = some k →
      ∃ items, closure g k.toList = .ok items) :
    (Search.explore (Automaton.visit g) (Automaton.finiteRange_visit g) kernels visited).fault? = some e := by
  obtain ⟨m, k, hm, herror, hbefore⟩ := h
  refine Search.fault?_explore_of_first hm (Automaton.visit_eq_error_iff.mpr herror) ?_ ?_
  · intro q hq k' hk'
    obtain ⟨items, hok⟩ := hbefore q hq k' hk'
    exact ⟨_, Automaton.visit_eq_ok_iff.mpr ⟨hok, rfl⟩⟩
  · by_contra hlt
    obtain ⟨items, hok⟩ := hvisited m (Nat.not_le.mp hlt) k hm
    cases herror.symm.trans hok

namespace ClosedBy

variable {kernels states : Numbering ItemSet}

theorem mem_iff (h : ClosedBy g kernels states) {k next : ItemSet} (hk : IsKernel g k)
    (hclosure : closure g k.toList = .ok next) : next ∈ states ↔ k ∈ kernels := by
  rw [Numbering.mem_def, Numbering.mem_def, Array.mem_iff_getElem?, Array.mem_iff_getElem?]
  refine exists_congr fun q => ?_
  constructor
  · intro hq
    have hlt := h.size ▸ (Array.getElem?_eq_some_iff.mp hq).1
    have hkq := Array.getElem?_eq_getElem hlt
    obtain ⟨items, hitems, hq'⟩ := h.closes q _ hkq
    obtain rfl := Option.some.inj (hq.symm.trans hq')
    rw [hkq, (h.isKernel _ (Array.getElem_mem hlt)).eq_of_closure_eq hk hitems hclosure]
  · intro hkq
    obtain ⟨items, hitems, hq⟩ := h.closes q k hkq
    rw [hq, Except.ok.inj (hclosure.symm.trans hitems)]

theorem add (h : ClosedBy g kernels states) {k next : ItemSet} (hk : IsKernel g k)
    (hclosure : closure g k.toList = .ok next) : ClosedBy g (kernels.add k) (states.add next) := by
  by_cases hmem : k ∈ kernels
  · rw [Numbering.add_of_mem hmem, Numbering.add_of_mem ((h.mem_iff hk hclosure).mpr hmem)]
    exact h
  · have hnew : next ∉ states := fun hnext => hmem ((h.mem_iff hk hclosure).mp hnext)
    constructor
    · intro k' hk'
      rcases Numbering.mem_add.mp hk' with hk' | rfl
      · exact h.isKernel k' hk'
      · exact hk
    · rw [Numbering.elems_add, Numbering.elems_add, if_neg hmem, if_neg hnew, Array.size_push, Array.size_push, h.size]
    · intro q k' hq
      rw [Numbering.elems_add, if_neg hmem, Array.getElem?_push] at hq
      rw [Numbering.elems_add, if_neg hnew, Array.getElem?_push, h.size]
      split at hq
      · rename_i heq
        obtain rfl := Option.some.inj hq
        exact ⟨next, hclosure, if_pos heq⟩
      · rename_i hne
        obtain ⟨items, hitems, hq'⟩ := h.closes q k' hq
        exact ⟨items, hitems, (if_neg hne).trans hq'⟩

theorem singleton {k items : ItemSet} (hk : IsKernel g k) (hclosure : closure g k.toList = .ok items) :
    ClosedBy g (.ofList [k]) (.ofList [items]) := by
  have hempty : ClosedBy g .empty .empty := by
    refine ⟨fun k' hk' => absurd hk' Numbering.not_mem_empty, rfl, ?_⟩
    intro q k' hq
    exact absurd (Array.mem_of_getElem? hq) Numbering.not_mem_empty
  exact hempty.add hk hclosure

/-- Kernels that have been closed keep their numbers when more of them are found. -/
theorem exists_closure_of_lt (h : ClosedBy g kernels states) (others : List ItemSet) {q : StateId}
    (hq : q < kernels.elems.size) {k : ItemSet} (hk : (others.foldl .add kernels).elems[q]? = some k) :
    ∃ items, closure g k.toList = .ok items := by
  have hold := Array.getElem?_eq_getElem hq
  obtain rfl := Option.some.inj ((Numbering.getElem?_foldl_add hold).symm.trans hk)
  obtain ⟨items, hok, _⟩ := h.closes q _ hold
  exact ⟨items, hok⟩

/-- As all kernels so far have been closed, one that cannot be closed is new, and the first of this kind. -/
theorem failsFirst (h : ClosedBy g kernels states) {k : ItemSet} {e : TableError}
    (hclosure : closure g k.toList = .error e) (others : List ItemSet) :
    FailsFirst g ((k :: others).foldl .add kernels) e := by
  have hnew : k ∉ kernels := by
    intro hmem
    obtain ⟨q, hq⟩ := Array.mem_iff_getElem?.mp hmem
    obtain ⟨_, hok, _⟩ := h.closes q k hq
    cases hclosure.symm.trans hok
  refine ⟨kernels.elems.size, k, ?_, hclosure, fun q hq _ => h.exists_closure_of_lt (k :: others) hq⟩
  rw [List.foldl_cons]
  apply Numbering.getElem?_foldl_add
  rw [Numbering.elems_add, if_neg hnew, Array.getElem?_push_size]

/-- Both searches take the transitions of a state alike, up to the first kernel that cannot be closed. -/
theorem transitions (h : ClosedBy g kernels states) {items : ItemSet} (hfault : ∀ i ∈ items, i.fault? g = none)
    (l : List Symbol) :
    (∃ told, collect (tellState g items) l = .ok told ∧
      ClosedBy g ((l.filterMap (kernel? g items)).foldl .add kernels) (told.foldl .add states)) ∨
    ∃ e, collect (tellState g items) l = .error e ∧
      FailsFirst g ((l.filterMap (kernel? g items)).foldl .add kernels) e := by
  induction l generalizing kernels states with
  | nil => exact Or.inl ⟨[], rfl, h⟩
  | cons s l ih =>
      cases hkernel : kernel? g items s with
      | none =>
          rw [List.filterMap_cons_none hkernel, collect_cons_of_ok (tellState_of_none hfault hkernel)]
          rcases ih h with ⟨told, hcollect, hclosed⟩ | ⟨e, hcollect, hfails⟩
          · exact Or.inl ⟨told, by rw [hcollect]; rfl, hclosed⟩
          · exact Or.inr ⟨e, by rw [hcollect]; rfl, hfails⟩
      | some k =>
          rw [List.filterMap_cons_some hkernel]
          have hk := isKernel_of_kernel? hkernel
          cases hclosure : closure g k.toList with
          | ok next =>
              rw [collect_cons_of_ok (tellState_of_ok hfault hkernel hclosure)]
              rcases ih (h.add hk hclosure) with ⟨told, hcollect, hclosed⟩ | ⟨e, hcollect, hfails⟩
              · exact Or.inl ⟨next :: told, by rw [hcollect]; rfl, hclosed⟩
              · exact Or.inr ⟨e, by rw [hcollect]; rfl, hfails⟩
          | error e =>
              exact Or.inr ⟨e, collect_cons_of_error (tellState_of_error hfault hkernel hclosure),
                h.failsFirst hclosure _⟩

/-- The item sets that have been visited are the first of the item sets that are found, also after the next visit. -/
theorem toList_push_eq_take {visited : Array ItemSet} {items : ItemSet} (told : List ItemSet)
    (hvisited : visited.toList = states.toList.take visited.size) (hget : states.elems[visited.size]? = some items) :
    (visited.push items).toList = (told.foldl .add states).toList.take (visited.push items).size := by
  obtain ⟨new, hnew⟩ := Numbering.prefix_foldl_add told states
  have hlist : states.toList[visited.size]? = some items := Array.getElem?_toList.trans hget
  obtain ⟨hlt, hitem⟩ := List.getElem?_eq_some_iff.mp hlist
  rw [Array.size_push, Array.toList_push, hvisited, ← hnew, List.take_append_of_le_length hlt,
    List.take_succ_eq_append_getElem hlt, hitem]

/-- The search over item sets comes to what the search over kernels comes to. -/
theorem exists_within_turn (kernels : Numbering ItemSet) (visited : Array ItemSet) :
    ∀ states, ClosedBy g kernels states → visited.toList = states.toList.take visited.size →
      ∃ n r, within (Worklist.turn (tellStates g)) n ⟨states, visited.size⟩ = some r ∧ r.map (·.elems) =
        (Search.explore (Automaton.visit g) (Automaton.finiteRange_visit g) kernels visited).fault?.elim
          (.ok (Search.explore (Automaton.visit g) (Automaton.finiteRange_visit g) kernels visited).visited)
          .error := by
  fun_induction Search.explore (Automaton.visit g) (Automaton.finiteRange_visit g) kernels visited with
  | case1 kernels visited hlt r e hv =>
      intro states h _
      obtain ⟨items, hitems, _⟩ := h.closes visited.size _ (Array.getElem?_eq_getElem hlt)
      cases hitems.symm.trans (Automaton.visit_eq_error_iff.mp hv)
  | case2 kernels visited hlt r items l hv ih =>
      intro states h hvisited
      obtain ⟨hclosure, rfl⟩ := Automaton.visit_eq_ok_iff.mp hv
      obtain ⟨items', hclosure', hget⟩ := h.closes visited.size _ (Array.getElem?_eq_getElem hlt)
      obtain rfl := Except.ok.inj (hclosure.symm.trans hclosure')
      have hfault : ∀ i ∈ items, i.fault? g = none := fun i hi => fault?_of_mem_closure hclosure hi
      have htold : Search.told r = g.symbols.filterMap (kernel? g items) := congrArg Search.told hv
      rw [htold] at ih ⊢
      rcases h.transitions hfault g.symbols with ⟨told, htell, hclosed⟩ | ⟨e, htell, hfails⟩
      · obtain ⟨n, r', hn, hr'⟩ := ih _ hclosed (toList_push_eq_take told hvisited hget)
        rw [Array.size_push] at hn
        exact ⟨n + 1, r', (within_succ_of_inl (Worklist.turn_of_ok hget htell)).trans hn, hr'⟩
      · have hend := hfails.fault?_explore (visited.push items) fun q hq _ => by
          rw [Array.size_push] at hq
          exact h.exists_closure_of_lt _ (Nat.lt_of_lt_of_le hq hlt)
        refine ⟨1, .error e, within_succ_of_inr (Worklist.turn_of_error hget htell), ?_⟩
        rw [hend]
        rfl
  | case3 kernels visited hle =>
      intro states h hvisited
      rw [← h.size, Nat.not_lt] at hle
      have hall : states.elems = visited := by
        apply Array.toList_inj.mp
        rw [hvisited, List.take_of_length_le (states.length_toList ▸ hle)]
        rfl
      exact ⟨1, .ok states, within_succ_of_inr (Worklist.turn_of_none (Array.getElem?_eq_none hle)),
        congrArg Except.ok hall⟩

end ClosedBy

end ShiftReduce
