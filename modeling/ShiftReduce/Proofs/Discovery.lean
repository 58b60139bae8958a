import Mathlib.Data.List.Basic
import Mathlib.Data.List.Induction
import Mathlib.Data.Prod.Lex
import Mathlib.Order.Bounds.Basic
import ShiftReduce.Proofs.StateSpace

/-! The order in which the states are found. A search numbers what its seeds and then its elements tell, one
after the other, so an element gets its number where it is told for the first time. The transitions of an
automaton are told in ascending order of the state they start from and, within a state, of their symbols.
Hence each state has a least pair of a state and a symbol from which it is the successor, the state of the pair
comes before it, and of two states the first has the lesser pair. There is only one such way of numbering the
item sets once it is known which one comes first. -/

namespace ShiftReduce

/-! ### Numberings of lists -/

namespace Numbering

variable {α ι : Type} [Ord α] [Std.TransOrd α] [Std.LawfulEqOrd α]

theorem prefix_foldl_add (l : List α) (s : Numbering α) : s.toList <+: (l.foldl add s).toList := by
  induction l generalizing s with
  | nil => exact List.prefix_rfl
  | cons a l ih =>
      refine List.IsPrefix.trans ?_ (ih (s.add a))
      rw [toList_add]
      split
      · exact List.prefix_rfl
      · exact List.prefix_append _ _

/-- What a list adds to a numbering are the values at some of its places, and each of these places is before
all others with the same value. -/
theorem exists_firsts {R : ι → ι → Prop} (f : ι → α) {l : List ι} (hl : l.Pairwise R) (s : Numbering α) :
    ∃ firsts : List ι, firsts.Sublist l ∧ ((l.map f).foldl add s).toList = s.toList ++ firsts.map f ∧
      ∀ i ∈ firsts, ∀ j ∈ l, f j = f i → j = i ∨ R i j := by
  induction l using List.reverseRecOn with
  | nil => exact ⟨[], .slnil, (List.append_nil _).symm, fun _ hi => absurd hi List.not_mem_nil⟩
  | append_singleton l j ih =>
      obtain ⟨hbefore, _, hlast⟩ := List.pairwise_append.mp hl
      obtain ⟨firsts, hsub, hlist, hleast⟩ := ih hbefore
      have hfold : ((l ++ [j]).map f).foldl add s = ((l.map f).foldl add s).add (f j) := by
        rw [List.map_append, List.foldl_append]
        rfl
      have hfirst : ∀ i ∈ firsts, ∀ j' ∈ l ++ [j], f j' = f i → j' = i ∨ R i j' := by
        intro i hi j' hj' heq
        rcases List.mem_append.mp hj' with hj' | hj'
        · exact hleast i hi j' hj' heq
        · exact Or.inr (hlast i (hsub.subset hi) j' hj')
      rw [hfold, toList_add]
      split
      · exact ⟨firsts, hsub.trans (List.sublist_append_left l [j]), hlist, hfirst⟩
      · rename_i hnew
        refine ⟨firsts ++ [j], hsub.append (List.Sublist.refl [j]), ?_, ?_⟩
        · rw [hlist, List.map_append, List.append_assoc]
          rfl
        · intro i hi j' hj' heq
          rcases List.mem_append.mp hi with hi | hi
          · exact hfirst i hi j' hj' heq
          · obtain rfl := List.mem_singleton.mp hi
            rcases List.mem_append.mp hj' with hj' | hj'
            · exact absurd (mem_foldl_add.mpr (Or.inr (heq ▸ List.mem_map_of_mem hj'))) hnew
            · exact Or.inl (List.mem_singleton.mp hj')

end Numbering

/-! ### The order of a search -/

namespace Search

variable {ε α β : Type} {visit : α → Except ε (β × List α)} [Ord α] [Std.TransOrd α] [Std.LawfulEqOrd α]
  {hfin : FiniteRange (successors visit)} {seeds : List α}

/-- What has been found is what the seeds and the visited elements have told, numbered in this order, and an
element that is no seed has been told by one before it. -/
structure InOrder (visit : α → Except ε (β × List α)) (seeds : List α) (found : Numbering α) (visited : Array β) :
    Prop where
  le : visited.size ≤ found.elems.size
  tells : found = .ofList (seeds ++ (found.toList.take visited.size).flatMap (successors visit))
  source : ∀ n a, found.elems[n]? = some a →
    a ∈ seeds ∨ ∃ (m : Nat) (b : α), m < n ∧ found.elems[m]? = some b ∧ Leads visit b a

theorem InOrder.step {found : Numbering α} {visited : Array β} (h : InOrder visit seeds found visited)
    (hlt : visited.size < found.elems.size) (b : β) :
    InOrder visit seeds ((successors visit found.elems[visited.size]).foldl .add found) (visited.push b) := by
  have hstays : ∀ {n : Nat} {a : α}, found.elems[n]? = some a →
      ((successors visit found.elems[visited.size]).foldl .add found).elems[n]? = some a :=
    Numbering.getElem?_foldl_add
  have hlast := hstays (Array.getElem?_eq_getElem hlt)
  constructor
  · rw [Array.size_push]
    exact (Array.getElem?_eq_some_iff.mp hlast).1
  · have htake : ((successors visit found.elems[visited.size]).foldl Numbering.add found).toList.take
        (visited.size + 1) = found.toList.take visited.size ++ [found.elems[visited.size]] := by
      obtain ⟨rest, hrest⟩ := Numbering.prefix_foldl_add (successors visit found.elems[visited.size]) found
      have hlength : visited.size < found.toList.length := found.length_toList ▸ hlt
      rw [← hrest, List.take_append_of_le_length hlength, List.take_succ_eq_append_getElem hlength]
      rfl
    rw [Array.size_push, htake, List.flatMap_append, List.flatMap_singleton, ← List.append_assoc, Numbering.ofList,
      List.foldl_append, ← Numbering.ofList, ← h.tells]
  · intro n a ha
    by_cases hn : n < found.elems.size
    · have hold := Array.getElem?_eq_getElem hn
      obtain rfl := Option.some.inj ((hstays hold).symm.trans ha)
      rcases h.source n _ hold with hseed | ⟨m, b', hm, hb', hlead⟩
      · exact Or.inl hseed
      · exact Or.inr ⟨m, b', hm, hstays hb', hlead⟩
    · rcases Numbering.mem_foldl_add.mp (Array.mem_of_getElem? ha) with hmem | htold
      · obtain ⟨m, hm⟩ := Array.mem_iff_getElem?.mp hmem
        obtain rfl := Numbering.eq_of_getElem?_eq (hstays hm) ha
        exact absurd (Array.getElem?_eq_some_iff.mp hm).1 hn
      · exact Or.inr ⟨visited.size, _, by omega, hlast, htold⟩

theorem inOrder_explore {found : Numbering α} {visited : Array β} (h : InOrder visit seeds found visited) :
    InOrder visit seeds (explore visit hfin found visited).found (explore visit hfin found visited).visited := by
  fun_induction explore visit hfin found visited with
  | case1 => exact h
  | case2 found visited hlt r b l hv ih => exact ih (h.step hlt b)
  | case3 => exact h

theorem inOrder_run : InOrder visit seeds (run visit hfin seeds).found (run visit hfin seeds).visited := by
  refine inOrder_explore ⟨Nat.zero_le _, ?_, ?_⟩
  · rw [Array.size_empty, List.take_zero, List.flatMap_nil, List.append_nil]
  · intro n a ha
    exact Or.inl (Numbering.mem_ofList.mp (Array.mem_of_getElem? ha))

/-- A search that does not fail numbers its seeds and then what its elements tell, in the order of their numbers. -/
theorem found_run (hfault : (run visit hfin seeds).fault? = none) : (run visit hfin seeds).found =
    .ofList (seeds ++ (run visit hfin seeds).found.toList.flatMap (successors visit)) := by
  have horder : InOrder visit seeds (run visit hfin seeds).found (run visit hfin seeds).visited := inOrder_run
  have hfound := horder.tells
  rw [size_visited_run hfault, ← Numbering.length_toList, List.take_length] at hfound
  exact hfound

end Search

/-! ### The order of the states -/

/-- The pairs of a state and a symbol from which state `q` is the successor. They are ordered by the state first
and by the symbol second. -/
def waysTo (g : Grammar) (states : Array ItemSet) (q : StateId) : Set (StateId ×ₗ Symbol) :=
  {way | ∃ items next, states[(ofLex way).1]? = some items ∧ states[q]? = some next ∧
    successor g items (ofLex way).2 = .ok next}

/-- Item sets are in the order in which they are found from the first of them on: each has a least way to it,
which comes from an item set before it, and the least ways are ascending. -/
structure BreadthFirst (g : Grammar) (states : Array ItemSet) : Prop where
  exists_least : ∀ q, 0 < q → q < states.size → ∃ way, IsLeast (waysTo g states q) way ∧ (ofLex way).1 < q
  increasing : ∀ q q' way way', 0 < q → q < q' → IsLeast (waysTo g states q) way →
    IsLeast (waysTo g states q') way' → way < way'

namespace Automaton

variable {g : Grammar} {a : Automaton}

/-- The kernels that are told by item sets, each with the way that leads to it. -/
def waysFrom (g : Grammar) (states : List ItemSet) : List ((StateId ×ₗ Symbol) × ItemSet) :=
  states.zipIdx.flatMap fun (items, p) =>
    g.symbols.filterMap fun s => (kernel? g items s).map fun k => (toLex (p, s), k)

theorem mem_waysFrom {states : List ItemSet} {way : StateId ×ₗ Symbol} {k : ItemSet} :
    (way, k) ∈ waysFrom g states ↔ (ofLex way).2 ∈ g.symbols ∧
      ∃ items, states[(ofLex way).1]? = some items ∧ kernel? g items (ofLex way).2 = some k := by
  simp only [waysFrom, List.mem_flatMap, List.mem_filterMap, Option.map_eq_some_iff, Prod.exists,
    List.mem_zipIdx_iff_getElem?, Prod.mk.injEq]
  constructor
  · rintro ⟨items, p, hitems, s, hs, _, hkernel, rfl, rfl⟩
    exact ⟨hs, items, hitems, hkernel⟩
  · rintro ⟨hs, items, hitems, hkernel⟩
    exact ⟨items, _, hitems, _, hs, k, hkernel, rfl, rfl⟩

/-- Ways are told in ascending order if the symbols are tried in ascending order. -/
theorem pairwise_waysFrom (hsymbols : g.symbols.Pairwise (· < ·)) (states : List ItemSet) :
    (waysFrom g states).Pairwise fun x y => x.1 < y.1 := by
  apply List.pairwise_flatMap.mpr
  constructor
  · rintro ⟨items, p⟩ _
    refine hsymbols.filterMap _ ?_
    intro s s' hs x hx y hy
    obtain ⟨k, _, rfl⟩ := Option.map_eq_some_iff.mp hx
    obtain ⟨k', _, rfl⟩ := Option.map_eq_some_iff.mp hy
    exact Prod.Lex.toLex_lt_toLex.mpr (Or.inr ⟨rfl, hs⟩)
  · refine (pairwise_zipIdx states).imp ?_
    rintro ⟨items, p⟩ ⟨items', p'⟩ hp x hx y hy
    obtain ⟨s, _, hx⟩ := List.mem_filterMap.mp hx
    obtain ⟨s', _, hy⟩ := List.mem_filterMap.mp hy
    obtain ⟨k, _, rfl⟩ := Option.map_eq_some_iff.mp hx
    obtain ⟨k', _, rfl⟩ := Option.map_eq_some_iff.mp hy
    exact Prod.Lex.toLex_lt_toLex.mpr (Or.inl hp)

theorem map_snd_waysFrom (states : List ItemSet) :
    (waysFrom g states).map Prod.snd = states.flatMap (nextKernels g) := by
  have hfrom : ∀ x : ItemSet × StateId, (g.symbols.filterMap fun s =>
      (kernel? g x.1 s).map fun k => (toLex (x.2, s), k)).map Prod.snd = nextKernels g x.1 := by
    intro x
    rw [List.map_filterMap]
    refine List.filterMap_congr fun s _ => ?_
    rw [Option.map_map]
    exact Option.map_id'
  calc (waysFrom g states).map Prod.snd
      _ = states.zipIdx.flatMap fun x => nextKernels g x.1 := by
        rw [waysFrom, List.map_flatMap]
        exact List.flatMap_congr fun x _ => hfrom x
      _ = states.flatMap (nextKernels g) := by
        rw [← List.flatMap_map, List.zipIdx_map_fst]

theorem flatMap_successors (h : ofGrammar g = .ok a) :
    a.kernels.toList.flatMap (Search.successors (visit g)) = a.states.toList.flatMap (nextKernels g) := by
  have hmap : a.kernels.toList.map (Search.successors (visit g)) = a.states.toList.map (nextKernels g) := by
    apply List.ext_getElem?
    intro q
    rw [List.getElem?_map, List.getElem?_map, Numbering.toList, Array.getElem?_toList, Array.getElem?_toList]
    cases hk : a.kernels.elems[q]? with
    | some k =>
        obtain ⟨items, hclosure, hq, _⟩ := state_of_kernel h hk
        have hvisit := visit_eq_ok_iff.mpr ⟨hclosure, rfl⟩
        rw [hq, Option.map_some, Option.map_some, Search.successors, hvisit]
        rfl
    | none =>
        cases hq : a.states[q]? with
        | none => rfl
        | some items =>
            obtain ⟨k, hk', _⟩ := kernel_of_state h hq
            cases hk.symm.trans hk'
  rw [List.flatMap_def, List.flatMap_def, hmap]

theorem mem_waysTo_iff (h : ofGrammar g = .ok a) (hsymbols : ∀ s < g.symbolCount, s ∈ g.symbols) {q : StateId}
    {way : StateId ×ₗ Symbol} : way ∈ waysTo g a.states q ↔ a.Leads g (ofLex way).1 (ofLex way).2 q := by
  rw [leads_iff_successor h hsymbols]
  constructor
  · intro ⟨items, next, hp, hq, hsuccessor⟩
    obtain ⟨i, hi⟩ := exists_mem_of_state h hq
    exact ⟨items, next, hp, hsuccessor, ne_empty_of_mem hi, hq⟩
  · intro ⟨items, next, hp, hsuccessor, _, hq⟩
    exact ⟨items, next, hp, hq, hsuccessor⟩

theorem mem_waysFrom_iff_leads {q : StateId} {way : StateId ×ₗ Symbol} {k : ItemSet}
    (hk : a.kernels.elems[q]? = some k) : (way, k) ∈ waysFrom g a.states.toList ↔
      (ofLex way).2 ∈ g.symbols ∧ a.Leads g (ofLex way).1 (ofLex way).2 q := by
  rw [mem_waysFrom, Array.getElem?_toList]
  refine and_congr_right fun _ => ⟨?_, ?_⟩
  · intro ⟨items, hp, hkernel⟩
    exact ⟨items, k, hp, hkernel, hk⟩
  · intro ⟨items, k', hp, hkernel, hk'⟩
    obtain rfl := Option.some.inj (hk.symm.trans hk')
    exact ⟨items, hp, hkernel⟩

/-- State `0` apart, a state has a transition to it from a state before it. -/
theorem exists_leads_before (h : ofGrammar g = .ok a) {q : StateId} {k : ItemSet} (hk : a.kernels.elems[q]? = some k)
    (hne : q ≠ 0) : ∃ p s, p < q ∧ s ∈ g.symbols ∧ a.Leads g p s q := by
  obtain ⟨hfault, rfl⟩ := ofGrammar_eq_ok_iff.mp h
  rcases Search.inOrder_run.source q k hk with hseed | ⟨p, k', hlt, hk', hlead⟩
  · obtain rfl := List.mem_singleton.mp hseed
    exact absurd (Numbering.eq_of_getElem?_eq hk (kernel_zero h)) hne
  · obtain ⟨items, l, hv, hmem⟩ := Search.leads_iff.mp hlead
    obtain ⟨hclosure, rfl⟩ := visit_eq_ok_iff.mp hv
    obtain ⟨s, hs, hkernel⟩ := mem_nextKernels.mp hmem
    obtain ⟨items', hclosure', hitems, _⟩ := state_of_kernel h hk'
    obtain rfl := Except.ok.inj (hclosure.symm.trans hclosure')
    exact ⟨p, s, hlt, hs, items, k, hitems, hkernel, hk⟩

/-- The least ways to the states besides state `0`, in the order of the states. -/
theorem exists_first_ways (h : ofGrammar g = .ok a) (hsymbols : ∀ s < g.symbolCount, s ∈ g.symbols)
    (hascending : g.symbols.Pairwise (· < ·)) : ∃ ways : List (StateId ×ₗ Symbol), ways.Pairwise (· < ·) ∧
      a.states.size = ways.length + 1 ∧ ∀ n way, ways[n]? = some way → IsLeast (waysTo g a.states (n + 1)) way := by
  have hpairwise := pairwise_waysFrom hascending a.states.toList
  obtain ⟨firsts, hsub, hlist, hleast⟩ := Numbering.exists_firsts Prod.snd hpairwise (.ofList [startKernel g])
  have hkernels : a.kernels.toList = startKernel g :: firsts.map Prod.snd := by
    have hfound : a.kernels = .ofList ([startKernel g] ++ (waysFrom g a.states.toList).map Prod.snd) := by
      rw [map_snd_waysFrom, ← flatMap_successors h]
      obtain ⟨hfault, rfl⟩ := ofGrammar_eq_ok_iff.mp h
      exact Search.found_run hfault
    rw [hfound, Numbering.ofList, List.foldl_append]
    exact hlist
  refine ⟨firsts.map Prod.fst, List.pairwise_map.mpr (hpairwise.sublist hsub), ?_, ?_⟩
  · rw [size_states h, ← Numbering.length_toList, hkernels, List.length_cons, List.length_map, List.length_map]
  · intro n way hway
    rw [List.getElem?_map, Option.map_eq_some_iff] at hway
    obtain ⟨⟨way, k⟩, hn, rfl⟩ := hway
    have hk : a.kernels.elems[n + 1]? = some k := by
      rw [← Array.getElem?_toList]
      change a.kernels.toList[n + 1]? = some k
      rw [hkernels, List.getElem?_cons_succ, List.getElem?_map, hn]
      rfl
    have hmem := List.mem_of_getElem? hn
    have hlead := (mem_waysFrom_iff_leads hk).mp (hsub.subset hmem)
    refine ⟨(mem_waysTo_iff h hsymbols).mpr hlead.2, ?_⟩
    intro way' hway'
    have hlead' := (mem_waysTo_iff h hsymbols).mp hway'
    have hs' : (ofLex way').2 ∈ g.symbols := hsymbols _ (lt_of_leads h hlead')
    rcases hleast _ hmem (way', k) ((mem_waysFrom_iff_leads hk).mpr ⟨hs', hlead'⟩) rfl with heq | hlt
    · exact le_of_eq (congrArg Prod.fst heq).symm
    · exact le_of_lt hlt

theorem breadthFirst_states (h : ofGrammar g = .ok a) (hsymbols : ∀ s < g.symbolCount, s ∈ g.symbols)
    (hascending : g.symbols.Pairwise (· < ·)) : BreadthFirst g a.states := by
  obtain ⟨ways, hpairwise, hsize, hleast⟩ := exists_first_ways h hsymbols hascending
  have hway : ∀ q, 0 < q → q < a.states.size →
      ∃ way, ways[q - 1]? = some way ∧ IsLeast (waysTo g a.states q) way := by
    intro q hpos hlt
    have hget := List.getElem?_eq_getElem (show q - 1 < ways.length by omega)
    have hq := hleast _ _ hget
    rw [Nat.sub_add_cancel hpos] at hq
    exact ⟨_, hget, hq⟩
  constructor
  · intro q hpos hlt
    obtain ⟨way, _, hq⟩ := hway q hpos hlt
    obtain ⟨k, hk, _⟩ := kernel_of_state h (Array.getElem?_eq_getElem hlt)
    obtain ⟨p, s, hp, _, hlead⟩ := exists_leads_before h hk (Nat.ne_of_gt hpos)
    have hmem : toLex (p, s) ∈ waysTo g a.states q := (mem_waysTo_iff h hsymbols).mpr hlead
    have hle := hq.2 hmem
    exact ⟨way, hq, Nat.lt_of_le_of_lt (Prod.Lex.monotone_fst_ofLex hle) hp⟩
  · intro q q' way way' hpos hlt hq hq'
    obtain ⟨_, _, _, hitems', _⟩ := hq'.1
    have hlt' := (Array.getElem?_eq_some_iff.mp hitems').1
    obtain ⟨_, hget, hleast⟩ := hway q hpos (Nat.lt_trans hlt hlt')
    obtain ⟨_, hget', hleast'⟩ := hway q' (Nat.lt_trans hpos hlt) hlt'
    obtain rfl := hleast.unique hq
    obtain rfl := hleast'.unique hq'
    obtain ⟨hn, rfl⟩ := List.getElem?_eq_some_iff.mp hget
    obtain ⟨hn', rfl⟩ := List.getElem?_eq_some_iff.mp hget'
    exact List.pairwise_iff_getElem.mp hpairwise _ _ hn hn' (Nat.sub_lt_sub_right hpos hlt)

end Automaton

/-! ### There is one such order -/

section Uniqueness

variable {g : Grammar} {states states' : Array ItemSet}

/-- If two numberings of the same item sets agree on the first `n` of them, the least way to number `n` in the
second is not greater than a way to it in the first that comes from one of these. -/
theorem BreadthFirst.least_le (h' : BreadthFirst g states') (hnodup : states.toList.Nodup)
    (hperm : states.toList.Perm states'.toList) {n : StateId} (hpos : 0 < n)
    (hagree : ∀ m < n, states[m]? = states'[m]?) {way way' : StateId ×ₗ Symbol} (hway : way ∈ waysTo g states n)
    (hlt : (ofLex way).1 < n) (hleast : IsLeast (waysTo g states' n) way') : way' ≤ way := by
  obtain ⟨items, next, hitems, hn, hsuccessor⟩ := hway
  have hmem : next ∈ states'.toList := hperm.subset (Array.mem_toList_iff.mpr (Array.mem_of_getElem? hn))
  obtain ⟨m, hm⟩ := Array.mem_iff_getElem?.mp (Array.mem_toList_iff.mp hmem)
  have hle : n ≤ m := by
    by_contra hbefore
    have hsame : states[m]? = states[n]? := by
      rw [hagree m (Nat.not_le.mp hbefore), hm, hn]
    rw [← Array.getElem?_toList, ← Array.getElem?_toList] at hsame
    have hsize : m < states.toList.length :=
      Nat.lt_trans (Nat.not_le.mp hbefore) (Array.getElem?_eq_some_iff.mp hn).1
    exact hbefore (Nat.le_of_eq ((List.getElem?_inj hsize hnodup).mp hsame).symm)
  have hway : way ∈ waysTo g states' m := ⟨items, next, hagree _ hlt ▸ hitems, hm, hsuccessor⟩
  obtain ⟨wayₘ, hleastₘ, _⟩ := h'.exists_least m (Nat.lt_of_lt_of_le hpos hle) (Array.getElem?_eq_some_iff.mp hm).1
  calc way'
      _ ≤ wayₘ := by
        rcases Nat.eq_or_lt_of_le hle with rfl | hlt
        · exact le_of_eq (hleast.unique hleastₘ)
        · exact le_of_lt (h'.increasing n m way' wayₘ hpos hlt hleast hleastₘ)
      _ ≤ way := hleastₘ.2 hway

/-- The first item set settles the order of the others. -/
theorem BreadthFirst.unique (h : BreadthFirst g states) (h' : BreadthFirst g states') (hnodup : states.toList.Nodup)
    (hperm : states.toList.Perm states'.toList) (hzero : states[0]? = states'[0]?) : states = states' := by
  have hsize : states.size = states'.size := hperm.length_eq
  apply Array.ext_getElem?
  intro n
  induction n using Nat.strong_induction_on with
  | h n ih =>
      by_cases hpos : 0 < n
      · by_cases hn : n < states.size
        · obtain ⟨way, hleast, hlt⟩ := h.exists_least n hpos hn
          obtain ⟨way', hleast', hlt'⟩ := h'.exists_least n hpos (hsize ▸ hn)
          have heq : way = way' := by
            apply le_antisymm
            · have ih' := fun m hm => (ih m hm).symm
              exact h.least_le (hperm.nodup_iff.mp hnodup) hperm.symm hpos ih' hleast'.1 hlt' hleast
            · exact h'.least_le hnodup hperm hpos ih hleast.1 hlt hleast'
          subst heq
          obtain ⟨items, next, hitems, hnext, hsuccessor⟩ := hleast.1
          obtain ⟨items', next', hitems', hnext', hsuccessor'⟩ := hleast'.1
          rw [ih _ hlt] at hitems
          obtain rfl := Option.some.inj (hitems.symm.trans hitems')
          obtain rfl := Except.ok.inj (hsuccessor.symm.trans hsuccessor')
          rw [hnext, hnext']
        · rw [Array.getElem?_eq_none (Nat.not_lt.mp hn), Array.getElem?_eq_none (hsize ▸ Nat.not_lt.mp hn)]
      · rw [Nat.eq_zero_of_not_pos hpos]
        exact hzero

end Uniqueness

/-- The states are in the order in which they are found from the closure of the start item on, and no other order
of the same item sets that begins with it is such an order. -/
theorem states_breadthFirst {calls : List Builder.Call} {g : AugmentedGrammar}
    (hbuild : (Builder.ofCalls calls).build = .ok g) :
    ∃ a start, Automaton.ofGrammar g.toGrammar = .ok a ∧
      closure g.toGrammar [⟨g.startRule, 0⟩] = .ok start ∧ a.state? 0 = some start ∧
      BreadthFirst g.toGrammar a.states ∧
      ∀ states : Array ItemSet, states.toList.Perm a.states.toList → states[0]? = some start →
        BreadthFirst g.toGrammar states → states = a.states := by
  have hg := Builder.proper_of_build hbuild
  have hsymbols : ∀ s < g.symbolCount, s ∈ g.symbols := fun _ => hg.mem_symbols.mpr
  have hascending : g.symbols.Pairwise (· < ·) := hg.symbols ▸ List.pairwise_lt_range
  obtain ⟨a, h⟩ := hg.exists_automaton
  obtain ⟨start, hclosure, hstart⟩ := Automaton.state_zero h
  have hstates := Automaton.breadthFirst_states h hsymbols hascending
  refine ⟨a, start, h, hclosure, hstart, hstates, ?_⟩
  intro states hperm hzero hother
  have hnodup := hperm.nodup_iff.mpr (Automaton.nodup_states h)
  exact hother.unique hstates hnodup hperm (hzero.trans hstart.symm)

/-- The states of the automaton for lists, with the first of them left in its place and the others turned round,
are not in the order in which they are found. -/
theorem states_breadthFirst_lists : (Builder.ofCalls listCalls).build = .ok lists ∧
    ∃ a, Automaton.ofGrammar lists.toGrammar = .ok a ∧
      a.states.toList.map (·.toList) = [[⟨0, 0⟩, ⟨1, 0⟩, ⟨2, 0⟩], [⟨0, 1⟩, ⟨1, 1⟩], [⟨2, 1⟩], [⟨1, 2⟩]] ∧
      BreadthFirst lists.toGrammar a.states ∧
      ¬ BreadthFirst lists.toGrammar (a.states.toList.take 1 ++ (a.states.toList.drop 1).reverse).toArray := by
  have hbuild : (Builder.ofCalls listCalls).build = .ok lists := by cbv
  have hrun : (Automaton.ofGrammar lists.toGrammar).toOption.map (fun a => a.states.toList.map (·.toList)) =
      some [[⟨0, 0⟩, ⟨1, 0⟩, ⟨2, 0⟩], [⟨0, 1⟩, ⟨1, 1⟩], [⟨2, 1⟩], [⟨1, 2⟩]] := by cbv
  obtain ⟨a, start, h, _, hstart, hstates, hunique⟩ := states_breadthFirst hbuild
  rw [h] at hrun
  have hitems := Option.some.inj hrun
  refine ⟨hbuild, a, h, hitems, hstates, ?_⟩
  intro hother
  have heq := hunique _ ?_ ?_ hother
  · have hturned := congrArg (fun states : Array ItemSet => states.toList.map (·.toList)) heq
    simp only [List.map_append, List.map_take, List.map_reverse, List.map_drop, hitems] at hturned
    exact absurd hturned (by decide)
  · exact ((List.reverse_perm _).append_left _).trans (.of_eq (List.take_append_drop 1 _))
  · have hlist : a.states.toList[0]? = some start := Array.getElem?_toList.trans hstart
    cases hcons : a.states.toList with
    | nil =>
        rw [hcons] at hlist
        cases hlist
    | cons s rest =>
        rw [hcons] at hlist
        exact hlist

end ShiftReduce
