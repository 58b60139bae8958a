import Mathlib.Algebra.Group.Nat.Defs
import ShiftReduce.Proofs.LeastClosure
import ShiftReduce.Proofs.OrderedSet
import ShiftReduce.Proofs.StateSearch

/-! The construction of the states ends, whatever the grammar. Here it is run without anything that promises an end:
items are closed round by round, and the item sets that have been found are taken up one after the other. A grammar may
list rules that do not exist, rules of other symbols, or the same rule again and again, and it may have any symbols
tried. But a round after the seeds goes on only if it has found an item that begins a listed rule, and an item set
comes to the list of work only once it has been closed, which an item without a rule or with its dot past the end would
have prevented. So there are no more rounds than listed rules, up to two, and no more turns than sets of items of the
grammar, up to one. -/

namespace ShiftReduce

variable {g : Grammar}

-- What a numbering of items, or of item sets, asks of the order.
local instance : Std.TransOrd Item := inferInstance
local instance : Std.LawfulEqOrd Item := inferInstance
local instance : Std.LawfulEqOrd ItemSet := inferInstance

/-- The rules that the grammar lists for its symbols, as it lists them. -/
def Grammar.listedRules (g : Grammar) : List RuleId := (List.range g.symbolCount).flatMap g.rulesWithLhs

/-- The sets of items of the grammar. -/
def Grammar.itemSets (g : Grammar) : List ItemSet := (Automaton.sublists g.items).map .ofList

/-- What it comes to within `n` rounds to look for a fault among the seeds and then to close them. -/
def closureWithin (g : Grammar) (n : Nat) (seeds : List Item) : Option (Except TableError ItemSet) :=
  match seeds.findSome? (·.fault? g) with
  | some e => some (.error e)
  | none => (within (Frontier.round (Item.expand g)) n ⟨.ofList seeds, (Numbering.ofList seeds).toList⟩).map
      fun r => r.map fun found => .ofList found.toList

/-- The item with its dot moved over `s`, if it expects `s`. -/
def Item.over (g : Grammar) (s : Symbol) (i : Item) : Except TableError (List Item) :=
  (i.next g).map fun next => if next = some s then [i.advance] else []

/-- What it comes to within `n` rounds to move the dots of a set over `s` and to close the items that this gives. -/
def successorWithin (g : Grammar) (n : Nat) (items : ItemSet) (s : Symbol) : Option (Except TableError ItemSet) :=
  match collect (Item.over g s) items.toList with
  | .error e => some (.error e)
  | .ok [] => some (.ok ∅)
  | .ok (i :: k) => closureWithin g n (i :: k)

/-- What it comes to within `n` turns to take up the item sets that are found from the closure of the start item on. -/
def statesWithin (g : Grammar) (n : Nat) : Option (Except TableError (Array ItemSet)) :=
  match closure g [⟨g.startRule, 0⟩] with
  | .error e => some (.error e)
  | .ok start => (within (Worklist.turn (tellStates g)) n ⟨.ofList [start], 0⟩).map fun r => r.map (·.elems)

/-! ### Rounds -/

theorem mem_listed_of_expand {i : Item} {told : List Item} (h : i.expand g = .ok told) :
    ∀ j ∈ told, j ∈ g.listedRules.map fun r => (⟨r, 0⟩ : Item) := by
  intro j hj
  have hvisit : i.visit g = .ok ((), told) := by
    rw [Item.visit, h]
    rfl
  obtain ⟨s, _, hs, hrule, hdot⟩ := Item.leads_visit_iff.mp (Search.leads_iff.mpr ⟨(), told, hvisit, hj⟩)
  have hlisted : j.rule ∈ g.listedRules := List.mem_flatMap.mpr ⟨s, List.mem_range.mpr hs, hrule⟩
  exact List.mem_map.mpr ⟨j.rule, hlisted, by rw [← hdot]⟩

theorem remaining_seeds_le (g : Grammar) (seeds newest : List Item) :
    Frontier.remaining (g.listedRules.map fun r => ⟨r, 0⟩) ⟨.ofList seeds, newest⟩ ≤ g.listedRules.length + 1 := by
  refine Nat.add_le_add ?_ (Nat.min_le_left 1 _)
  exact Nat.le_trans List.countP_le_length (Nat.le_of_eq (List.length_map _))

theorem closureWithin_eq (g : Grammar) (seeds : List Item) :
    closureWithin g (g.listedRules.length + 2) seeds = some (closure g seeds) := by
  unfold closureWithin closure
  cases seeds.findSome? (·.fault? g) with
  | some e => rfl
  | none =>
      have hexpand : ∀ i, Item.expand g i = (Item.visit g i).map Prod.snd := by
        intro i
        rw [Item.visit]
        cases i.expand g <;> rfl
      obtain ⟨n, hn⟩ := Worklist.exists_within_turn (Item.finiteRange_visit g) hexpand (.ofList seeds) #[]
      obtain ⟨m, hm⟩ := Frontier.exists_within_round hn
      have hbound := within_of_measure (Frontier.remaining_round_lt fun i _ => mem_listed_of_expand (i := i)) hm
      have hend : within (Frontier.round (Item.expand g)) (g.listedRules.length + 2)
          ⟨.ofList seeds, (Numbering.ofList seeds).toList⟩ =
          some ((Search.run (Item.visit g) (Item.finiteRange_visit g) seeds).fault?.elim
            (.ok (Search.run (Item.visit g) (Item.finiteRange_visit g) seeds).found) .error) :=
        within_mono hbound (Nat.succ_le_succ (remaining_seeds_le g seeds _))
      dsimp only
      rw [hend]
      cases (Search.run (Item.visit g) (Item.finiteRange_visit g) seeds).fault? <;> rfl

/-! ### Successors -/

theorem advance_lt_advance {i j : Item} (h : i < j) : i.advance < j.advance := by
  rcases h with hrule | ⟨hrule, hdot⟩
  · exact Or.inl hrule
  · exact Or.inr ⟨hrule, Nat.succ_lt_succ hdot⟩

/-- The dots are moved in order, so what they give is the kernel as it is listed. -/
theorem toList_kernel? {items k : ItemSet} {s : Symbol} (h : kernel? g items s = some k) :
    k.toList = items.toList.flatMap fun i => if i.next? g = some s then [i.advance] else [] := by
  apply OrderedSet.toList_eq
  · apply List.pairwise_flatMap.mpr
    constructor
    · intro i _
      split
      · exact List.pairwise_singleton _ _
      · exact List.Pairwise.nil
    · refine items.ascending.imp ?_
      intro i j hij x hx y hy
      obtain ⟨_, hx⟩ := List.mem_ite_nil_right.mp hx
      obtain ⟨_, hy⟩ := List.mem_ite_nil_right.mp hy
      rw [List.mem_singleton.mp hx, List.mem_singleton.mp hy]
      exact advance_lt_advance hij
  · intro i
    rw [mem_of_kernel?_eq_some h, List.mem_flatMap]
    refine exists_congr fun j => and_congr_right fun _ => ?_
    rw [List.mem_ite_nil_right, List.mem_singleton, eq_comm (a := i)]

theorem successorWithin_eq (g : Grammar) (items : ItemSet) (s : Symbol) :
    successorWithin g (g.listedRules.length + 2) items s = some (successor g items s) := by
  unfold successorWithin successor
  cases hfault : items.toList.findSome? (·.fault? g) with
  | some e =>
      obtain ⟨before, i, after, hlist, hi, hbefore⟩ := List.findSome?_eq_some_iff.mp hfault
      have hover : ∀ j ∈ before, ∃ told, j.over g s = .ok told := by
        intro j hj
        rw [Item.over, Item.next_eq_ok (hbefore j hj)]
        exact ⟨_, rfl⟩
      have herror : i.over g s = .error e := by
        rw [Item.over, Item.next_of_fault? hi]
        rfl
      rw [hlist, collect_of_error hover herror]
  | none =>
      have hover : ∀ i ∈ items.toList, i.over g s = .ok (if i.next? g = some s then [i.advance] else []) := by
        intro i hi
        rw [Item.over, Item.next_eq_ok (List.findSome?_eq_none_iff.mp hfault i hi)]
        rfl
      rw [collect_of_ok hover]
      cases hkernel : kernel? g items s with
      | none =>
          have hnil : items.toList.flatMap (fun i => if i.next? g = some s then [i.advance] else []) = [] := by
            apply List.flatMap_eq_nil_iff.mpr
            intro i hi
            apply if_neg
            intro hnext
            obtain ⟨k, hk, _⟩ := exists_kernel? hi hnext
            cases hkernel.symm.trans hk
          rw [hnil]
      | some k =>
          rw [← toList_kernel? hkernel]
          obtain ⟨i, hi⟩ := exists_mem_of_kernel? hkernel
          cases hlist : k.toList with
          | nil =>
              rw [OrderedSet.mem_def, hlist] at hi
              cases hi
          | cons j k' =>
              dsimp only
              rw [hlist]
              exact closureWithin_eq g (j :: k')

/-! ### Turns -/

theorem Item.mem_items_of_fault? {i : Item} (h : i.fault? g = none) : i ∈ g.items := by
  obtain ⟨rule, hrule, hdot⟩ := fault?_eq_none_iff.mp h
  refine List.mem_flatMap.mpr ⟨i.rule, List.mem_range.mpr (Array.getElem?_eq_some_iff.mp hrule).1, ?_⟩
  rw [hrule]
  exact List.mem_map.mpr ⟨i.dot, List.mem_range.mpr (Nat.lt_succ_of_le hdot), rfl⟩

theorem mem_itemSets_of_closure {seeds : List Item} {items : ItemSet} (h : closure g seeds = .ok items) :
    items ∈ g.itemSets := by
  refine List.mem_map.mpr ⟨_, Automaton.filter_mem_sublists (fun i => decide (i ∈ items)) g.items, ?_⟩
  apply OrderedSet.ext_mem
  intro i
  rw [OrderedSet.mem_ofList, List.mem_filter, decide_eq_true_iff, and_iff_right_iff_imp]
  exact fun hi => Item.mem_items_of_fault? (fault?_of_mem_closure h hi)

theorem Automaton.length_sublists {α : Type} (l : List α) : (sublists l).length = 2 ^ l.length := by
  induction l with
  | nil => rfl
  | cons a l ih =>
      rw [sublists, List.length_append, List.length_map, ih, List.length_cons, Nat.pow_succ]
      omega

theorem length_itemSets (g : Grammar) : g.itemSets.length = 2 ^ g.items.length := by
  rw [Grammar.itemSets, List.length_map, Automaton.length_sublists]

theorem remaining_start_le {start : ItemSet} (h : start ∈ g.itemSets) :
    Worklist.remaining g.itemSets ⟨.ofList [start], 0⟩ ≤ 2 ^ g.items.length := by
  have hless : Search.unseen g.itemSets (.ofList [start]) < Search.unseen g.itemSets .empty :=
    Search.unseen_foldl_add_lt (fun b hb => List.mem_singleton.mp hb ▸ h) List.mem_cons_self Numbering.not_mem_empty
  have hall : Search.unseen g.itemSets .empty ≤ 2 ^ g.items.length :=
    length_itemSets g ▸ List.countP_le_length
  rw [Worklist.remaining, Numbering.elems_ofList_singleton]
  exact Nat.le_trans hless hall

theorem mem_itemSets_of_tellStates {items : ItemSet} {told : List ItemSet} (h : tellStates g items = .ok told) :
    ∀ next ∈ told, next ∈ g.itemSets := by
  intro next hnext
  obtain ⟨s, _, l, htell, hmem⟩ := exists_tell_of_mem_collect h hnext
  unfold tellState at htell
  cases hsuccessor : successor g items s with
  | error e =>
      rw [hsuccessor] at htell
      cases htell
  | ok items' =>
      rw [hsuccessor] at htell
      obtain rfl := Except.ok.inj htell
      dsimp only at hmem
      split at hmem
      · cases hmem
      · rename_i hne
        obtain rfl := List.mem_singleton.mp hmem
        unfold successor at hsuccessor
        split at hsuccessor
        · cases hsuccessor
        · split at hsuccessor
          · obtain rfl := Except.ok.inj hsuccessor
            exact absurd rfl hne
          · exact mem_itemSets_of_closure hsuccessor

theorem Automaton.map_states_ofGrammar (g : Grammar) : (ofGrammar g).map (·.states) =
    (discover g).fault?.elim (.ok (discover g).visited) .error := by
  unfold ofGrammar
  dsimp only
  cases (discover g).fault? <;> rfl

theorem statesWithin_eq (g : Grammar) :
    statesWithin g (2 ^ g.items.length + 1) = some ((Automaton.ofGrammar g).map (·.states)) := by
  rw [Automaton.map_states_ofGrammar, statesWithin, ← Automaton.toList_startKernel]
  have hkernel : IsKernel g (Automaton.startKernel g) := Or.inl rfl
  cases hstart : closure g (Automaton.startKernel g).toList with
  | error e =>
      have hend := (FailsFirst.singleton hstart).fault?_explore #[] fun q hq => absurd hq (Nat.not_lt_zero q)
      rw [Automaton.discover, Search.run, hend]
      rfl
  | ok start =>
      obtain ⟨n, r, hn, hr⟩ := ClosedBy.exists_within_turn _ #[] _ (.singleton hkernel hstart) rfl
      have hbound := within_of_measure (Worklist.remaining_turn_lt fun _ _ => mem_itemSets_of_tellStates) hn
      have hle := remaining_start_le (mem_itemSets_of_closure hstart)
      have hend : within (Worklist.turn (tellStates g)) (2 ^ g.items.length + 1) ⟨.ofList [start], 0⟩ = some r :=
        within_mono hbound (Nat.succ_le_succ hle)
      dsimp only
      rw [hend, Option.map_some, hr]
      rfl

/-- Closing any items, going over any symbol from any item set, and searching for the states all end, for any grammar:
two rounds more than there are listed rules, or one turn more than there are sets of items, and the outcome is there.
If there are states, the rules of all their items exist and the dots are within them. -/
theorem generation_ends (g : Grammar) :
    (∀ seeds, closureWithin g (g.listedRules.length + 2) seeds = some (closure g seeds)) ∧
      (∀ items s, successorWithin g (g.listedRules.length + 2) items s = some (successor g items s)) ∧
      statesWithin g (2 ^ g.items.length + 1) = some ((Automaton.ofGrammar g).map (·.states)) ∧
      ∀ a, Automaton.ofGrammar g = .ok a → ∀ items ∈ a.states, ∀ i ∈ items, i.InBounds g := by
  refine ⟨closureWithin_eq g, successorWithin_eq g, statesWithin_eq g, ?_⟩
  intro a h items hitems i hi
  obtain ⟨q, hq⟩ := Array.mem_iff_getElem?.mp hitems
  exact Item.fault?_eq_none_iff.mp (Automaton.fault?_of_mem_state h hq hi)

/-- A grammar that lists a rule that it does not have, one of another symbol and one twice, and leaves another out. A
symbol without a label is tried, another one is tried again, and one is not tried. -/
def scattered : Grammar where
  labels := #["$end", "s", "x"]
  rules := #[⟨1, [2]⟩, ⟨2, [0]⟩, ⟨2, [1]⟩]
  startRule := 0
  startSymbol := 1
  endSymbol := 0
  isTerminal := (· == 0)
  follow? := fun _ => none
  symbols := [2, 9, 0, 2]
  rulesWithLhs := fun s => match s with
    | 1 => [7]
    | 2 => [1, 1, 0]
    | _ => []

theorem generation_ends_scattered : closureWithin scattered 6 [⟨2, 0⟩] = some (.error (.unknownRule 7)) ∧
    ∃ states, statesWithin scattered 65 = some (.ok states) ∧
      states.toList.map (·.toList) = [[⟨0, 0⟩, ⟨1, 0⟩], [⟨0, 1⟩], [⟨1, 1⟩]] ∧
      ∀ items ∈ states, ∀ i ∈ items, i.InBounds scattered := by
  obtain ⟨hclosure, _, hstates, hbounds⟩ := generation_ends scattered
  have hunknown : closure scattered [⟨2, 0⟩] = .error (.unknownRule 7) := by cbv
  have hrun : (Automaton.ofGrammar scattered).toOption.map (fun a => a.states.toList.map (·.toList)) =
      some [[⟨0, 0⟩, ⟨1, 0⟩], [⟨0, 1⟩], [⟨1, 1⟩]] := by cbv
  cases h : Automaton.ofGrammar scattered with
  | error e =>
      rw [h] at hrun
      cases hrun
  | ok a =>
      rw [h] at hstates hrun
      exact ⟨(hclosure [⟨2, 0⟩]).trans (congrArg some hunknown), a.states, hstates, Option.some.inj hrun, hbounds a h⟩

end ShiftReduce
