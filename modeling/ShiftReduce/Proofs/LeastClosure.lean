import Mathlib.Order.Bounds.Basic
import ShiftReduce.Proofs.StateSpace

/-! What the closure of some items is. If one of them has a fault, the first that has one is reported. Otherwise the
closure is the least set that holds the items and is closed under going from an item to the beginnings of the rules
it expects. There is only one least set, so neither order nor repetition of the items matters, and how closures of
different items relate can be told from closed sets alone: a closure is closed already, and so are two closures put
together. -/

namespace ShiftReduce

variable {g : Grammar} {u : Symbol}

namespace Item

variable {i : Item}

/-- The rule of the item exists, and its dot lies within it. -/
def InBounds (g : Grammar) (i : Item) : Prop := ∃ rule, g.rule? i.rule = some rule ∧ i.dot ≤ rule.rhs.length

/-- What is wrong with an item: there is no such rule, or the dot is past the end of the rule. -/
inductive HasFault (g : Grammar) (i : Item) : TableError → Prop
  | unknownRule : g.rule? i.rule = none → HasFault g i (.unknownRule i.rule)
  | dotOutOfBounds {rule} : g.rule? i.rule = some rule → rule.rhs.length < i.dot → HasFault g i (.dotOutOfBounds i)

theorem fault?_eq_some_iff {e : TableError} : i.fault? g = some e ↔ i.HasFault g e := by
  unfold fault?
  constructor
  · intro h
    cases hrule : g.rule? i.rule with
    | none =>
        rw [hrule] at h
        obtain rfl := Option.some.inj h
        exact .unknownRule hrule
    | some rule =>
        rw [hrule] at h
        obtain ⟨hdot, he⟩ := Option.ite_none_right_eq_some.mp h
        obtain rfl := Option.some.inj he
        exact .dotOutOfBounds hrule hdot
  · intro h
    cases h with
    | unknownRule hrule => rw [hrule]
    | dotOutOfBounds hrule hdot =>
        rw [hrule]
        exact if_pos hdot

/-- With an item, the set holds the beginnings of all rules of the symbol that the item expects. -/
def IsClosed (g : Grammar) (items : Set Item) : Prop :=
  ∀ i ∈ items, ∀ r rule, i.next? g = some rule.lhs → g.rule? r = some rule → ⟨r, 0⟩ ∈ items

theorem IsClosed.union {items items' : Set Item} (h : IsClosed g items) (h' : IsClosed g items') :
    IsClosed g (items ∪ items') := by
  rintro i (hi | hi) r rule hnext hrule
  · exact Or.inl (h i hi r rule hnext hrule)
  · exact Or.inr (h' i hi r rule hnext hrule)

end Item

/-- The closed sets that hold some items. -/
def closedSets (g : Grammar) (seeds : Set Item) : Set (Set Item) := {items | seeds ⊆ items ∧ Item.IsClosed g items}

/-- Put together, least closed sets are a least closed set again. -/
theorem isLeast_closedSets_union {seeds seeds' items items' : Set Item} (h : IsLeast (closedSets g seeds) items)
    (h' : IsLeast (closedSets g seeds') items') : IsLeast (closedSets g (seeds ∪ seeds')) (items ∪ items') := by
  obtain ⟨⟨hsub, hclosed⟩, hleast⟩ := h
  obtain ⟨⟨hsub', hclosed'⟩, hleast'⟩ := h'
  refine ⟨⟨Set.union_subset_union hsub hsub', hclosed.union hclosed'⟩, ?_⟩
  rintro all ⟨hall, hclosedAll⟩
  have hseeds := Set.union_subset_iff.mp hall
  exact Set.union_subset (hleast ⟨hseeds.1, hclosedAll⟩) (hleast' ⟨hseeds.2, hclosedAll⟩)

namespace Grammar.Proper

variable {seeds seeds' : List Item} {items items' : ItemSet}

theorem isLeast_closure (hg : g.Proper u) (h : closure g seeds = .ok items) :
    IsLeast (closedSets g {i | i ∈ seeds}) {i | i ∈ items} := by
  refine ⟨⟨fun i hi => mem_closure_of_mem h hi, ?_⟩, ?_⟩
  · intro i hi r rule hnext hrule
    exact mem_closure_of_brings h hi (hg.brings_of_rule hnext hrule)
  · rintro all ⟨hseeds, hclosed⟩ i hi
    obtain ⟨seed, hseed, hreach⟩ := (mem_closure_iff h).mp hi
    clear hi
    induction hreach with
    | refl => exact hseeds hseed
    | @tail j k _ hbrings ih =>
        obtain ⟨s, hnext, _, hr, hdot⟩ := hbrings
        obtain ⟨rule, hrule, rfl⟩ := hg.mem_rulesWithLhs.mp hr
        have hbegin := hclosed j ih k.rule rule hnext hrule
        rwa [← hdot] at hbegin

/-- Whatever is the least closed set that holds some items is their closure. -/
theorem closure_eq_of_isLeast (hg : g.Proper u) (hseeds : ∀ i ∈ seeds, i.InBounds g)
    (hleast : IsLeast (closedSets g {i | i ∈ seeds}) {i | i ∈ items}) : closure g seeds = .ok items := by
  obtain ⟨items', hclosure, _⟩ := hg.exists_closure fun i hi => Item.fault?_eq_none_iff.mpr (hseeds i hi)
  have hsame := Set.ext_iff.mp ((hg.isLeast_closure hclosure).unique hleast)
  rw [hclosure, OrderedSet.ext_mem hsame]

theorem inBounds_of_closure (h : closure g seeds = .ok items) {i : Item} (hi : i ∈ items) : i.InBounds g :=
  Item.fault?_eq_none_iff.mp (fault?_of_mem_closure h hi)

theorem closure_eq_error_iff (hg : g.Proper u) {e : TableError} : closure g seeds = .error e ↔
    ∃ before i after, seeds = before ++ i :: after ∧ (∀ j ∈ before, j.InBounds g) ∧ i.HasFault g e := by
  have hfirst : seeds.findSome? (·.fault? g) = some e ↔
      ∃ before i after, seeds = before ++ i :: after ∧ (∀ j ∈ before, j.InBounds g) ∧ i.HasFault g e := by
    simp only [List.findSome?_eq_some_iff, Item.fault?_eq_some_iff, Item.fault?_eq_none_iff, Item.InBounds,
      and_comm (a := Item.HasFault _ _ _)]
  rw [← hfirst]
  refine ⟨fun h => ?_, closure_of_fault?⟩
  cases hfault : seeds.findSome? (·.fault? g) with
  | some e' => rw [Except.error.inj ((closure_of_fault? hfault).symm.trans h)]
  | none =>
      obtain ⟨items, hclosure, _⟩ := hg.exists_closure (List.findSome?_eq_none_iff.mp hfault)
      cases hclosure.symm.trans h

/-- The same items in any order and any number have the same closure. -/
theorem closure_congr (hg : g.Proper u) (h : closure g seeds = .ok items) (hsame : ∀ i, i ∈ seeds' ↔ i ∈ seeds) :
    closure g seeds' = .ok items := by
  have hseeds : {i | i ∈ seeds'} = {i | i ∈ seeds} := Set.ext hsame
  refine hg.closure_eq_of_isLeast (fun i hi => ?_) (hseeds ▸ hg.isLeast_closure h)
  exact inBounds_of_closure h (mem_closure_of_mem h ((hsame i).mp hi))

theorem closure_closure (hg : g.Proper u) (h : closure g seeds = .ok items) : closure g items.toList = .ok items := by
  refine hg.closure_eq_of_isLeast (fun i hi => inBounds_of_closure h hi) ⟨⟨fun i hi => hi, ?_⟩, fun all hall => hall.1⟩
  exact (hg.isLeast_closure h).1.2

theorem closure_append (hg : g.Proper u) (h : closure g seeds = .ok items) (h' : closure g seeds' = .ok items') :
    closure g (seeds ++ seeds') = .ok (.ofList (items.toList ++ items'.toList)) := by
  have hseeds : {i | i ∈ seeds ++ seeds'} = {i | i ∈ seeds} ∪ {i | i ∈ seeds'} := by
    ext i
    exact List.mem_append
  have hitems : {i | i ∈ OrderedSet.ofList (items.toList ++ items'.toList)} = {i | i ∈ items} ∪ {i | i ∈ items'} := by
    ext i
    exact OrderedSet.mem_ofList.trans List.mem_append
  refine hg.closure_eq_of_isLeast (fun i hi => ?_) ?_
  · rcases List.mem_append.mp hi with hi | hi
    · exact inBounds_of_closure h (mem_closure_of_mem h hi)
    · exact inBounds_of_closure h' (mem_closure_of_mem h' hi)
  · rw [hseeds, hitems]
    exact isLeast_closedSets_union (hg.isLeast_closure h) (hg.isLeast_closure h')

end Grammar.Proper

/-- Items have no closure if and only if one of them has a fault, and then the fault of the first is the reason. If
there is none, the closure lists in order, and once each, the members of the least closed set that holds the items.
It depends on nothing but which items there are, it is its own closure, and the closure of items together with
others is made of both closures. -/
theorem closure_least {calls : List Builder.Call} {g : AugmentedGrammar}
    (hbuild : (Builder.ofCalls calls).build = .ok g) (seeds : List Item) :
    (∀ e, closure g.toGrammar seeds = .error e ↔ ∃ before i after, seeds = before ++ i :: after ∧
      (∀ j ∈ before, j.InBounds g.toGrammar) ∧ i.HasFault g.toGrammar e) ∧
    ((∀ i ∈ seeds, i.InBounds g.toGrammar) → ∃ items, closure g.toGrammar seeds = .ok items ∧
      items.toList.Pairwise (· < ·) ∧ IsLeast (closedSets g.toGrammar {i | i ∈ seeds}) {i | i ∈ items} ∧
      (∀ seeds', (∀ i, i ∈ seeds' ↔ i ∈ seeds) → closure g.toGrammar seeds' = .ok items) ∧
      closure g.toGrammar items.toList = .ok items ∧
      ∀ seeds' items', closure g.toGrammar seeds' = .ok items' →
        closure g.toGrammar (seeds ++ seeds') = .ok (.ofList (items.toList ++ items'.toList))) := by
  have hg := Builder.proper_of_build hbuild
  refine ⟨fun e => hg.closure_eq_error_iff, fun hseeds => ?_⟩
  obtain ⟨items, h, _⟩ := hg.exists_closure fun i hi => Item.fault?_eq_none_iff.mpr (hseeds i hi)
  exact ⟨items, h, items.ascending, hg.isLeast_closure h, fun seeds' => hg.closure_congr h, hg.closure_closure h,
    fun seeds' items' => hg.closure_append h⟩

/-- Of two faults the first is reported. The item that begins the start rule brings the rules for lists, and an item
that expects a terminal brings nothing, in whatever order and however often they are given. -/
theorem closure_least_lists : (Builder.ofCalls listCalls).build = .ok lists ∧
    closure lists.toGrammar [⟨1, 2⟩, ⟨2, 2⟩, ⟨9, 0⟩] = .error (.dotOutOfBounds ⟨2, 2⟩) ∧
    (∀ i ∈ ([⟨1, 1⟩, ⟨0, 0⟩, ⟨1, 1⟩] : List Item), i.InBounds lists.toGrammar) ∧
      ∃ items, closure lists.toGrammar [⟨1, 1⟩, ⟨0, 0⟩, ⟨1, 1⟩] = .ok items ∧
        items.toList = [⟨0, 0⟩, ⟨1, 0⟩, ⟨1, 1⟩, ⟨2, 0⟩] ∧ closure lists.toGrammar [⟨0, 0⟩, ⟨1, 1⟩] = .ok items ∧
        closure lists.toGrammar items.toList = .ok items := by
  have hbuild : (Builder.ofCalls listCalls).build = .ok lists := by cbv
  have hbefore : ∀ i ∈ ([⟨1, 2⟩] : List Item), i.InBounds lists.toGrammar := by
    intro i hi
    obtain rfl := List.mem_singleton.mp hi
    exact ⟨_, rfl, by decide⟩
  have hfault : Item.HasFault lists.toGrammar ⟨2, 2⟩ (.dotOutOfBounds ⟨2, 2⟩) := .dotOutOfBounds rfl (by decide)
  have hseeds : ∀ i ∈ ([⟨1, 1⟩, ⟨0, 0⟩, ⟨1, 1⟩] : List Item), i.InBounds lists.toGrammar := by
    simp only [List.forall_mem_cons, List.not_mem_nil, false_imp_iff, implies_true, and_true]
    exact ⟨⟨_, rfl, by decide⟩, ⟨_, rfl, by decide⟩, ⟨_, rfl, by decide⟩⟩
  have hrun : (closure lists.toGrammar [⟨1, 1⟩, ⟨0, 0⟩, ⟨1, 1⟩]).toOption.map (·.toList) =
      some [⟨0, 0⟩, ⟨1, 0⟩, ⟨1, 1⟩, ⟨2, 0⟩] := by cbv
  obtain ⟨herror, _⟩ := closure_least hbuild [⟨1, 2⟩, ⟨2, 2⟩, ⟨9, 0⟩]
  obtain ⟨_, hok⟩ := closure_least hbuild [⟨1, 1⟩, ⟨0, 0⟩, ⟨1, 1⟩]
  obtain ⟨items, hitems, _, _, hsame, hagain, _⟩ := hok hseeds
  rw [hitems] at hrun
  refine ⟨hbuild, (herror _).mpr ⟨_, _, _, rfl, hbefore, hfault⟩, hseeds, items, hitems, Option.some.inj hrun, ?_,
    hagain⟩
  apply hsame
  simp only [List.mem_cons, List.not_mem_nil, or_false]
  tauto

end ShiftReduce
