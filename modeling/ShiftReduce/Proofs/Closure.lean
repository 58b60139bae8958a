import Mathlib.Tactic.ByContra
import ShiftReduce.Closure
import ShiftReduce.Proofs.Builder
import ShiftReduce.Proofs.Search

/-! Closed item sets. A closure holds the items that can be reached from its seeds by going from an
item to those that begin a rule of the symbol after its dot. All items that come in this way have
their dots at the beginning, so an item whose dot is further on is a seed. -/

namespace ShiftReduce

variable {g : Grammar} {u : Symbol}

namespace Item

/-- One item brings another into a closed set: the other begins a rule of the symbol that is expected. -/
def Brings (g : Grammar) (i j : Item) : Prop :=
  ∃ s, i.next? g = some s ∧ s < g.symbolCount ∧ j.rule ∈ g.rulesWithLhs s ∧ j.dot = 0

/-- An item is in order if there is its rule, and its dot is not beyond the end of it. -/
theorem fault?_eq_none_iff {i : Item} :
    i.fault? g = none ↔ ∃ rule, g.rule? i.rule = some rule ∧ i.dot ≤ rule.rhs.length := by
  unfold fault?
  cases h : g.rule? i.rule with
  | none => simp
  | some rule => simp

theorem next?_eq_some_iff {i : Item} {s : Symbol} :
    i.next? g = some s ↔ ∃ rule, g.rule? i.rule = some rule ∧ rule.rhs[i.dot]? = some s :=
  Option.bind_eq_some_iff

/-- Reading the rule of an item fails for the reasons for which an item can have a fault, and for no others. -/
theorem readRule_eq_ok_iff {i : Item} {rule : Rule} :
    i.readRule g = .ok rule ↔ g.rule? i.rule = some rule ∧ i.dot ≤ rule.rhs.length := by
  unfold readRule
  cases g.rule? i.rule with
  | none => simp
  | some rule' =>
      dsimp only
      split
      · simp only [reduceCtorEq, Option.some.injEq, false_iff, not_and]
        rintro rfl
        omega
      · simp only [Except.ok.injEq, Option.some.injEq, iff_self_and]
        rintro rfl
        omega

/-- Without a fault, it makes no difference that the dot is checked first. -/
theorem next_eq_ok {i : Item} (h : i.fault? g = none) : i.next g = .ok (i.next? g) := by
  obtain ⟨rule, hrule, hdot⟩ := fault?_eq_none_iff.mp h
  rw [next, readRule_eq_ok_iff.mpr ⟨hrule, hdot⟩, next?, hrule]
  rfl

theorem fault?_of_next? {i : Item} {s : Symbol} (h : i.next? g = some s) : i.fault? g = none := by
  obtain ⟨rule, hrule, hs⟩ := next?_eq_some_iff.mp h
  have hlt := (List.getElem?_eq_some_iff.mp hs).1
  exact fault?_eq_none_iff.mpr ⟨rule, hrule, Nat.le_of_lt hlt⟩

/-- An item in front of a known symbol is expanded to the beginnings of the rules of that symbol. -/
theorem expand_eq_ok_of_next? {i : Item} {s : Symbol} (h : i.next? g = some s) (hs : s < g.symbolCount) :
    i.expand g = .ok ((g.rulesWithLhs s).map fun r => ⟨r, 0⟩) := by
  rw [expand, next_eq_ok (fault?_of_next? h), h]
  exact if_pos hs

theorem next?_of_next_eq_ok {i : Item} {s : Symbol} (h : i.next g = .ok (some s)) : i.next? g = some s := by
  unfold next at h
  cases hread : i.readRule g with
  | error e =>
      rw [hread] at h
      cases h
  | ok rule =>
      rw [hread] at h
      have hget : rule.rhs[i.dot]? = some s := Except.ok.inj h
      exact next?_eq_some_iff.mpr ⟨rule, (readRule_eq_ok_iff.mp hread).1, hget⟩

/-- A search for a closure goes from an item to those that it brings. -/
theorem leads_visit_iff {i j : Item} : Search.Leads (visit g) i j ↔ i.Brings g j := by
  rw [Search.leads_iff]
  constructor
  · rintro ⟨_, l, hv, hj⟩
    unfold visit at hv
    cases hexpand : i.expand g with
    | error e =>
        rw [hexpand] at hv
        cases hv
    | ok l' =>
        rw [hexpand] at hv
        cases hv
        unfold expand at hexpand
        split at hexpand
        · cases hexpand
        · cases hexpand
          cases hj
        · rename_i s hnext
          split at hexpand
          · rename_i hs
            cases hexpand
            obtain ⟨r, hr, rfl⟩ := List.mem_map.mp hj
            exact ⟨s, next?_of_next_eq_ok hnext, hs, hr, rfl⟩
          · cases hexpand
  · rintro ⟨s, hnext, hs, hrule, hdot⟩
    refine ⟨(), (g.rulesWithLhs s).map fun r => ⟨r, 0⟩, ?_, List.mem_map.mpr ⟨j.rule, hrule, ?_⟩⟩
    · rw [visit, expand_eq_ok_of_next? hnext hs]
      rfl
    · rw [← hdot]

theorem leads_visit : Search.Leads (visit g) = Brings g := by
  funext i j
  exact propext leads_visit_iff

end Item

/-- Seeds are checked before anything is expanded. -/
theorem closure_of_fault? {seeds : List Item} {e : TableError} (h : seeds.findSome? (·.fault? g) = some e) :
    closure g seeds = .error e := by
  rw [closure, h]

/-! ### Members of a closure -/

section Members

variable {seeds : List Item} {items : ItemSet}

/-- A closure holds what its seeds bring, directly or over other items, and nothing else. -/
theorem mem_closure_iff (h : closure g seeds = .ok items) {i : Item} :
    i ∈ items ↔ ∃ j ∈ seeds, Relation.ReflTransGen (Item.Brings g) j i := by
  unfold closure at h
  split at h
  · cases h
  · dsimp only at h
    split at h
    · cases h
    · rename_i hfault
      obtain rfl := Except.ok.inj h
      rw [OrderedSet.mem_ofList, Numbering.toList, Array.mem_toList_iff, ← Numbering.mem_def,
        Search.mem_run_iff hfault, Item.leads_visit]

theorem mem_closure_of_mem (h : closure g seeds = .ok items) {i : Item} (hi : i ∈ seeds) : i ∈ items :=
  (mem_closure_iff h).mpr ⟨i, hi, .refl⟩

theorem mem_closure_of_brings (h : closure g seeds = .ok items) {i j : Item} (hi : i ∈ items)
    (hbrings : i.Brings g j) : j ∈ items := by
  obtain ⟨seed, hseed, hreach⟩ := (mem_closure_iff h).mp hi
  exact (mem_closure_iff h).mpr ⟨seed, hseed, hreach.tail hbrings⟩

/-- A member of a closure is a seed, or another member has brought it. -/
theorem mem_closure_cases (h : closure g seeds = .ok items) {i : Item} (hi : i ∈ items) :
    i ∈ seeds ∨ ∃ j ∈ items, j.Brings g i := by
  obtain ⟨seed, hseed, hreach⟩ := (mem_closure_iff h).mp hi
  rcases Relation.ReflTransGen.cases_tail hreach with rfl | ⟨j, hj, hbrings⟩
  · exact Or.inl hseed
  · exact Or.inr ⟨j, (mem_closure_iff h).mpr ⟨seed, hseed, hj⟩, hbrings⟩

/-- Only seeds have their dots further on. -/
theorem mem_seeds_of_dot_pos (h : closure g seeds = .ok items) {i : Item} (hi : i ∈ items)
    (hdot : 0 < i.dot) : i ∈ seeds := by
  rcases mem_closure_cases h hi with hseed | ⟨j, _, s, _, _, _, hzero⟩
  · exact hseed
  · omega

end Members

/-! ### Closures of proper grammars -/

namespace Grammar.Proper

/-- An item that has been brought has its dot at the beginning of a rule that exists. -/
theorem fault?_of_brings (hg : g.Proper u) {i j : Item} (h : i.Brings g j) : j.fault? g = none := by
  obtain ⟨s, _, _, hrule, hdot⟩ := h
  obtain ⟨rule, hrule, _⟩ := hg.mem_rulesWithLhs.mp hrule
  exact Item.fault?_eq_none_iff.mpr ⟨rule, hrule, by omega⟩

theorem fault?_of_reaches (hg : g.Proper u) {i j : Item} (hi : i.fault? g = none)
    (h : Relation.ReflTransGen (Item.Brings g) i j) : j.fault? g = none := by
  rcases Relation.ReflTransGen.cases_tail h with rfl | ⟨_, _, hbrings⟩
  · exact hi
  · exact hg.fault?_of_brings hbrings

theorem next?_lt (hg : g.Proper u) {i : Item} {s : Symbol} (h : i.next? g = some s) : s < g.symbolCount := by
  obtain ⟨rule, hrule, hs⟩ := Item.next?_eq_some_iff.mp h
  exact hg.rhs_lt hrule (List.mem_of_getElem? hs)

theorem brings_of_rule (hg : g.Proper u) {i : Item} {r : RuleId} {rule : Rule}
    (hnext : i.next? g = some rule.lhs) (hrule : g.rule? r = some rule) : i.Brings g ⟨r, 0⟩ :=
  ⟨rule.lhs, hnext, hg.next?_lt hnext, hg.mem_rulesWithLhs.mpr ⟨rule, hrule, rfl⟩, rfl⟩

/-- The symbol after a dot is known in a proper grammar, so a visit fails only for an item that has a fault. -/
theorem exists_visit (hg : g.Proper u) {i : Item} (h : i.fault? g = none) : ∃ l, i.visit g = .ok ((), l) := by
  cases hnext : i.next? g with
  | none =>
      refine ⟨[], ?_⟩
      rw [Item.visit, Item.expand, Item.next_eq_ok h, hnext]
      rfl
  | some s =>
      refine ⟨(g.rulesWithLhs s).map fun r => ⟨r, 0⟩, ?_⟩
      rw [Item.visit, Item.expand_eq_ok_of_next? hnext (hg.next?_lt hnext)]
      rfl

/-- Items without faults have a closure, in which no item has a fault. -/
theorem exists_closure (hg : g.Proper u) {seeds : List Item} (hseeds : ∀ i ∈ seeds, i.fault? g = none) :
    ∃ items, closure g seeds = .ok items ∧ ∀ i ∈ items, i.fault? g = none := by
  have hsearch : (Search.run (Item.visit g) (Item.finiteRange_visit g) seeds).fault? = none := by
    by_contra hfault
    obtain ⟨e, he⟩ := Option.ne_none_iff_exists'.mp hfault
    obtain ⟨i, ⟨seed, hseed, hreach⟩, hv⟩ := Search.exists_of_fault?_run he
    rw [Item.leads_visit] at hreach
    have hi := hg.fault?_of_reaches (hseeds seed hseed) hreach
    obtain ⟨l, hl⟩ := hg.exists_visit hi
    rw [hl] at hv
    cases hv
  have hclosure : closure g seeds =
      .ok (.ofList (Search.run (Item.visit g) (Item.finiteRange_visit g) seeds).found.toList) := by
    rw [closure, List.findSome?_eq_none_iff.mpr hseeds]
    simp only [hsearch]
  refine ⟨_, hclosure, ?_⟩
  intro i hi
  obtain ⟨seed, hseed, hreach⟩ := (mem_closure_iff hclosure).mp hi
  exact hg.fault?_of_reaches (hseeds seed hseed) hreach

end Grammar.Proper

/-! ### Kernels -/

/-- There is a kernel over each symbol that an item expects, and the item is in it with its dot moved. -/
theorem exists_kernel? {items : ItemSet} {i : Item} {s : Symbol} (hi : i ∈ items) (hnext : i.next? g = some s) :
    ∃ k, kernel? g items s = some k ∧ i.advance ∈ k := by
  have hmem : (s, i.advance) ∈ moves g items := mem_moves.mpr ⟨i, hi, hnext, rfl⟩
  cases hk : kernel? g items s with
  | some k => exact ⟨k, rfl, (mem_of_kernelOver?_eq_some hk).mpr hmem⟩
  | none =>
      unfold kernel? kernelOver? at hk
      split at hk
      · rename_i hfilter
        have hfound : (s, i.advance) ∈ (moves g items).filter (·.1 == s) :=
          List.mem_filter.mpr ⟨hmem, beq_self_eq_true s⟩
        rw [hfilter] at hfound
        cases hfound
      · cases hk

theorem exists_mem_of_kernel? {items k : ItemSet} {s : Symbol} (h : kernel? g items s = some k) : ∃ i, i ∈ k := by
  unfold kernel? kernelOver? at h
  split at h
  · cases h
  · obtain rfl := Option.some.inj h
    exact ⟨_, OrderedSet.mem_ofList.mpr List.mem_cons_self⟩

/-- A dot that has been moved over a symbol of its rule is not beyond the end of the rule. -/
theorem fault?_of_mem_kernel? {items k : ItemSet} {s : Symbol} (h : kernel? g items s = some k) {i : Item}
    (hi : i ∈ k) : i.fault? g = none := by
  obtain ⟨j, _, hnext, rfl⟩ := (mem_of_kernel?_eq_some h).mp hi
  obtain ⟨rule, hrule, hs⟩ := Item.next?_eq_some_iff.mp hnext
  have hlt := (List.getElem?_eq_some_iff.mp hs).1
  exact Item.fault?_eq_none_iff.mpr ⟨rule, hrule, hlt⟩

end ShiftReduce
