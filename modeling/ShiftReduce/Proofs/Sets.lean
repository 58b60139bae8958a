import ShiftReduce.Proofs.Derivation
import ShiftReduce.Proofs.Search

/-! The nullable symbols and the FIRST and FOLLOW sets of a grammar that has been built are closed under
its rules. So whatever stands to the right of a symbol in a form of a derivation, the terminal that can
come first there follows the symbol. -/

namespace ShiftReduce

/-- What is grouped under a number within the bound is what the pairs give for it. -/
theorem Grouping.mem_get_ofPairs {β : Type} {bound n : Nat} {pairs : List (Nat × β)} (h : n < bound) {b : β} :
    b ∈ (ofPairs bound pairs).get n ↔ (n, b) ∈ pairs := by
  rw [get_ofPairs h, List.mem_filterMap]
  constructor
  · rintro ⟨⟨m, c⟩, hp, hite⟩
    obtain ⟨rfl, heq⟩ := Option.ite_none_right_eq_some.mp hite
    obtain rfl := Option.some.inj heq
    exact hp
  · exact fun hp => ⟨(n, b), hp, if_pos rfl⟩

theorem Grouping.lt_of_mem_get_ofPairs {β : Type} {bound n : Nat} {pairs : List (Nat × β)} {b : β}
    (h : b ∈ (ofPairs bound pairs).get n) : n < bound := by
  by_contra hle
  rw [get_ofPairs_of_le (Nat.not_lt.mp hle)] at h
  cases h

namespace Sets

variable {nullable : Symbol → Bool} {rules : List Rule}

/-! ### Symbols that derive the empty string -/

/-- No rule shows any more of its left-hand side that it is nullable. -/
theorem mem_nullableFrom {known : Numbering Symbol} {r : Rule} (hr : r ∈ rules)
    (hall : r.rhs.all (nullableFrom rules known).contains) : (nullableFrom rules known).contains r.lhs := by
  fun_induction nullableFrom rules known with
  | case1 known hnone =>
      by_contra hlhs
      have hvanishes : vanishes known r := by
        rw [vanishes, hall, Bool.and_true, Bool.not_eq_true']
        exact Bool.not_eq_true _ ▸ hlhs
      have hfound := List.mem_filter.mpr ⟨hr, hvanishes⟩
      rw [hnone] at hfound
      cases hfound
  | case2 known r' l h ih => exact ih hall

/-- What holds of the symbols known at first, and with the right-hand side of a rule of its left-hand side, holds
of all symbols that become known. -/
theorem nullableFrom_induction {P : Symbol → Prop} (hrule : ∀ r ∈ rules, (∀ s ∈ r.rhs, P s) → P r.lhs)
    {known : Numbering Symbol} (hknown : ∀ s ∈ known, P s) {s : Symbol} (hs : s ∈ nullableFrom rules known) :
    P s := by
  fun_induction nullableFrom rules known with
  | case1 known hnone => exact hknown s hs
  | case2 known r l hfound ih =>
      refine ih ?_ hs
      intro s' hs'
      rcases Numbering.mem_foldl_add.mp hs' with hs' | hs'
      · exact hknown s' hs'
      · obtain ⟨r', hr', rfl⟩ := List.mem_map.mp hs'
        rw [← hfound, List.mem_filter, vanishes, Bool.and_eq_true] at hr'
        obtain ⟨hmem, _, hall⟩ := hr'
        exact hrule r' hmem fun s hs => hknown s (Numbering.contains_iff.mp (List.all_eq_true.mp hall s hs))

theorem mem_of_mem_leading {s : Symbol} {l : List Symbol} (h : s ∈ leading nullable l) : s ∈ l := by
  induction l with
  | nil => exact h
  | cons t l ih =>
      rcases List.mem_cons.mp h with rfl | h
      · exact List.mem_cons_self
      · exact List.mem_cons_of_mem t (ih (List.mem_ite_nil_right.mp h).2)

/-- A symbol leads a string if it leads the first part, or all of that vanishes and it leads the second. -/
theorem mem_leading_append {s : Symbol} {l l' : List Symbol} : s ∈ leading nullable (l ++ l') ↔
    s ∈ leading nullable l ∨ l.all nullable ∧ s ∈ leading nullable l' := by
  induction l with
  | nil => simp [leading]
  | cons t l ih =>
      rw [List.cons_append, leading, leading, List.all_cons]
      by_cases ht : nullable t
      · simp only [ht, if_true, List.mem_cons, ih, Bool.true_and, or_assoc]
      · simp [ht]

/-- A symbol leads a string if everything before it vanishes. -/
theorem mem_leading_iff {s : Symbol} {l : List Symbol} :
    s ∈ leading nullable l ↔ ∃ α β, l = α ++ s :: β ∧ α.all nullable := by
  induction l with
  | nil => simp [leading]
  | cons t l ih =>
      rw [leading, List.mem_cons, List.mem_ite_nil_right, ih]
      constructor
      · rintro (rfl | ⟨ht, α, β, rfl, hα⟩)
        · exact ⟨[], l, rfl, rfl⟩
        · exact ⟨t :: α, β, rfl, by rw [List.all_cons, ht, hα]; rfl⟩
      · rintro ⟨α, β, heq, hα⟩
        rcases List.cons_eq_append_iff.mp heq with ⟨rfl, hcons⟩ | ⟨α', rfl, rfl⟩
        · exact Or.inl (List.cons_eq_cons.mp hcons).1
        · rw [List.all_cons, Bool.and_eq_true] at hα
          exact Or.inr ⟨hα.1, α', β, rfl, hα.2⟩

/-! ### Steps from symbol to symbol -/

/-- Each occurrence of a symbol goes with what stands after it. -/
theorem mem_splits_iff {l β : List Symbol} {s : Symbol} : (s, β) ∈ splits l ↔ ∃ α, l = α ++ s :: β := by
  induction l with
  | nil => simp [splits]
  | cons t l ih =>
      rw [splits, List.mem_cons, ih, Prod.mk.injEq]
      constructor
      · rintro (⟨rfl, rfl⟩ | ⟨α, rfl⟩)
        · exact ⟨[], rfl⟩
        · exact ⟨t :: α, rfl⟩
      · rintro ⟨α, hα⟩
        rcases List.cons_eq_append_iff.mp hα with ⟨rfl, heq⟩ | ⟨α', rfl, rfl⟩
        · obtain ⟨rfl, rfl⟩ := List.cons_eq_cons.mp heq
          exact Or.inl ⟨rfl, rfl⟩
        · exact Or.inr ⟨α', rfl⟩

theorem mem_begins_iff {s x : Symbol} :
    (x, s) ∈ begins nullable rules ↔ ∃ r ∈ rules, r.lhs = x ∧ s ∈ leading nullable r.rhs := by
  simp only [begins, List.mem_flatMap, List.mem_map, Prod.mk.injEq]
  constructor
  · rintro ⟨r, hr, s, hs, rfl, rfl⟩
    exact ⟨r, hr, rfl, hs⟩
  · rintro ⟨r, hr, rfl, hs⟩
    exact ⟨r, hr, s, hs, rfl, rfl⟩

/-- A symbol ends a rule if everything after it vanishes. What follows the left-hand side then follows it too. -/
theorem mem_ends_iff {s x : Symbol} : (s, x) ∈ ends nullable rules ↔
    ∃ r ∈ rules, r.lhs = x ∧ ∃ α β, r.rhs = α ++ s :: β ∧ β.all nullable := by
  simp only [ends, List.mem_flatMap, List.mem_map, List.mem_filter, Prod.exists, Prod.mk.injEq, mem_splits_iff]
  constructor
  · rintro ⟨r, hr, s, β, ⟨⟨α, hrhs⟩, hβ⟩, rfl, rfl⟩
    exact ⟨r, hr, rfl, α, β, hrhs, hβ⟩
  · rintro ⟨r, hr, rfl, α, β, hrhs, hβ⟩
    exact ⟨r, hr, s, β, ⟨⟨α, hrhs⟩, hβ⟩, rfl, rfl⟩

theorem mem_nexts_iff {s x : Symbol} : (s, x) ∈ nexts nullable rules ↔
    ∃ r ∈ rules, ∃ α β, r.rhs = α ++ s :: β ∧ x ∈ leading nullable β := by
  simp only [nexts, List.mem_flatMap, List.mem_map, Prod.exists, Prod.mk.injEq, mem_splits_iff]
  constructor
  · rintro ⟨r, hr, s, β, ⟨α, hrhs⟩, x, hx, rfl, rfl⟩
    exact ⟨r, hr, α, β, hrhs, hx⟩
  · rintro ⟨r, hr, α, β, hrhs, hx⟩
    exact ⟨r, hr, s, β, ⟨α, hrhs⟩, x, hx, rfl, rfl⟩

/-! ### The sets -/

/-- One gets from a symbol to another by any number of steps. -/
def Reaches (steps : Grouping Symbol) : Symbol → Symbol → Prop := Relation.ReflTransGen fun s x => x ∈ steps.get s

theorem mem_reached_iff {steps : Grouping Symbol} {s x : Symbol} : x ∈ reached steps s ↔ Reaches steps s x := by
  simp only [reached, mem_reach_iff, List.mem_singleton, exists_eq_left]
  rfl

theorem mem_first_iff {begins : Grouping Symbol} {isTerminal : Symbol → Bool} {s x : Symbol} :
    x ∈ first begins isTerminal s ↔ Reaches begins s x ∧ isTerminal x := by
  rw [first, OrderedSet.mem_ofList, List.mem_filter, mem_reached_iff]

/-- What follows a symbol: the end, if the start symbol is above it, and what comes first in a symbol
that stands next to one above it. -/
theorem mem_follow_iff {ends nexts : Grouping Symbol} {first : Symbol → SymbolSet} {start e s x : Symbol} :
    x ∈ follow ends nexts first start e s ↔ (x = e ∧ Reaches ends s start) ∨
      ∃ above next, Reaches ends s above ∧ next ∈ nexts.get above ∧ x ∈ first next := by
  rw [follow, OrderedSet.mem_ofList, List.mem_append, List.mem_flatMap]
  simp only [List.mem_ite_nil_right, List.mem_singleton, mem_reached_iff, Numbering.toList, Array.mem_toList_iff,
    ← Numbering.mem_def, Numbering.mem_ofList, List.mem_flatMap, ← OrderedSet.mem_def]
  refine or_congr and_comm ?_
  constructor
  · rintro ⟨next, ⟨above, habove, hnext⟩, hx⟩
    exact ⟨above, next, habove, hnext, hx⟩
  · rintro ⟨above, next, habove, hnext, hx⟩
    exact ⟨next, ⟨above, habove, hnext⟩, hx⟩

end Sets

/-! ### Closed sets -/

namespace Grammar

/-- There is a FOLLOW set of `s`, and `x` is in it. -/
def Follows (g : Grammar) (s x : Symbol) : Prop := ∃ follow, g.follow? s = some follow ∧ x ∈ follow

/-- Each rule of the grammar passes on what the sets say of the symbols of its right-hand side, and in
the case of FOLLOW of its left-hand side. -/
structure HasSets (g : Grammar) (nullable : Symbol → Bool) (first : Symbol → SymbolSet) : Prop where
  nullable_lhs : ∀ {r rule}, g.rule? r = some rule → rule.rhs.all nullable → nullable rule.lhs
  first_self : ∀ {x}, g.isTerminal x → x ∈ first x
  first_lhs : ∀ {r rule s x}, g.rule? r = some rule → s ∈ Sets.leading nullable rule.rhs → x ∈ first s →
    x ∈ first rule.lhs
  follow_next : ∀ {r rule α s β next x}, g.rule? r = some rule → rule.rhs = α ++ s :: β → ¬ g.isTerminal s →
    next ∈ Sets.leading nullable β → x ∈ first next → g.Follows s x
  follow_end : ∀ {r rule α s β x}, g.rule? r = some rule → rule.rhs = α ++ s :: β → ¬ g.isTerminal s →
    β.all nullable → g.Follows rule.lhs x → g.Follows s x
  follow_start : g.Follows g.startSymbol g.endSymbol

/-- A symbol can come first in a string with the end symbol after it. -/
def Begins (g : Grammar) (nullable : Symbol → Bool) (first : Symbol → SymbolSet) (l : List Symbol) (x : Symbol) :
    Prop :=
  (∃ s ∈ Sets.leading nullable l, x ∈ first s) ∨ l.all nullable ∧ x = g.endSymbol

variable {g : Grammar} {u : Symbol} {nullable : Symbol → Bool} {first : Symbol → SymbolSet}

namespace HasSets

variable {l l' : List Symbol} {x : Symbol}

/-! ### Going back along a derivation -/

/-- If a string vanishes, so does every string that it has come from. -/
theorem all_nullable_of_rewrites (hsets : g.HasSets nullable first) (h : g.Rewrites l l') (hl' : l'.all nullable) :
    l.all nullable := by
  obtain ⟨r, rule, α, β, hrule, rfl, rfl⟩ := h
  simp only [List.all_append, List.all_cons, Bool.and_eq_true] at hl' ⊢
  obtain ⟨⟨hα, hrhs⟩, hβ⟩ := hl'
  exact ⟨hα, hsets.nullable_lhs hrule hrhs, hβ⟩

/-- A rewriting brings nothing to the front of a string that could not have come there before. -/
theorem exists_leading_of_rewrites (hsets : g.HasSets nullable first) (h : g.Rewrites l l')
    (hx : ∃ s ∈ Sets.leading nullable l', x ∈ first s) : ∃ s ∈ Sets.leading nullable l, x ∈ first s := by
  obtain ⟨r, rule, α, β, hrule, rfl, rfl⟩ := h
  obtain ⟨s, hs, hx⟩ := hx
  rw [List.append_assoc, Sets.mem_leading_append] at hs
  rcases hs with hs | ⟨hα, hs⟩
  · exact ⟨s, Sets.mem_leading_append.mpr (Or.inl hs), hx⟩
  rcases Sets.mem_leading_append.mp hs with hs | ⟨hrhs, hs⟩
  · exact ⟨rule.lhs, Sets.mem_leading_append.mpr (Or.inr ⟨hα, List.mem_cons_self⟩), hsets.first_lhs hrule hs hx⟩
  · refine ⟨s, Sets.mem_leading_append.mpr (Or.inr ⟨hα, List.mem_cons_of_mem _ ?_⟩), hx⟩
    rwa [if_pos (hsets.nullable_lhs hrule hrhs)]

/-- In the forms that are derived from a symbol `s₀`, what can come first after a symbol follows it. If all that
stands after it is nullable, what follows `s₀` follows it as well. -/
theorem follows_of_derives (hsets : g.HasSets nullable first) (hg : g.Proper u) {s₀ s : Symbol} {δ ρ : List Symbol}
    (h : g.Derives [s₀] (δ ++ s :: ρ)) (hs : ¬ g.isTerminal s)
    (hx : (∃ next ∈ Sets.leading nullable ρ, x ∈ first next) ∨ ρ.all nullable ∧ g.Follows s₀ x) :
    g.Follows s x := by
  generalize hform : δ ++ s :: ρ = form at h
  induction h generalizing δ s ρ with
  | refl =>
      rcases List.append_eq_singleton_iff.mp hform with ⟨rfl, heq⟩ | ⟨_, hnil⟩
      · obtain ⟨rfl, rfl⟩ := List.cons_eq_cons.mp heq
        rcases hx with ⟨_, hnone, _⟩ | ⟨_, hx⟩
        · cases hnone
        · exact hx
      · cases hnil
  | tail _ hstep ih =>
      obtain ⟨r, rule, α, β, hrule, rfl, rfl⟩ := hstep
      have hlhs := hg.not_isTerminal_lhs hrule
      rcases append_eq_append_cons_iff.mp hform.symm with ⟨ρ', hleft, rfl⟩ | ⟨δ', rfl, rfl⟩
      · rcases append_eq_append_cons_iff.mp hleft with ⟨ρ'', rfl, rfl⟩ | ⟨δ', rfl, hrhs⟩
        -- The rule was applied to the right of the symbol.
        · have hback : g.Rewrites (ρ'' ++ rule.lhs :: β) (ρ'' ++ rule.rhs ++ β) :=
            ⟨r, rule, ρ'', β, hrule, rfl, rfl⟩
          have hbefore : δ ++ s :: (ρ'' ++ rule.lhs :: β) = δ ++ s :: ρ'' ++ rule.lhs :: β := by simp
          refine ih hs ?_ hbefore
          exact hx.imp (hsets.exists_leading_of_rewrites hback)
            (And.imp_left (hsets.all_nullable_of_rewrites hback))
        -- The symbol has come with the rule.
        · simp only [Sets.mem_leading_append, List.all_append, Bool.and_eq_true] at hx
          rcases hx with ⟨next, hnext | ⟨hρ', hnext⟩, hx⟩ | ⟨⟨hρ', hβ⟩, hx⟩
          · exact hsets.follow_next hrule hrhs hs hnext hx
          · exact hsets.follow_end hrule hrhs hs hρ' (ih hlhs (Or.inl ⟨next, hnext, hx⟩) rfl)
          · exact hsets.follow_end hrule hrhs hs hρ' (ih hlhs (Or.inr ⟨hβ, hx⟩) rfl)
      -- The rule was applied to the left of the symbol.
      · have hbefore : α ++ rule.lhs :: δ' ++ s :: ρ = α ++ rule.lhs :: (δ' ++ s :: ρ) := by simp
        exact ih hs hx hbefore

/-- Whatever can begin the rest of a form that is derived from the start symbol, or the end symbol after an empty
rest, follows the symbol before it. -/
theorem follows_of_deriveRightmost (hsets : g.HasSets nullable first) (hg : g.Proper u) {d : List RuleId}
    {δ ρ : List Symbol} {s x : Symbol} (h : g.deriveRightmost d [u] = some (δ ++ s :: ρ)) (hs : ¬ g.isTerminal s)
    (hx : g.Begins nullable first ρ x) : g.Follows s x := by
  have hstart : g.Derives [g.startSymbol] (δ ++ s :: ρ) :=
    (derives_of_rule hg.startRule).trans (derives_of_deriveRightmost h)
  refine hsets.follows_of_derives hg hstart hs (hx.imp_right ?_)
  rintro ⟨hρ, rfl⟩
  exact ⟨hρ, hsets.follow_start⟩

end HasSets

end Grammar

/-! ### The sets of a grammar that is built -/

namespace AugmentedGrammar

/-- The steps from a symbol to those that can come first in place of it. -/
def begins (g : AugmentedGrammar) : Grouping Symbol :=
  .ofPairs g.symbolCount (Sets.begins g.isNullable g.rules.toList)

/-- The steps from a symbol to the left-hand sides of the rules that it ends. -/
def ends (g : AugmentedGrammar) : Grouping Symbol := .ofPairs g.symbolCount (Sets.ends g.isNullable g.rules.toList)

/-- The steps from a symbol to those that can come next in a rule. -/
def nexts (g : AugmentedGrammar) : Grouping Symbol := .ofPairs g.symbolCount (Sets.nexts g.isNullable g.rules.toList)

def first (g : AugmentedGrammar) (s : Symbol) : SymbolSet := (g.first? s).getD ∅

variable {g : AugmentedGrammar} {labels : Array String} {userRules : Array Rule} {u : Symbol}

theorem mem_first_iff (hg : g = ofRules labels userRules u) {s x : Symbol} (hs : s < g.symbolCount) :
    x ∈ g.first s ↔ Sets.Reaches g.begins s x ∧ g.isTerminal x := by
  subst hg
  rw [symbolCount_ofRules] at hs
  rw [← Sets.mem_first_iff, first, begins, symbolCount_ofRules]
  change x ∈ (((Array.range (labels.size + 1)).map _)[s]?).getD ∅ ↔ _
  rw [Array.getElem?_map, Array.getElem?_range, if_pos hs]
  rfl

/-- Each symbol has a FOLLOW set. The one of a terminal is empty. -/
theorem follow?_eq_some (hg : g = ofRules labels userRules u) {s : Symbol} (hs : s < g.symbolCount) :
    g.follow? s = some (if g.isTerminal s then ∅
      else Sets.follow g.ends g.nexts g.first g.startSymbol g.endSymbol s) := by
  subst hg
  rw [symbolCount_ofRules] at hs
  rw [ends, nexts, symbolCount_ofRules]
  change ((Array.range (labels.size + 1)).map fun s =>
    if (ofRules labels userRules u).isTerminal s then ∅ else _)[s]? = _
  rw [Array.getElem?_map, Array.getElem?_range, if_pos hs]
  rfl

theorem follows_iff (hg : g = ofRules labels userRules u) {s x : Symbol} (hs : s < g.symbolCount)
    (hnonterminal : ¬ g.isTerminal s) : g.Follows s x ↔
      (x = g.endSymbol ∧ Sets.Reaches g.ends s g.startSymbol) ∨
        ∃ above next, Sets.Reaches g.ends s above ∧ next ∈ g.nexts.get above ∧ x ∈ g.first next := by
  have hfollow := follow?_eq_some hg hs
  rw [if_neg hnonterminal] at hfollow
  rw [← Sets.mem_follow_iff]
  simp only [Grammar.Follows, hfollow, Option.some.injEq, exists_eq_left']

theorem mem_rules_iff {rule : Rule} : rule ∈ g.rules.toList ↔ ∃ r, g.rule? r = some rule := by
  rw [Array.mem_toList_iff, Array.mem_iff_getElem?]
  rfl

/-- The sets that a grammar is built with are closed under its rules. -/
theorem hasSets (hg : g = ofRules labels userRules u) (hproper : g.Proper u) :
    g.HasSets g.isNullable g.first where
  nullable_lhs := by
    intro r rule hrule hall
    subst hg
    exact Sets.mem_nullableFrom (mem_rules_iff.mpr ⟨r, hrule⟩) hall
  first_self := by
    intro x hx
    exact (mem_first_iff hg (hproper.isTerminal_iff.mp hx).1).mpr ⟨.refl, hx⟩
  first_lhs := by
    intro r rule s x hrule hs hx
    have hlt := hproper.rhs_lt hrule (Sets.mem_of_mem_leading hs)
    have hlhs := hproper.symbols_lt hrule rule.lhs List.mem_cons_self
    obtain ⟨hreach, hterminal⟩ := (mem_first_iff hg hlt).mp hx
    refine (mem_first_iff hg hlhs).mpr ⟨.head ?_ hreach, hterminal⟩
    exact (Grouping.mem_get_ofPairs hlhs).mpr
      (Sets.mem_begins_iff.mpr ⟨rule, mem_rules_iff.mpr ⟨r, hrule⟩, rfl, hs⟩)
  follow_next := by
    intro r rule α s β next x hrule hrhs hs hnext hx
    have hlt := hproper.rhs_lt hrule (hrhs ▸ List.mem_append_right α List.mem_cons_self)
    refine (follows_iff hg hlt hs).mpr (Or.inr ⟨s, next, .refl, ?_, hx⟩)
    exact (Grouping.mem_get_ofPairs hlt).mpr
      (Sets.mem_nexts_iff.mpr ⟨rule, mem_rules_iff.mpr ⟨r, hrule⟩, α, β, hrhs, hnext⟩)
  follow_end := by
    intro r rule α s β x hrule hrhs hs hβ hx
    have hlt := hproper.rhs_lt hrule (hrhs ▸ List.mem_append_right α List.mem_cons_self)
    have hlhs := hproper.symbols_lt hrule rule.lhs List.mem_cons_self
    have hstep : rule.lhs ∈ g.ends.get s := (Grouping.mem_get_ofPairs hlt).mpr
      (Sets.mem_ends_iff.mpr ⟨rule, mem_rules_iff.mpr ⟨r, hrule⟩, rfl, α, β, hrhs, hβ⟩)
    refine (follows_iff hg hlt hs).mpr ?_
    rcases (follows_iff hg hlhs (hproper.not_isTerminal_lhs hrule)).mp hx with ⟨hend, hreach⟩ |
      ⟨above, next, hreach, hnext, hx⟩
    · exact Or.inl ⟨hend, .head hstep hreach⟩
    · exact Or.inr ⟨above, next, .head hstep hreach, hnext, hx⟩
  follow_start := by
    have hlt := hproper.symbols_lt hproper.startRule g.startSymbol List.mem_cons_self
    refine (follows_iff hg hlt ?_).mpr (Or.inl ⟨rfl, .refl⟩)
    exact hproper.not_isTerminal_lhs hproper.startRule

end AugmentedGrammar

theorem Builder.hasSets_of_build {calls : List Builder.Call} {g : AugmentedGrammar}
    (h : (Builder.ofCalls calls).build = .ok g) : g.HasSets g.isNullable g.first :=
  AugmentedGrammar.hasSets (Builder.eq_ofRules_of_build h) (Builder.proper_of_build h)

end ShiftReduce
