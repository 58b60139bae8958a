import Mathlib.Data.List.Permutation
import ShiftReduce.Grammar.Builder

-- `cbv` reads answers of the builder by the equation of `Prod.snd` in `List.Permutation`.

/-! What every grammar that comes out of a builder has in common, whatever calls the builder got and
whichever of them failed: its rules mention symbols that have labels, and never the end symbol; a symbol
is a terminal if no rule has it on the left; and the start symbol occurs in the start rule only. -/

namespace ShiftReduce

/-- What the table construction relies on. The start rule derives the symbol `u`. -/
structure Grammar.Proper (g : Grammar) (u : Symbol) : Prop where
  startRule : g.rule? g.startRule = some ⟨g.startSymbol, [u]⟩
  start_unique : ∀ {r rule}, g.rule? r = some rule → rule.lhs = g.startSymbol → r = g.startRule
  start_not_mem : ∀ {r rule}, g.rule? r = some rule → g.startSymbol ∉ rule.rhs
  end_not_mem : ∀ {r rule}, g.rule? r = some rule → g.endSymbol ∉ rule.lhs :: rule.rhs
  end_lt : g.endSymbol < g.symbolCount
  symbols_lt : ∀ {r rule}, g.rule? r = some rule → ∀ s ∈ rule.lhs :: rule.rhs, s < g.symbolCount
  exists_rule : ∃ r rule, g.rule? r = some rule ∧ rule.lhs = u
  isTerminal_iff : ∀ {s}, g.isTerminal s ↔
    s < g.symbolCount ∧ ∀ r rule, g.rule? r = some rule → rule.lhs ≠ s
  mem_rulesWithLhs : ∀ {s r}, r ∈ g.rulesWithLhs s ↔ ∃ rule, g.rule? r = some rule ∧ rule.lhs = s
  symbols : g.symbols = List.range g.symbolCount
  terminals : g.terminals = (List.range g.symbolCount).filter g.isTerminal
  nonterminals : g.nonterminals = (List.range g.symbolCount).filter fun s => !g.isTerminal s
  follow : ∀ {s}, s < g.symbolCount → ∃ f, g.follow? s = some f

namespace Grammar.Proper

variable {g : Grammar} {u : Symbol}

/-- What stands on the left of a rule is not a terminal. -/
theorem not_isTerminal_lhs (hg : g.Proper u) {r : RuleId} {rule : Rule} (h : g.rule? r = some rule) :
    ¬ g.isTerminal rule.lhs :=
  fun hterminal => (hg.isTerminal_iff.mp hterminal).2 r rule h rfl

theorem not_isTerminal_start (hg : g.Proper u) : ¬ g.isTerminal u := by
  obtain ⟨r, rule, hrule, rfl⟩ := hg.exists_rule
  exact hg.not_isTerminal_lhs hrule

theorem rhs_lt (hg : g.Proper u) {r : RuleId} {rule : Rule} (h : g.rule? r = some rule) {s : Symbol}
    (hs : s ∈ rule.rhs) : s < g.symbolCount :=
  hg.symbols_lt h s (List.mem_cons_of_mem _ hs)

theorem mem_symbols (hg : g.Proper u) {s : Symbol} : s ∈ g.symbols ↔ s < g.symbolCount := by
  rw [hg.symbols, List.mem_range]

theorem mem_terminals (hg : g.Proper u) {s : Symbol} : s ∈ g.terminals ↔ s < g.symbolCount ∧ g.isTerminal s := by
  rw [hg.terminals, List.mem_filter, List.mem_range]

theorem mem_nonterminals (hg : g.Proper u) {s : Symbol} :
    s ∈ g.nonterminals ↔ s < g.symbolCount ∧ ¬ g.isTerminal s := by
  rw [hg.nonterminals, List.mem_filter, List.mem_range, Bool.not_eq_true, Bool.not_eq_true']

end Grammar.Proper

/-! ### Arrays in which nothing stands twice -/

/-- If equal elements have equal places, nothing stands twice. -/
theorem nodup_of_getElem?_unique {α : Type} {elems : Array α}
    (h : ∀ (m n : Nat) (a : α), elems[m]? = some a → elems[n]? = some a → m = n) : elems.toList.Nodup := by
  refine List.pairwise_iff_getElem.mpr fun m n hm hn hlt heq => Nat.ne_of_lt hlt (h m n elems.toList[n] ?_ ?_)
  · rw [← Array.getElem?_toList, List.getElem?_eq_getElem hm, heq]
  · rw [← Array.getElem?_toList, List.getElem?_eq_getElem hn]

/-- Where nothing stands twice, a search for an element finds each place and no other. -/
theorem idxOf?_eq_some_iff_of_nodup {α : Type} [BEq α] [LawfulBEq α] {elems : Array α} (h : elems.toList.Nodup) {a : α}
    {n : Nat} : elems.idxOf? a = some n ↔ elems[n]? = some a := by
  change elems.toList.toArray.idxOf? a = some n ↔ _
  rw [List.idxOf?_toArray, List.idxOf?_eq_some_iff, ← Array.getElem?_toList, List.getElem?_eq_some_iff]
  refine exists_congr fun hn => and_iff_left_of_imp ?_
  rintro rfl m hm heq
  exact List.pairwise_iff_getElem.mp h m n (Nat.lt_trans hm hn) hn hm heq

namespace Builder

/-! ### Calls -/

/-- What can be asked of a builder. -/
inductive Call where
  | addToken (label : String)
  | addRule (lhs : Symbol) (rhs : List Symbol)
  | setStart (start : Symbol)

/-- The builder that a call leaves behind. -/
def perform (b : Builder) : Call → Builder
  | .addToken label => (b.addToken label).2
  | .addRule lhs rhs => (b.insertRule lhs rhs).2
  | .setStart start => (b.chooseStart start).2

/-- A call that fails leaves the builder as it was, and those that come after it are made all the same. -/
def ofCalls (calls : List Call) : Builder := calls.foldl perform empty

/-- The index leads from each label to the symbol that has it, and from nowhere else. -/
def Indexed (b : Builder) : Prop :=
  ∀ (label : String) (s : Symbol), b.symbol? label = some s ↔ b.labels[s]? = some label

/-- The index and the labels say the same, all symbols that a builder mentions are registered, and its rules are
free of the end symbol. -/
structure Valid (b : Builder) : Prop where
  indexed : b.Indexed
  rules : ∀ rule ∈ b.rules, ∀ s ∈ rule.lhs :: rule.rhs, s < b.labels.size ∧ s ≠ endSymbol
  start : ∀ s, b.start = some s → s < b.labels.size

/-- The builder is what some calls have made of the empty one. -/
def Called (b : Builder) : Prop := ∃ calls, ofCalls calls = b

/-- With an error, the builder is given up as well. -/
theorem goOn_eq_ok_iff {α : Type} {answer : Except GrammarError α × Builder} {a : α} {b : Builder} :
    goOn answer = .ok (a, b) ↔ answer = (.ok a, b) := by
  obtain ⟨_ | _, _⟩ := answer <;> simp [goOn]

theorem insertRule_of_addRule {b b' : Builder} {lhs : Symbol} {rhs : List Symbol} {r : RuleId}
    (h : b.addRule lhs rhs = .ok (r, b')) : b.insertRule lhs rhs = (.ok r, b') :=
  goOn_eq_ok_iff.mp h

theorem chooseStart_of_setStart {b b' : Builder} {start : Symbol} (h : b.setStart start = .ok b') :
    b.chooseStart start = (.ok (), b') := by
  rw [setStart] at h
  rcases hchoose : b.chooseStart start with ⟨_ | _, _⟩ <;> rw [hchoose] at h <;> cases h
  rfl

theorem Called.empty : Builder.empty.Called := ⟨[], rfl⟩

/-- Another call can be put at the end. -/
theorem Called.perform {b : Builder} (h : b.Called) (call : Call) : (b.perform call).Called := by
  obtain ⟨calls, rfl⟩ := h
  exact ⟨calls ++ [call], List.foldl_append⟩

theorem Called.addTokens {b : Builder} (h : b.Called) (labels : List String) : (b.addTokens labels).2.Called := by
  induction labels generalizing b with
  | nil => exact h
  | cons label labels ih => exact ih (h.perform (.addToken label))

theorem Called.addRule {b b' : Builder} (h : b.Called) {lhs : Symbol} {rhs : List Symbol} {r : RuleId}
    (hadd : b.addRule lhs rhs = .ok (r, b')) : b'.Called := by
  have hcalled := h.perform (.addRule lhs rhs)
  rwa [Builder.perform, insertRule_of_addRule hadd] at hcalled

theorem Called.setStart {b b' : Builder} (h : b.Called) {start : Symbol} (hset : b.setStart start = .ok b') :
    b'.Called := by
  have hcalled := h.perform (.setStart start)
  rwa [Builder.perform, chooseStart_of_setStart hset] at hcalled

/-- A symbol may be used in a rule if it is registered and is not the end symbol. -/
theorem symbolError?_eq_none_iff {b : Builder} {s : Symbol} :
    b.symbolError? s = none ↔ s < b.labels.size ∧ s ≠ endSymbol := by
  unfold symbolError?
  split
  · simp only [reduceCtorEq, false_iff]
    lia
  · split
    · simp [*]
    · simp only [true_iff]
      exact ⟨by lia, by assumption⟩

/-- A rule is added if nothing speaks against any of its symbols. -/
theorem insertRule_of_forall {b : Builder} {lhs : Symbol} {rhs : List Symbol}
    (h : ∀ s ∈ lhs :: rhs, b.symbolError? s = none) :
    b.insertRule lhs rhs = (.ok (b.rules.size + 1), { b with rules := b.rules.push ⟨lhs, rhs⟩ }) := by
  rw [insertRule, List.findSome?_eq_none_iff.mpr h]
  simp

/-- The builder starts with the end symbol, which is in the index. -/
theorem indexed_empty : empty.Indexed := by
  intro label s
  rw [symbol?, empty, Std.TreeMap.getElem?_insert]
  by_cases h : compare endLabel label = .eq
  · obtain rfl := Std.LawfulEqOrd.eq_of_compare h
    rw [if_pos h]
    cases s <;> simp
  · have hne : endLabel ≠ label := fun heq => h (heq ▸ Std.ReflOrd.compare_self)
    rw [if_neg h]
    cases s <;> simp [hne]

/-- No label belongs to two symbols. -/
theorem Indexed.unique {b : Builder} (h : b.Indexed) {s t : Symbol} {label : String} (hs : b.labels[s]? = some label)
    (ht : b.labels[t]? = some label) : s = t :=
  Option.some.inj (((h label s).mpr hs).symm.trans ((h label t).mpr ht))

theorem Indexed.nodup {b : Builder} (h : b.Indexed) : b.labels.toList.Nodup :=
  nodup_of_getElem?_unique fun _ _ _ => h.unique

/-- A label that is in the index already is not put in again. -/
theorem Indexed.addToken {b : Builder} (h : b.Indexed) (label : String) : (b.addToken label).2.Indexed := by
  unfold Builder.addToken
  split
  · exact h
  · rename_i hnone
    intro label' s
    have hnew : b.labels[s]? ≠ some label := fun hs => by
      rw [(h label s).mpr hs] at hnone
      cases hnone
    dsimp only [symbol?]
    rw [Std.TreeMap.getElem?_insert, Array.getElem?_push]
    by_cases hcompare : compare label label' = .eq
    · obtain rfl := Std.LawfulEqOrd.eq_of_compare hcompare
      rw [if_pos hcompare, Option.some.injEq]
      split
      · simp [*]
      · simp [hnew, Ne.symm ‹_›]
    · have hne : label ≠ label' := fun heq => hcompare (heq ▸ Std.ReflOrd.compare_self)
      rw [if_neg hcompare]
      refine (h label' s).trans ?_
      split
      · subst s
        simp [hne]
      · rfl

theorem valid_empty : empty.Valid where
  indexed := indexed_empty
  rules := by simp [empty]
  start := by simp [empty]

theorem Valid.addToken {b : Builder} (h : b.Valid) (label : String) : (b.addToken label).2.Valid := by
  refine ⟨h.indexed.addToken label, ?_, ?_⟩ <;> unfold Builder.addToken <;> split
  · exact h.rules
  · intro rule hrule s hs
    have := h.rules rule hrule s hs
    rw [Array.size_push]
    exact ⟨by lia, this.2⟩
  · exact h.start
  · intro s hs
    have := h.start s hs
    rw [Array.size_push]
    lia

/-- A rule is put in only if nothing speaks against any of its symbols. -/
theorem Valid.insertRule {b : Builder} (h : b.Valid) (lhs : Symbol) (rhs : List Symbol) :
    (b.insertRule lhs rhs).2.Valid := by
  unfold Builder.insertRule
  split
  · exact h
  · rename_i hnone
    refine ⟨h.indexed, ?_, h.start⟩
    intro rule hrule s hs
    rcases Array.mem_push.mp hrule with hrule | rfl
    · exact h.rules rule hrule s hs
    · exact symbolError?_eq_none_iff.mp (List.findSome?_eq_none_iff.mp hnone s hs)

/-- The start symbol has to be registered, but there need not be a rule for it yet. -/
theorem Valid.chooseStart {b : Builder} (h : b.Valid) (start : Symbol) : (b.chooseStart start).2.Valid := by
  unfold Builder.chooseStart
  split
  · exact h
  · refine ⟨h.indexed, h.rules, ?_⟩
    intro s hs
    obtain rfl := Option.some.inj hs
    lia

theorem Valid.perform {b : Builder} (h : b.Valid) (call : Call) : (b.perform call).Valid := by
  cases call with
  | addToken label => exact h.addToken label
  | addRule lhs rhs => exact h.insertRule lhs rhs
  | setStart start => exact h.chooseStart start

/-- Builders are valid whatever calls they get. -/
theorem valid_ofCalls (calls : List Call) : (ofCalls calls).Valid := by
  suffices ∀ b : Builder, b.Valid → (calls.foldl Builder.perform b).Valid from this empty valid_empty
  induction calls with
  | nil => exact fun b hb => hb
  | cons call calls ih => exact fun b hb => ih (b.perform call) (hb.perform call)

end Builder

/-! ### The grammar that is built -/

namespace AugmentedGrammar

variable {labels : Array String} {userRules : Array Rule} {u : Symbol}

@[simp] theorem rules_ofRules : (ofRules labels userRules u).rules = #[⟨labels.size, [u]⟩] ++ userRules := rfl

@[simp] theorem symbolCount_ofRules : (ofRules labels userRules u).symbolCount = labels.size + 1 :=
  Array.size_push _

theorem isTerminal_ofRules {s : Symbol} : (ofRules labels userRules u).isTerminal s =
    (decide (s < labels.size + 1) && ((ofRules labels userRules u).rulesWithLhs s).isEmpty) := rfl

/-- The start rule comes first. It is the only one that was not given. -/
theorem rule?_ofRules {r : RuleId} {rule : Rule} (h : (ofRules labels userRules u).rule? r = some rule) :
    r = 0 ∧ rule = ⟨labels.size, [u]⟩ ∨ 0 < r ∧ rule ∈ userRules := by
  change (#[⟨labels.size, [u]⟩] ++ userRules)[r]? = some rule at h
  cases r with
  | zero =>
      rw [Array.getElem?_append_left (by simp)] at h
      exact Or.inl ⟨rfl, (Option.some.inj h).symm⟩
  | succ r =>
      rw [Array.getElem?_append_right (by simp)] at h
      exact Or.inr ⟨Nat.succ_pos r, Array.mem_of_getElem? h⟩

theorem startRule_ofRules : (ofRules labels userRules u).rule? 0 = some ⟨labels.size, [u]⟩ := by
  change (#[⟨labels.size, [u]⟩] ++ userRules)[0]? = some ⟨labels.size, [u]⟩
  rw [Array.getElem?_append_left (by simp)]
  rfl

/-- The rules that were given come after the start rule. -/
theorem exists_rule?_ofRules {rule : Rule} (h : rule ∈ userRules) :
    ∃ r, (ofRules labels userRules u).rule? r = some rule := by
  obtain ⟨n, hn⟩ := Array.mem_iff_getElem?.mp h
  refine ⟨n + 1, ?_⟩
  change (#[⟨labels.size, [u]⟩] ++ userRules)[n + 1]? = some rule
  rw [Array.getElem?_append_right (by simp)]
  exact hn

/-- The index of the rules tells of each rule under its left-hand side. -/
theorem mem_rulesWithLhs_ofRules {s : Symbol} {r : RuleId} (hs : s < labels.size + 1) :
    r ∈ (ofRules labels userRules u).rulesWithLhs s ↔
      ∃ rule, (ofRules labels userRules u).rule? r = some rule ∧ rule.lhs = s := by
  change r ∈ (Grouping.ofPairs _ _).get s ↔ ∃ rule, (#[⟨labels.size, [u]⟩] ++ userRules)[r]? = some rule ∧ _
  rw [Grouping.get_ofPairs hs]
  simp only [List.mem_filterMap, List.mem_map, Prod.exists, List.mem_zipIdx_iff_getElem?, Array.getElem?_toList]
  constructor
  · rintro ⟨_, _, ⟨rule, r', hrule, hpair⟩, hite⟩
    cases hpair
    split at hite
    · rename_i hlhs
      obtain rfl := Option.some.inj hite
      exact ⟨rule, hrule, hlhs⟩
    · cases hite
  · rintro ⟨rule, hrule, rfl⟩
    exact ⟨rule.lhs, r, ⟨rule, r, hrule, rfl⟩, if_pos rfl⟩

section Registered

variable (hu : u < labels.size) (hrules : ∀ rule ∈ userRules, ∀ s ∈ rule.lhs :: rule.rhs, s < labels.size ∧ s ≠ 0)

include hu hrules

/-- Only the start symbol is not among the registered symbols. -/
theorem lt_of_rule?_ofRules {r : RuleId} {rule : Rule} (h : (ofRules labels userRules u).rule? r = some rule)
    {s : Symbol} (hs : s ∈ rule.lhs :: rule.rhs) : s < labels.size + 1 := by
  rcases rule?_ofRules h with ⟨_, rfl⟩ | ⟨_, hrule⟩
  · rcases List.mem_cons.mp hs with rfl | hs
    · exact Nat.lt_succ_self _
    · exact List.mem_singleton.mp hs ▸ Nat.lt_succ_of_lt hu
  · exact Nat.lt_succ_of_lt (hrules rule hrule s hs).1

theorem mem_rulesWithLhs_iff_ofRules {s : Symbol} {r : RuleId} : r ∈ (ofRules labels userRules u).rulesWithLhs s ↔
    ∃ rule, (ofRules labels userRules u).rule? r = some rule ∧ rule.lhs = s := by
  by_cases hs : s < labels.size + 1
  · exact mem_rulesWithLhs_ofRules hs
  · have hnil : (ofRules labels userRules u).rulesWithLhs s = [] := Grouping.get_ofPairs_of_le (Nat.not_lt.mp hs)
    rw [hnil]
    refine iff_of_false List.not_mem_nil ?_
    rintro ⟨rule, hrule, rfl⟩
    exact hs (lt_of_rule?_ofRules hu hrules hrule List.mem_cons_self)

/-- A symbol is a terminal if no rule has it on the left. -/
theorem isTerminal_iff_ofRules {s : Symbol} : (ofRules labels userRules u).isTerminal s ↔
    s < labels.size + 1 ∧ ∀ r rule, (ofRules labels userRules u).rule? r = some rule → rule.lhs ≠ s := by
  rw [isTerminal_ofRules, Bool.and_eq_true, decide_eq_true_eq, List.isEmpty_iff, List.eq_nil_iff_forall_not_mem]
  refine and_congr_right fun _ => forall_congr' fun r => ?_
  rw [mem_rulesWithLhs_iff_ofRules hu hrules]
  simp

omit hrules in
/-- The end symbol is registered before all others, and the start symbol after them. -/
theorem end_not_mem_start_ofRules (hu0 : u ≠ 0) : 0 ∉ labels.size :: [u] := by
  intro hend
  rcases List.mem_cons.mp hend with hend | hend
  · exact Nat.not_lt_zero u (hend ▸ hu)
  · exact hu0 (List.mem_singleton.mp hend).symm

/-- If the rules only mention registered symbols, and one of them derives from `u`, the grammar is proper. -/
theorem proper_ofRules (hstart : ∃ rule ∈ userRules, rule.lhs = u) : (ofRules labels userRules u).Proper u where
  startRule := startRule_ofRules
  start_unique := by
    intro r rule h hlhs
    rcases rule?_ofRules h with ⟨rfl, _⟩ | ⟨_, hrule⟩
    · rfl
    · have hlt := (hrules rule hrule rule.lhs List.mem_cons_self).1
      exact absurd (hlhs ▸ hlt) (Nat.lt_irrefl _)
  start_not_mem := by
    intro r rule h hmem
    rcases rule?_ofRules h with ⟨_, rfl⟩ | ⟨_, hrule⟩
    · exact Nat.ne_of_gt hu (List.mem_singleton.mp hmem)
    · exact Nat.lt_irrefl _ (hrules rule hrule _ (List.mem_cons_of_mem _ hmem)).1
  end_not_mem := by
    intro r rule h hend
    rcases rule?_ofRules h with ⟨_, rfl⟩ | ⟨_, hrule⟩
    · obtain ⟨rule, hrule, rfl⟩ := hstart
      exact end_not_mem_start_ofRules hu (hrules rule hrule rule.lhs List.mem_cons_self).2 hend
    · exact (hrules rule hrule 0 hend).2 rfl
  end_lt := symbolCount_ofRules ▸ Nat.succ_pos _
  symbols_lt := fun h _ hs => symbolCount_ofRules ▸ lt_of_rule?_ofRules hu hrules h hs
  exists_rule := by
    obtain ⟨rule, hrule, hlhs⟩ := hstart
    obtain ⟨r, hr⟩ := exists_rule?_ofRules hrule
    exact ⟨r, rule, hr, hlhs⟩
  isTerminal_iff := symbolCount_ofRules ▸ isTerminal_iff_ofRules hu hrules
  mem_rulesWithLhs := mem_rulesWithLhs_iff_ofRules hu hrules
  symbols := rfl
  terminals := rfl
  nonterminals := rfl
  follow := by
    intro s hs
    rw [symbolCount_ofRules] at hs
    exact ⟨_, Array.getElem?_eq_getElem (by simpa using hs)⟩

end Registered

end AugmentedGrammar

theorem Builder.build_eq_ok {b : Builder} {labels : Array String} {rules : Array Rule} {start : Symbol}
    (h : (b.labels, b.rules, b.start) = (labels, rules, some start)) (hrule : rules.any (·.lhs == start)) :
    b.build = .ok (.ofRules labels rules start) := by
  simp only [Prod.mk.injEq] at h
  obtain ⟨rfl, rfl, hstart⟩ := h
  rw [build, hstart]
  exact if_pos hrule

/-- A grammar only comes out of a builder with a start symbol that has a rule. -/
theorem Builder.of_build {b : Builder} {g : AugmentedGrammar} (h : b.build = .ok g) :
    b.start = some g.userStart ∧ (∃ rule ∈ b.rules, rule.lhs = g.userStart) ∧
      g = .ofRules b.labels b.rules g.userStart := by
  unfold build at h
  split at h
  · cases h
  · rename_i start hstart
    split at h
    · rename_i hany
      obtain rfl := Except.ok.inj h
      obtain ⟨rule, hrule, hlhs⟩ := Array.any_eq_true'.mp hany
      exact ⟨hstart, ⟨rule, hrule, beq_iff_eq.mp hlhs⟩, rfl⟩
    · cases h

theorem Builder.eq_ofRules_of_build {b : Builder} {g : AugmentedGrammar} (h : b.build = .ok g) :
    g = .ofRules b.labels b.rules g.userStart :=
  (Builder.of_build h).2.2

/-- Whatever calls there were, what is built is a proper grammar. -/
theorem Builder.proper_of_build {calls : List Builder.Call} {g : AugmentedGrammar}
    (h : (Builder.ofCalls calls).build = .ok g) : g.Proper g.userStart := by
  have hvalid := Builder.valid_ofCalls calls
  obtain ⟨hstart, hrule, hg⟩ := Builder.of_build h
  have hproper := AugmentedGrammar.proper_ofRules (hvalid.start _ hstart) hvalid.rules hrule
  rwa [← hg] at hproper

end ShiftReduce
