import ShiftReduce.Proofs.Stack
import ShiftReduce.Proofs.Transitions
import ShiftReduce.Recognizer.Machine

/-! What a state knows of the symbols that lead to it. An item is valid after a string if its rule has been
entered somewhere in the string and what comes from there on are its symbols before the dot. Whichever way
a state is reached, its items are those that are valid after the symbols of the way, and there is a way
along every string after which some item is valid. -/

namespace ShiftReduce

variable {g : Grammar} {u : Symbol} {t : ParseTable} {a : Automaton}

namespace Grammar

/-- The rule of an item has been entered in `γ`, and the symbols before the dot are the last ones of `γ`. -/
def ValidItem (g : Grammar) (γ : List Symbol) (i : Item) : Prop :=
  ∃ δ rule, g.Entered δ i.rule ∧ g.rule? i.rule = some rule ∧ i.dot ≤ rule.rhs.length ∧
    γ = δ ++ rule.rhs.take i.dot

variable {γ : List Symbol} {i j : Item}

theorem ValidItem.of_entered {r : RuleId} {rule : Rule} (h : g.Entered γ r) (hrule : g.rule? r = some rule) :
    g.ValidItem γ ⟨r, 0⟩ :=
  ⟨γ, rule, h, hrule, Nat.zero_le _, by rw [List.take_zero, List.append_nil]⟩

theorem ValidItem.expected (h : g.ValidItem γ i) {s : Symbol} (hnext : i.next? g = some s) : g.Expected γ s := by
  obtain ⟨δ, rule, hentered, hrule, _, rfl⟩ := h
  obtain ⟨rule', hrule', hs⟩ := Item.next?_eq_some_iff.mp hnext
  obtain rfl := Option.some.inj (hrule.symm.trans hrule')
  obtain ⟨hlt, hget⟩ := List.getElem?_eq_some_iff.mp hs
  refine hentered.expected hrule (β := rule.rhs.drop (i.dot + 1)) ?_
  rw [← hget, ← List.drop_eq_getElem_cons hlt, List.take_append_drop]

/-- Going on over the symbol that is expected leaves an item valid. -/
theorem ValidItem.advance (h : g.ValidItem γ i) {s : Symbol} (hnext : i.next? g = some s) :
    g.ValidItem (γ ++ [s]) i.advance := by
  obtain ⟨δ, rule, hentered, hrule, _, rfl⟩ := h
  obtain ⟨rule', hrule', hs⟩ := Item.next?_eq_some_iff.mp hnext
  obtain rfl := Option.some.inj (hrule.symm.trans hrule')
  have hlt : i.dot < rule.rhs.length := (List.getElem?_eq_some_iff.mp hs).1
  refine ⟨δ, rule, hentered, hrule, hlt, ?_⟩
  calc δ ++ rule.rhs.take i.dot ++ [s]
      _ = δ ++ (rule.rhs.take i.dot ++ rule.rhs[i.dot]?.toList) := by
        rw [hs, Option.toList_some, List.append_assoc]
      _ = δ ++ rule.rhs.take (i.dot + 1) := by rw [List.take_add_one]

/-- What a valid item brings into a closed set is valid as well. -/
theorem ValidItem.brings (hg : g.Proper u) (h : g.ValidItem γ i) (hbrings : i.Brings g j) : g.ValidItem γ j := by
  obtain ⟨s, hnext, _, hmem, hdot⟩ := hbrings
  obtain ⟨rule, hrule, rfl⟩ := hg.mem_rulesWithLhs.mp hmem
  have hvalid := ValidItem.of_entered ((h.expected hnext).entered hrule) hrule
  rwa [← hdot] at hvalid

/-- A closed set is valid as soon as its seeds are. -/
theorem ValidItem.of_mem_closure (hg : g.Proper u) {seeds : List Item} {items : ItemSet}
    (hclosure : closure g seeds = .ok items) (hseeds : ∀ i ∈ seeds, g.ValidItem γ i) (hi : i ∈ items) :
    g.ValidItem γ i := by
  obtain ⟨seed, hseed, hreach⟩ := (mem_closure_iff hclosure).mp hi
  clear hi
  induction hreach with
  | refl => exact hseeds seed hseed
  | tail _ hbrings ih => exact ih.brings hg hbrings

/-- Where a rule has been entered, each symbol before it and each symbol of its right-hand side was
expected when it came. -/
theorem Entered.expected_of_split {δ : List Symbol} {r : RuleId} (h : g.Entered δ r) {rule : Rule}
    (hrule : g.rule? r = some rule) {α β δ' ρ : List Symbol} {s : Symbol} (hrhs : rule.rhs = α ++ β)
    (hsplit : δ ++ α = δ' ++ s :: ρ) : g.Expected δ' s := by
  induction h generalizing rule α β δ' ρ s with
  | start =>
      rw [List.nil_append] at hsplit
      rw [hsplit, List.append_assoc, List.cons_append] at hrhs
      exact Entered.start.expected hrule hrhs
  | @step δ r rule₁ α₁ β₁ r' rule₁' hentered hrule₁ hrhs₁ hrule₁' ih =>
      obtain rfl := Option.some.inj (hrule₁'.symm.trans hrule)
      rcases append_eq_append_cons_iff.mp hsplit with ⟨ρ', hleft, _⟩ | ⟨δ'', rfl, rfl⟩
      · exact ih hrule₁ hrhs₁ hleft
      · rw [List.append_assoc, List.cons_append] at hrhs
        exact (hentered.step hrule₁ hrhs₁ hrule₁').expected hrule₁' hrhs

theorem Entered.expected_lhs {δ : List Symbol} {r : RuleId} (h : g.Entered δ r) {rule : Rule}
    (hrule : g.rule? r = some rule) (hne : r ≠ g.startRule) : g.Expected δ rule.lhs := by
  cases h with
  | start => exact absurd rfl hne
  | step hentered hrule₁ hrhs hrule' =>
      obtain rfl := Option.some.inj (hrule'.symm.trans hrule)
      exact hentered.expected hrule₁ hrhs

/-! ### Completing a string -/

/-- A string in which a rule has been entered can be completed to a form of a derivation. -/
theorem Entered.exists_derives (hg : g.Proper u) {δ : List Symbol} {r : RuleId} (h : g.Entered δ r) {rule : Rule}
    (hrule : g.rule? r = some rule) : ∃ η, g.Derives [u] (δ ++ rule.rhs ++ η) := by
  induction h generalizing rule with
  | start =>
      obtain rfl := Option.some.inj (hg.startRule.symm.trans hrule)
      exact ⟨[], .refl⟩
  | @step δ r rule₁ α β r' rule' _ hrule₁ hrhs hrule' ih =>
      obtain rfl := Option.some.inj (hrule'.symm.trans hrule)
      obtain ⟨η, hη⟩ := ih hrule₁
      refine ⟨β ++ η, hη.tail ⟨r', rule', δ ++ α, β ++ η, hrule', ?_, ?_⟩⟩
      · rw [hrhs]
        simp
      · rw [List.append_assoc]

theorem ValidItem.exists_derives (hg : g.Proper u) (h : g.ValidItem γ i) : ∃ η, g.Derives [u] (γ ++ η) := by
  obtain ⟨δ, rule, hentered, hrule, _, rfl⟩ := h
  obtain ⟨η, hη⟩ := hentered.exists_derives hg hrule
  refine ⟨rule.rhs.drop i.dot ++ η, ?_⟩
  rwa [← List.append_assoc, List.append_assoc δ, List.take_append_drop]

end Grammar

/-! ### The items of a state -/

namespace Automaton

variable {γ : List Symbol} {q : StateId} {st : List StateId} {items : ItemSet}

/-- The items of a state are valid after the symbols over which it was reached. -/
theorem Spells.valid (hg : g.Proper u) (h : ofGrammar g = .ok a) (hs : Spells g a (q :: st) γ)
    (hq : a.states[q]? = some items) {i : Item} (hi : i ∈ items) : g.ValidItem γ i := by
  induction γ using List.reverseRecOn generalizing q st items i with
  | nil =>
      obtain ⟨rfl, _⟩ := List.cons_eq_cons.mp hs.of_nil
      obtain ⟨k, hk, hclosure⟩ := kernel_of_state h hq
      obtain rfl := Option.some.inj ((kernel_zero h).symm.trans hk)
      apply Grammar.ValidItem.of_mem_closure hg hclosure _ hi
      intro seed hseed
      rw [mem_startKernel.mp hseed]
      exact .of_entered .start hg.startRule
  | append_singleton γ s ih =>
      obtain ⟨p, q', st', hst, hs', hlead⟩ := hs.of_concat
      obtain ⟨rfl, rfl⟩ := List.cons_eq_cons.mp hst
      obtain ⟨k, hk, hclosure⟩ := kernel_of_state h hq
      obtain ⟨items', k', hp, hkernel, hk'⟩ := hlead
      obtain rfl := Option.some.inj (hk.symm.trans hk')
      apply Grammar.ValidItem.of_mem_closure hg hclosure _ hi
      intro seed hseed
      obtain ⟨j, hj, hnext, rfl⟩ := (mem_of_kernel?_eq_some hkernel).mp hseed
      exact (ih hs' hp hj).advance hnext

theorem Spells.mem_of_valid (hg : g.Proper u) (h : ofGrammar g = .ok a) (hs : Spells g a (q :: st) γ)
    (hq : a.states[q]? = some items) {i : Item} (hi : g.ValidItem γ i) : i ∈ items := by
  obtain ⟨δ, rule, hentered, hrule, hdot, rfl⟩ := hi
  have hmem := Spells.mem_of_begun h hrule (fun _ _ _ hs hq => hs.mem_of_entered hg h hentered hq)
    (List.take_append_drop i.dot rule.rhs).symm hs hq
  rwa [List.length_take_of_le hdot] at hmem

/-- Where a state demands a reduction, the stack spells the right-hand side of the rule after something, and
in the state that comes to light the left-hand side is expected. -/
theorem Spells.handle (hg : g.Proper u) (h : ofGrammar g = .ok a) (hs : Spells g a (q :: st) γ) {s : Symbol}
    {r : RuleId} (hdemands : a.Demands g q s (.reduce r)) :
    ∃ rule α p st', g.rule? r = some rule ∧ γ = α ++ rule.rhs ∧ (q :: st).drop rule.rhs.length = p :: st' ∧
      Spells g a (p :: st') α ∧ g.Expected α rule.lhs := by
  obtain ⟨items, rule, _, hq, hrule, hi, hlhs, _⟩ := hdemands.of_reduce
  obtain ⟨α, p, st', items', hγ, hdrop, hs', hp, hbegun⟩ := hs.pop h hrule hq hi
  rw [List.take_length] at hγ
  refine ⟨rule, α, p, st', hrule, hγ, hdrop, hs', ?_⟩
  obtain ⟨δ, rule', hentered, hrule', _, hα⟩ := hs'.valid hg h hp hbegun
  rw [List.take_zero, List.append_nil] at hα
  subst hα
  apply hentered.expected_lhs hrule
  rintro rfl
  obtain rfl := Option.some.inj (hg.startRule.symm.trans hrule)
  exact hlhs rfl

theorem Spells.exists_item (h : ofGrammar g = .ok a) (hs : Spells g a (q :: st) γ) :
    ∃ items i, a.states[q]? = some items ∧ i ∈ items := by
  cases hs with
  | start =>
      obtain ⟨items, hitems, hmem, _⟩ := mem_state_zero h
      exact ⟨items, _, hitems, hmem⟩
  | push _ hlead =>
      obtain ⟨_, k, _, hkernel, hk⟩ := hlead
      obtain ⟨i, hi⟩ := exists_mem_of_kernel? hkernel
      obtain ⟨items, hclosure, hitems, _⟩ := state_of_kernel h hk
      exact ⟨items, i, hitems, mem_closure_of_mem hclosure hi⟩

/-- There is a way along a string each of whose symbols is expected after those before it. -/
theorem exists_spells (hg : g.Proper u) (h : ofGrammar g = .ok a)
    (hexpected : ∀ δ s ρ, γ = δ ++ s :: ρ → g.Expected δ s) : ∃ q st, Spells g a (q :: st) γ := by
  induction γ using List.reverseRecOn with
  | nil => exact ⟨0, [], .start⟩
  | append_singleton γ s ih =>
      obtain ⟨p, st, hs⟩ := ih fun δ s' ρ hγ => hexpected δ s' (ρ ++ [s]) (by rw [hγ, List.append_assoc]; rfl)
      obtain ⟨q, hlead⟩ := hs.exists_leads_of_expected hg h (hexpected γ s [] rfl)
      exact ⟨q, p :: st, hs.push hlead⟩

theorem exists_spells_of_valid (hg : g.Proper u) (h : ofGrammar g = .ok a) {i : Item} (hi : g.ValidItem γ i) :
    ∃ q st, Spells g a (q :: st) γ := by
  obtain ⟨δ, rule, hentered, hrule, _, rfl⟩ := hi
  apply exists_spells hg h
  intro δ' s ρ hsplit
  exact hentered.expected_of_split hrule (List.take_append_drop i.dot rule.rhs).symm hsplit

end Automaton

/-! ### Walks through the table -/

namespace ParseTable

/-- The state to which the entries of the table lead along a string, from state `0` on. -/
def walk? (g : Grammar) (t : ParseTable) (γ : List Symbol) : Option StateId :=
  γ.foldlM (t.target? g) startState

theorem walk?_concat (γ : List Symbol) (s : Symbol) :
    t.walk? g (γ ++ [s]) = (t.walk? g γ).bind fun p => t.target? g p s := by
  rw [walk?, List.foldlM_append]
  refine congrArg _ (funext fun p => ?_)
  exact bind_pure _

theorem walk?_eq_some_iff (hg : g.Proper u) (h : ofGrammar g = .ok t) {γ : List Symbol} {q : StateId} :
    t.walk? g γ = some q ↔ ∃ st, t.automaton.Spells g (q :: st) γ := by
  induction γ using List.reverseRecOn generalizing q with
  | nil =>
      constructor
      · intro hwalk
        obtain rfl := Option.some.inj hwalk
        exact ⟨[], .start⟩
      · intro ⟨st, hs⟩
        rw [(List.cons_eq_cons.mp hs.of_nil).1]
        rfl
  | append_singleton γ s ih =>
      rw [walk?_concat, Option.bind_eq_some_iff]
      constructor
      · intro ⟨p, hwalk, htarget⟩
        obtain ⟨st, hs⟩ := ih.mp hwalk
        exact ⟨p :: st, hs.push ((target?_eq_some_iff hg h).mp htarget)⟩
      · intro ⟨st, hs⟩
        obtain ⟨p, q', st', hst, hs', hlead⟩ := hs.of_concat
        obtain ⟨rfl, rfl⟩ := List.cons_eq_cons.mp hst
        exact ⟨p, ih.mpr ⟨st', hs'⟩, (target?_eq_some_iff hg h).mpr hlead⟩

end ParseTable

/-- The table leads along a string, by shifts over terminals and by gotos over other symbols, if and only if
some item is valid after it, and the state that is reached consists of all the items that are. The table may
have conflicts. -/
theorem walk?_viable_prefixes {calls : List Builder.Call} {g : AugmentedGrammar}
    (hbuild : (Builder.ofCalls calls).build = .ok g) :
    ∃ t, ParseTable.ofGrammar g.toGrammar = .ok t ∧ ∀ γ,
      ((∃ q, t.walk? g.toGrammar γ = some q) ↔ ∃ i, g.ValidItem γ i) ∧
      ∀ q, t.walk? g.toGrammar γ = some q →
        ∃ items, t.automaton.state? q = some items ∧ ∀ i, i ∈ items ↔ g.ValidItem γ i := by
  have hg := Builder.proper_of_build hbuild
  obtain ⟨t, htable, ht, _⟩ := ParseTable.exists_table hg
  refine ⟨t, htable, ?_⟩
  intro γ
  refine ⟨⟨?_, ?_⟩, ?_⟩
  · intro ⟨q, hwalk⟩
    obtain ⟨st, hs⟩ := (ParseTable.walk?_eq_some_iff hg htable).mp hwalk
    obtain ⟨items, i, hq, hi⟩ := hs.exists_item ht.automaton
    exact ⟨i, hs.valid hg ht.automaton hq hi⟩
  · intro ⟨i, hi⟩
    obtain ⟨q, st, hs⟩ := Automaton.exists_spells_of_valid hg ht.automaton hi
    exact ⟨q, (ParseTable.walk?_eq_some_iff hg htable).mpr ⟨st, hs⟩⟩
  · intro q hwalk
    obtain ⟨st, hs⟩ := (ParseTable.walk?_eq_some_iff hg htable).mp hwalk
    obtain ⟨items, hq⟩ := hs.state ht.automaton
    exact ⟨items, hq, fun i => ⟨hs.valid hg ht.automaton hq, hs.mem_of_valid hg ht.automaton hq⟩⟩

/-- Sums in which it is left open what is added first. -/
def sumCalls : List Builder.Call :=
  [.addToken "sum", .addToken "+", .addToken "n", .addRule 1 [1, 2, 1], .addRule 1 [3], .setStart 1]

def sums : AugmentedGrammar := .ofRules #["$end", "sum", "+", "n"] #[⟨1, [1, 2, 1]⟩, ⟨1, [3]⟩] 1

/-- In the table for sums, which has conflicts, there is a way along a sum of two sums, and none over `+`
at the beginning. -/
theorem walk?_viable_prefixes_sums : (Builder.ofCalls sumCalls).build = .ok sums ∧
    ∃ t, ParseTable.ofGrammar sums.toGrammar = .ok t ∧ t.isConflictFree = false ∧
      (∃ q items, t.walk? sums.toGrammar [1, 2, 1] = some q ∧ t.automaton.state? q = some items ∧
        ∀ i, i ∈ items ↔ sums.ValidItem [1, 2, 1] i) ∧
      ¬ ∃ i, sums.ValidItem [2] i := by
  have hbuild : (Builder.ofCalls sumCalls).build = .ok sums := Builder.build_eq_ok (by cbv) (by cbv)
  have hrun : (ParseTable.ofGrammar sums.toGrammar).toOption.map (fun t =>
      (t.isConflictFree, t.walk? sums.toGrammar [1, 2, 1], t.walk? sums.toGrammar [2])) =
      some (false, some 4, none) := by
    simp only [sums, AugmentedGrammar.ofRules, ← Bool.cond_eq_ite]
    cbv
  obtain ⟨t, ht, hwalks⟩ := walk?_viable_prefixes hbuild
  rw [ht] at hrun
  obtain ⟨hfree, hruns⟩ := Prod.mk.inj (Option.some.inj hrun)
  obtain ⟨hsums, hplus⟩ := Prod.mk.inj hruns
  obtain ⟨items, hitems, hvalid⟩ := (hwalks [1, 2, 1]).2 4 hsums
  refine ⟨hbuild, t, ht, hfree, ⟨4, items, hsums, hitems, hvalid⟩, ?_⟩
  intro hi
  obtain ⟨q, hq⟩ := (hwalks [2]).1.mpr hi
  rw [hplus] at hq
  cases hq

end ShiftReduce
