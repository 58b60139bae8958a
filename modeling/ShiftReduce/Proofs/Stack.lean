import ShiftReduce.Proofs.Automaton
import ShiftReduce.Proofs.Derivation

/-! Stacks whose states lead from one to the next. Such a stack spells the symbols that lead along it.
An item in the state on top has seen the last of these symbols, and the state from which it came holds
the item that begins its rule. The other way round, a rule that may be applied after the symbols of a
stack is begun in the state on top. -/

namespace ShiftReduce

namespace Automaton

variable {g : Grammar} {u : Symbol} {a : Automaton}

/-- The states of a stack, the top one first, lead from one to the next over some symbols. -/
inductive Spells (g : Grammar) (a : Automaton) : List StateId → List Symbol → Prop
  | start : Spells g a [0] []
  | push {p q st γ s} : Spells g a (p :: st) γ → a.Leads g p s q → Spells g a (q :: p :: st) (γ ++ [s])

theorem Spells.exists_cons {st : List StateId} {γ : List Symbol} (h : Spells g a st γ) : ∃ q st', st = q :: st' := by
  cases h with
  | start => exact ⟨_, _, rfl⟩
  | push => exact ⟨_, _, rfl⟩

theorem Spells.of_nil {st : List StateId} (h : Spells g a st []) : st = [0] := by
  generalize hγ : ([] : List Symbol) = γ at h
  cases h with
  | start => rfl
  | push => simp at hγ

theorem Spells.of_concat {st : List StateId} {γ : List Symbol} {s : Symbol} (h : Spells g a st (γ ++ [s])) :
    ∃ p q st', st = q :: p :: st' ∧ Spells g a (p :: st') γ ∧ a.Leads g p s q := by
  generalize hγ : γ ++ [s] = γ' at h
  cases h with
  | start => simp at hγ
  | push hs hlead =>
      obtain ⟨rfl, heq⟩ := List.append_inj' hγ rfl
      obtain rfl := List.singleton_inj.mp heq
      exact ⟨_, _, _, rfl, hs, hlead⟩

theorem Spells.state (h : ofGrammar g = .ok a) {q : StateId} {st : List StateId} {γ : List Symbol}
    (hs : Spells g a (q :: st) γ) : ∃ items, a.states[q]? = some items := by
  cases hs with
  | start =>
      obtain ⟨items, hitems, _⟩ := mem_state_zero h
      exact ⟨items, hitems⟩
  | push _ hlead => exact hlead.state h

theorem Spells.eq_nil_of_zero (h : ofGrammar g = .ok a) {st : List StateId} {γ : List Symbol}
    (hs : Spells g a (0 :: st) γ) : γ = [] := by
  cases hs with
  | start => rfl
  | push _ hlead => exact absurd rfl (hlead.ne_zero h)

/-! ### Looking back from an item -/

/-- What an item on top has seen are the last symbols of the stack. Without them, the state on top
holds the item with the dot at the beginning. -/
theorem Spells.pop (h : ofGrammar g = .ok a) {r : RuleId} {rule : Rule} (hrule : g.rule? r = some rule) {k : Nat}
    {q : StateId} {st : List StateId} {γ : List Symbol} {items : ItemSet} (hs : Spells g a (q :: st) γ)
    (hq : a.states[q]? = some items) (hi : (⟨r, k⟩ : Item) ∈ items) :
    ∃ γ' p st' items', γ = γ' ++ rule.rhs.take k ∧ (q :: st).drop k = p :: st' ∧ Spells g a (p :: st') γ' ∧
      a.states[p]? = some items' ∧ (⟨r, 0⟩ : Item) ∈ items' := by
  induction k generalizing q st γ items with
  | zero => exact ⟨γ, q, st, items, by simp, rfl, hs, hq, hi⟩
  | succ k ih =>
      cases hs with
      | start =>
          obtain ⟨items', hitems', _, hdots⟩ := mem_state_zero h
          obtain rfl := Option.some.inj (hq.symm.trans hitems')
          exact absurd (hdots _ hi) (Nat.succ_ne_zero k)
      | @push p _ st γ s hs hlead =>
          obtain ⟨items', j, hp, hj, hnext, hadvance⟩ := hlead.back h hq hi (Nat.succ_pos k)
          obtain rfl : j = ⟨r, k⟩ := by
            cases j
            cases hadvance
            rfl
          obtain ⟨rule', hrule', hget⟩ := Item.next?_eq_some_iff.mp hnext
          obtain rfl := Option.some.inj (hrule.symm.trans hrule')
          obtain ⟨γ', p', st', items'', rfl, hdrop, hs', hp', hi'⟩ := ih hs hp hj
          refine ⟨γ', p', st', items'', ?_, hdrop, hs', hp', hi'⟩
          have htake : rule.rhs.take (k + 1) = rule.rhs.take k ++ [s] := by
            rw [List.take_add_one, show rule.rhs[k]? = some s from hget, Option.toList_some]
          rw [htake, List.append_assoc]

/-! ### Looking ahead in a rule -/

theorem Leads.advance_mem (h : ofGrammar g = .ok a) {p q : StateId} {s : Symbol} (hlead : a.Leads g p s q)
    {items items' : ItemSet} (hp : a.states[p]? = some items) (hq : a.states[q]? = some items') {i : Item}
    (hi : i ∈ items) (hnext : i.next? g = some s) : i.advance ∈ items' := by
  obtain ⟨items₀, k, hitems₀, hkernel, hk⟩ := hlead
  obtain rfl := Option.some.inj (hp.symm.trans hitems₀)
  obtain ⟨k', hk', hclosure⟩ := kernel_of_state h hq
  obtain rfl := Option.some.inj (hk.symm.trans hk')
  exact mem_closure_of_mem hclosure ((mem_of_kernel?_eq_some hkernel).mpr ⟨i, hi, hnext, rfl⟩)

theorem next?_of_rhs {r : RuleId} {rule : Rule} (hrule : g.rule? r = some rule) {α β : List Symbol} {s : Symbol}
    (hrhs : rule.rhs = α ++ s :: β) : (⟨r, α.length⟩ : Item).next? g = some s := by
  refine Item.next?_eq_some_iff.mpr ⟨rule, hrule, ?_⟩
  rw [hrhs, List.getElem?_append_right (Nat.le_refl _), Nat.sub_self]
  rfl

/-- If a rule is begun wherever `δ` has been spelled, its dot is after `α` wherever `δ ++ α` has been. -/
theorem Spells.mem_of_begun (h : ofGrammar g = .ok a) {δ : List Symbol} {r : RuleId} {rule : Rule}
    (hrule : g.rule? r = some rule)
    (hbegun : ∀ q st items, Spells g a (q :: st) δ → a.states[q]? = some items → (⟨r, 0⟩ : Item) ∈ items)
    {α β : List Symbol} (hrhs : rule.rhs = α ++ β) {q : StateId} {st : List StateId} {items : ItemSet}
    (hs : Spells g a (q :: st) (δ ++ α)) (hq : a.states[q]? = some items) : (⟨r, α.length⟩ : Item) ∈ items := by
  induction α using List.reverseRecOn generalizing β q st items with
  | nil =>
      rw [List.append_nil] at hs
      exact hbegun q st items hs hq
  | append_singleton α s ih =>
      rw [← List.append_assoc] at hs
      obtain ⟨p, q', st', hst, hs', hlead⟩ := hs.of_concat
      obtain ⟨rfl, rfl⟩ := List.cons_eq_cons.mp hst
      obtain ⟨items', hp⟩ := hs'.state h
      rw [List.append_assoc, List.singleton_append] at hrhs
      have hbefore := ih hrhs hs' hp
      have hafter := hlead.advance_mem h hp hq hbefore (next?_of_rhs hrule hrhs)
      rwa [List.length_append, List.length_singleton]

/-- A rule that has been entered is begun wherever the symbols before it have been spelled. -/
theorem Spells.mem_of_entered (hg : g.Proper u) (h : ofGrammar g = .ok a) {δ : List Symbol} {r : RuleId}
    (hentered : g.Entered δ r) {q : StateId} {st : List StateId} {items : ItemSet} (hs : Spells g a (q :: st) δ)
    (hq : a.states[q]? = some items) : (⟨r, 0⟩ : Item) ∈ items := by
  induction hentered generalizing q st items with
  | start =>
      obtain ⟨items', hitems', hstart, _⟩ := mem_state_zero h
      obtain ⟨rfl, _⟩ := List.cons_eq_cons.mp hs.of_nil
      obtain rfl := Option.some.inj (hq.symm.trans hitems')
      exact hstart
  | step _ hrule hrhs hrule' ih =>
      have hexpects := Spells.mem_of_begun h hrule (fun q st items hs hq => ih hs hq) hrhs hs hq
      exact mem_state_of_brings h hq hexpects (hg.brings_of_rule (next?_of_rhs hrule hrhs) hrule')

theorem Spells.exists_leads_of_expected (hg : g.Proper u) (h : ofGrammar g = .ok a) {δ : List Symbol} {s : Symbol}
    (hexpected : g.Expected δ s) {q : StateId} {st : List StateId} (hs : Spells g a (q :: st) δ) :
    ∃ q', a.Leads g q s q' := by
  obtain ⟨δ', r, rule, α, β, hentered, hrule, hrhs, rfl⟩ := hexpected
  obtain ⟨items, hq⟩ := hs.state h
  have hi := Spells.mem_of_begun h hrule (fun q st items hs hq => hs.mem_of_entered hg h hentered hq) hrhs hs hq
  have hlt := hg.rhs_lt hrule (hrhs ▸ List.mem_append_right α List.mem_cons_self)
  obtain ⟨q', _, hlead, _⟩ := exists_leads h hq hi (next?_of_rhs hrule hrhs) (hg.mem_symbols.mpr hlt)
  exact ⟨q', hlead⟩

end Automaton

end ShiftReduce
