import ShiftReduce.Proofs.Soundness

/-! A grammar's own table never breaks the machine. The stack always leads along the automaton. Where the
table says to reduce, the stack spells the right-hand side of the rule after something, and in the state
that comes to light the left-hand side is expected, so there is a transition over it. Transitions stand in
the table whatever competes with them. So the only run that ends with a malformed table is one that the
guard breaks off. -/

namespace ShiftReduce

variable {g : Grammar} {u : Symbol} {t : ParseTable}

namespace Configuration

variable {c : Configuration} {γ : List Symbol}

/-- A reduction that the table demands of a stack along the automaton can be carried out. -/
theorem exists_reduction (hg : g.Proper u) (htable : ParseTable.ofGrammar g = .ok t)
    (hspells : t.automaton.Spells g c.stack γ) {n : RuleId} (haction : t.action? c.top c.symbol = some (.reduce n)) :
    ∃ rule exposed below target, g.rule? n = some rule ∧ rule.rhs.length < c.stack.length ∧
      c.stack.drop rule.rhs.length = exposed :: below ∧ t.action? exposed rule.lhs = some (.goto target) := by
  obtain ⟨stack, input, reductions⟩ := c
  obtain ⟨p, st, rfl⟩ := hspells.exists_cons
  have ht := ParseTable.fits_of_ofGrammar hg htable
  obtain ⟨rule, α, exposed, below, hrule, rfl, hdrop, hspells', hexpected⟩ :=
    hspells.handle hg ht.automaton (ht.demands haction)
  obtain ⟨target, hlead⟩ := hspells'.exists_leads_of_expected hg ht.automaton hexpected
  have hgoto := ParseTable.action?_of_leads hg htable hlead
  rw [if_neg (hg.not_isTerminal_lhs hrule)] at hgoto
  have hlt : rule.rhs.length < (p :: st).length := by
    by_contra hle
    rw [List.drop_eq_nil_of_le (Nat.not_lt.mp hle)] at hdrop
    cases hdrop
  exact ⟨rule, exposed, below, target, hrule, hlt, hdrop, hgoto⟩

/-- No turn of a machine whose stack leads along the automaton finds the table malformed. -/
theorem turn_ne_malformedTable (hg : g.Proper u) (htable : ParseTable.ofGrammar g = .ok t)
    (hspells : t.automaton.Spells g c.stack γ) (s : StateId) (x : Symbol) :
    c.turn g t ≠ .halt (.error (.malformedTable s x)) := by
  intro h
  rcases turn_cases g t c with ⟨q, _, hturn⟩ | ⟨n, rule, exposed, q, _, _, _, _, hturn⟩ | ⟨_, hturn⟩ |
    ⟨n, s', x', haction, hturn⟩ | hturn
  · rw [hturn] at h
    cases h
  · rw [hturn] at h
    cases h
  · rw [hturn] at h
    cases h
  · obtain ⟨rule, exposed, below, target, hrule, _, hdrop, hgoto⟩ := exists_reduction hg htable hspells haction
    have hmove : c.turn g t = .move (.reduce n rule.rhs.length target) := by
      apply turn_eq_reduce_iff.mpr
      exact ⟨haction, rule, exposed, hrule, rfl, by rw [hdrop, List.head?_cons], hgoto⟩
    rw [hmove] at hturn
    cases hturn
  · rw [hturn] at h
    cases h

end Configuration

theorem Round.Reaches.spells (hg : g.Proper u) (ht : t.Fits g) {w : List Symbol} {r : Round}
    (hreach : (Round.ofInput (.ofSymbols w g.endSymbol)).Reaches g t r) :
    ∃ γ, t.automaton.Spells g r.config.stack γ := by
  obtain ⟨x, γ, hreduced, _⟩ := hreach.reduced hg ht (Configuration.reduced_ofInput t.automaton _ rfl)
  exact ⟨γ, hreduced.spells⟩

/-- A run on the grammar's own table that ends with a malformed table has been broken off by the guard. -/
theorem exists_stuck_of_malformedTable (hg : g.Proper u) (htable : ParseTable.ofGrammar g = .ok t)
    {w : List Symbol} {s : StateId} {x : Symbol}
    (h : recognize g t (.ofSymbols w g.endSymbol) = .error (.malformedTable s x)) :
    ∃ r m, (Round.ofInput (.ofSymbols w g.endSymbol)).Reaches g t r ∧ r.Stuck g t m := by
  obtain ⟨last, hreach, hlast⟩ := halts_of_recognize h (by simp)
  obtain ⟨γ, hspells⟩ := hreach.spells hg (ParseTable.fits_of_ofGrammar hg htable)
  rcases Round.step_eq_inr_iff.mp hlast with hturn | ⟨m, hstuck, _⟩
  · exact absurd hturn (Configuration.turn_ne_malformedTable hg htable hspells s x)
  · exact ⟨last, m, hreach, hstuck⟩

/-- In every run on a grammar's own table, each reduction that the table says to make has a rule, leaves a
state on the stack, and finds a goto in that state. So no turn finds the table malformed, and a run that ends
so has been broken off by the guard. The table may have conflicts. -/
theorem reductions_never_break {calls : List Builder.Call} {g : AugmentedGrammar}
    (hbuild : (Builder.ofCalls calls).build = .ok g) :
    ∃ t, ParseTable.ofGrammar g.toGrammar = .ok t ∧ ∀ w,
      (∀ r, (Round.ofInput (.ofSymbols w g.endSymbol)).Reaches g.toGrammar t r →
        (∀ n, t.action? r.config.top r.config.symbol = some (.reduce n) →
          ∃ rule exposed below target, g.rule? n = some rule ∧ rule.rhs.length < r.config.stack.length ∧
            r.config.stack.drop rule.rhs.length = exposed :: below ∧
            t.action? exposed rule.lhs = some (.goto target)) ∧
        ∀ s x, r.config.turn g.toGrammar t ≠ .halt (.error (.malformedTable s x))) ∧
      ∀ s x, recognize g.toGrammar t (.ofSymbols w g.endSymbol) = .error (.malformedTable s x) →
        ∃ r m, (Round.ofInput (.ofSymbols w g.endSymbol)).Reaches g.toGrammar t r ∧ r.Stuck g.toGrammar t m := by
  have hg := Builder.proper_of_build hbuild
  obtain ⟨t, htable, ht, _⟩ := ParseTable.exists_table hg
  refine ⟨t, htable, ?_⟩
  intro w
  constructor
  · intro r hreach
    obtain ⟨γ, hspells⟩ := hreach.spells hg ht
    exact ⟨fun n => Configuration.exists_reduction hg htable hspells,
      Configuration.turn_ne_malformedTable hg htable hspells⟩
  · intro s x h
    exact exists_stuck_of_malformedTable hg htable h

/-- A rule from a symbol to itself, before the rules that make something of it. -/
def unitRuleCalls : List Builder.Call :=
  [.addToken "a", .addToken "x", .addToken "s", .addRule 1 [1], .addRule 1 [2], .addRule 3 [1], .setStart 3]

def unitRules : AugmentedGrammar := .ofRules #["$end", "a", "x", "s"] #[⟨1, [1]⟩, ⟨1, [2]⟩, ⟨3, [1]⟩] 3

/-- The guard breaks off the run on `x`, in the middle of a reduction that can be made. -/
theorem reductions_never_break_unitRules : (Builder.ofCalls unitRuleCalls).build = .ok unitRules ∧
    ∃ t, ParseTable.ofGrammar unitRules.toGrammar = .ok t ∧
      recognize unitRules.toGrammar t (.ofSymbols [2] 0) = .error (.malformedTable 1 0) ∧
      ∃ r m, (Round.ofInput (.ofSymbols [2] 0)).Reaches unitRules.toGrammar t r ∧ r.Stuck unitRules.toGrammar t m ∧
        ∃ n rule exposed below target, t.action? r.config.top r.config.symbol = some (.reduce n) ∧
          unitRules.rule? n = some rule ∧ rule.rhs.length < r.config.stack.length ∧
          r.config.stack.drop rule.rhs.length = exposed :: below ∧
          t.action? exposed rule.lhs = some (.goto target) := by
  have hbuild : (Builder.ofCalls unitRuleCalls).build = .ok unitRules := Builder.build_eq_ok (by cbv) (by cbv)
  have hrun : (ParseTable.ofGrammar unitRules.toGrammar).toOption.map
      (fun t => recognize unitRules.toGrammar t (.ofSymbols [2] 0)) = some (.error (.malformedTable 1 0)) := by
    simp only [unitRules, AugmentedGrammar.ofRules, ← Bool.cond_eq_ite]
    cbv
  obtain ⟨t, ht, hsafe⟩ := reductions_never_break hbuild
  rw [ht] at hrun
  have hmalformed := Option.some.inj hrun
  obtain ⟨hreachable, hguard⟩ := hsafe [2]
  obtain ⟨r, m, hreach, hstuck⟩ := hguard 1 0 hmalformed
  refine ⟨hbuild, t, ht, hmalformed, r, m, hreach, hstuck, ?_⟩
  cases m with
  | shift target => cases hstuck.2
  | reduce n popped target =>
      have haction := (Configuration.turn_eq_reduce_iff.mp hstuck.1).1
      obtain ⟨rule, exposed, below, target', hfits⟩ := (hreachable r hreach).1 n haction
      exact ⟨n, rule, exposed, below, target', haction, hfits⟩

end ShiftReduce
