import Mathlib.Data.Fintype.Pigeonhole
import Mathlib.Order.Interval.Finset.Nat
import ShiftReduce.Proofs.Completeness
import ShiftReduce.Proofs.Safety
import ShiftReduce.Proofs.Termination

/-! Runs without conflicts that the guard breaks off. A rule is reduced by in front of whatever may follow its
left-hand side somewhere, so the machine may reduce in front of a token that cannot come there. If some symbol
derives no terminals it may go on like this for ever. If every symbol that occurs in a derivation derives
terminals, then however often the machine has reduced, what its stack spells can be completed to a sentence,
and in front of what completes it the machine would have made the same reductions. The table has finitely many
symbols in it, so a machine that reduced without end would do so in front of one of these completions as well,
although a sentence is accepted. -/

namespace ShiftReduce

variable {g : Grammar} {u : Symbol} {t : ParseTable} {nullable : Symbol → Bool} {first : Symbol → SymbolSet}

/-! ### Completing a string by terminals -/

namespace Grammar

/-- A symbol occurs in a form of a derivation from `u`. -/
def Reachable (g : Grammar) (u s : Symbol) : Prop := ∃ α β, g.Derives [u] (α ++ s :: β)

def Productive (g : Grammar) (s : Symbol) : Prop := ∃ w, g.IsSentence s w

theorem Proper.lt_of_reachable (hg : g.Proper u) {s : Symbol} (h : g.Reachable u s) : s < g.symbolCount := by
  have hforms : ∀ form, g.Derives [u] form → ∀ x ∈ form, x < g.symbolCount := by
    intro form hderives
    induction hderives with
    | refl =>
        obtain ⟨r, rule, hrule, rfl⟩ := hg.exists_rule
        exact List.forall_mem_singleton.mpr (hg.symbols_lt hrule rule.lhs List.mem_cons_self)
    | tail _ hstep ih =>
        obtain ⟨r, rule, α, β, hrule, rfl, rfl⟩ := hstep
        simp only [List.forall_mem_append, List.forall_mem_cons] at ih ⊢
        exact ⟨⟨ih.1, fun x hx => hg.rhs_lt hrule hx⟩, ih.2.2⟩
  obtain ⟨α, β, hderives⟩ := h
  exact hforms _ hderives s (List.mem_append_right α List.mem_cons_self)

theorem exists_yields {l : List Symbol} (h : ∀ s ∈ l, g.Productive s) : ∃ w, g.Yields l w := by
  induction l with
  | nil => exact ⟨[], .nil⟩
  | cons s l ih =>
      obtain ⟨v, hv⟩ := h s List.mem_cons_self
      obtain ⟨w, hw⟩ := ih fun s' hs' => h s' (List.mem_cons_of_mem s hs')
      exact ⟨v ++ w, (yields_of_derives hv.2 hv.1).append hw⟩

variable {γ : List Symbol}

/-- A part of a form that stands before terminals can be turned into terminals. -/
theorem exists_deriveRightmost_of_productive (hg : g.Proper u) (hproductive : ∀ s, g.Reachable u s → g.Productive s)
    {d : List RuleId} {β z : List Symbol} (hd : g.deriveRightmost d [u] = some (γ ++ β ++ z))
    (hz : ∀ s ∈ z, g.isTerminal s) :
    ∃ d' z', (∀ s ∈ z', g.isTerminal s) ∧ g.deriveRightmost d' [u] = some (γ ++ z') := by
  have hβ : ∀ s ∈ β, g.Productive s := by
    intro s hs
    obtain ⟨β₁, β₂, rfl⟩ := List.append_of_mem hs
    have hderives := derives_of_deriveRightmost hd
    rw [← List.append_assoc, List.append_assoc, List.cons_append] at hderives
    exact hproductive s ⟨γ ++ β₁, β₂ ++ z, hderives⟩
  obtain ⟨v, hv⟩ := exists_yields hβ
  obtain ⟨d', hd'⟩ := hv.exists_deriveRightmost hg
  refine ⟨d ++ d', v ++ z, List.forall_mem_append.mpr ⟨hv.terminals, hz⟩, ?_⟩
  rw [deriveRightmost_append, hd, Option.bind_some, hd' γ z hz, List.append_assoc]

theorem Entered.exists_deriveRightmost (hg : g.Proper u) (hproductive : ∀ s, g.Reachable u s → g.Productive s)
    {δ : List Symbol} {r : RuleId} (h : g.Entered δ r) {rule : Rule} (hrule : g.rule? r = some rule) :
    ∃ d z, (∀ s ∈ z, g.isTerminal s) ∧ g.deriveRightmost d [u] = some (δ ++ rule.rhs ++ z) := by
  induction h generalizing rule with
  | start =>
      obtain rfl := Option.some.inj (hg.startRule.symm.trans hrule)
      exact ⟨[], [], fun _ hs => absurd hs List.not_mem_nil, rfl⟩
  | @step δ r rule₁ α β r' rule' _ hrule₁ hrhs hrule' ih =>
      obtain rfl := Option.some.inj (hrule'.symm.trans hrule)
      obtain ⟨d, z, hz, hd⟩ := ih hrule₁
      have hform : δ ++ rule₁.rhs ++ z = (δ ++ α ++ [rule'.lhs]) ++ β ++ z := by
        rw [hrhs]
        simp
      rw [hform] at hd
      -- What comes after the left-hand side in the rule that has been entered before has to go first.
      obtain ⟨d', z', hz', hd'⟩ := exists_deriveRightmost_of_productive hg hproductive hd hz
      rw [List.append_assoc, List.singleton_append] at hd'
      have hrewrite := rewriteRightmost_append hrule' (hg.not_isTerminal_lhs hrule') (δ ++ α) hz'
      exact ⟨d' ++ [r'], z', hz', deriveRightmost_concat_eq_some_iff.mpr ⟨_, hd', hrewrite⟩⟩

/-- A string after which an item is valid can be completed by terminals to a form of a rightmost derivation. -/
theorem ValidItem.exists_deriveRightmost (hg : g.Proper u) (hproductive : ∀ s, g.Reachable u s → g.Productive s)
    {i : Item} (h : g.ValidItem γ i) :
    ∃ d z, (∀ s ∈ z, g.isTerminal s) ∧ g.deriveRightmost d [u] = some (γ ++ z) := by
  obtain ⟨δ, rule, hentered, hrule, _, rfl⟩ := h
  obtain ⟨d, z, hz, hd⟩ := hentered.exists_deriveRightmost hg hproductive hrule
  rw [← List.take_append_drop i.dot rule.rhs, ← List.append_assoc] at hd
  exact exists_deriveRightmost_of_productive hg hproductive hd hz

end Grammar

/-! ### The same reductions in front of other inputs -/

theorem Automaton.Demands.reduce_of_follows {a : Automaton} {p : StateId} {s : Symbol} {r : RuleId}
    (h : a.Demands g p s (.reduce r)) {rule : Rule} (hrule : g.rule? r = some rule) {x : Symbol}
    (hx : g.Follows rule.lhs x) : a.Demands g p x (.reduce r) := by
  obtain ⟨items, rule', _, hp, hrule', hi, hlhs, _, _⟩ := h.of_reduce
  obtain rfl := Option.some.inj (hrule.symm.trans hrule')
  obtain ⟨follow, hfollow, hmem⟩ := hx
  exact .reduce hp hrule hi hlhs hfollow hmem

variable {input : TokenStream} {s s' : List StateId} {γ : List Symbol}

/-- A reduction can be made in front of another input as soon as the table says so there. -/
theorem reduces_of_action {r : RuleId} {popped : Nat} {target : StateId} {l : List RuleId}
    (hturn : (Configuration.mk s input l).turn g t = .move (.reduce r popped target)) {i : TokenStream}
    (haction : t.action? (s.headD startState) i.head.symbol = some (.reduce r)) :
    Reduces g t i s (target :: s.drop popped) := by
  obtain ⟨_, hexposed⟩ := Configuration.turn_eq_reduce_iff.mp hturn
  exact ⟨r, popped, target, Configuration.turn_eq_reduce_iff.mpr ⟨haction, hexposed⟩, rfl⟩

/-- If what a stack has been reduced to is completed to a form of a rightmost derivation, then so is what it
spelled before, and the same reductions are made in front of what completes it. -/
theorem ReducesIn.exists_completion (hg : g.Proper u) (ht : t.Fits g) (hcomplete : t.Complete g)
    (hsets : g.HasSets nullable first) {n : Nat} (h : ReducesIn g t input n s s') (hs : t.automaton.Spells g s γ) :
    ∃ γ', t.automaton.Spells g s' γ' ∧
      ∀ d z, (∀ x ∈ z, g.isTerminal x) → g.deriveRightmost d [u] = some (γ' ++ z) →
        ∃ d', g.deriveRightmost d' [u] = some (γ ++ z) ∧
          ∀ i : TokenStream, g.Begins nullable first z i.head.symbol → ReducesIn g t i n s s' := by
  induction n generalizing s γ with
  | zero =>
      obtain rfl : s = s' := h
      exact ⟨γ, hs, fun d z _ hd => ⟨d, hd, fun _ _ => rfl⟩⟩
  | succ n ih =>
      obtain ⟨_, ⟨r, popped, target, hturn, rfl⟩, hrest⟩ := h
      obtain ⟨rule, α, hrule, rfl, _, hs₁⟩ := Configuration.spells_reduce hg ht hs hturn
      obtain ⟨γ', hs', hcompletes⟩ := ih hrest hs₁
      refine ⟨γ', hs', ?_⟩
      intro d z hz hd
      obtain ⟨d', hd', hreduces⟩ := hcompletes d z hz hd
      rw [List.append_assoc, List.singleton_append] at hd'
      have hlhs := hg.not_isTerminal_lhs hrule
      have hrewrite := Grammar.rewriteRightmost_append hrule hlhs α hz
      refine ⟨d' ++ [r], Grammar.deriveRightmost_concat_eq_some_iff.mpr ⟨_, hd', hrewrite⟩, ?_⟩
      intro i hi
      have hfollows := hsets.follows_of_deriveRightmost hg hd' hlhs hi
      have haction := (Configuration.turn_eq_reduce_iff.mp hturn).1
      have haction' := hcomplete ((ht.demands haction).reduce_of_follows hrule hfollows)
      exact ⟨_, reduces_of_action hturn haction', hreduces i hi⟩

/-- Of the input, reductions see the current symbol alone. -/
theorem ReducesIn.of_symbol_eq {i : TokenStream} {n : Nat} (h : ReducesIn g t input n s s')
    (hi : i.head.symbol = input.head.symbol) : ReducesIn g t i n s s' := by
  induction n generalizing s with
  | zero => exact h
  | succ n ih =>
      obtain ⟨_, ⟨r, popped, target, hturn, rfl⟩, hrest⟩ := h
      have haction : t.action? (s.headD startState) i.head.symbol = some (.reduce r) := by
        rw [hi]
        exact (Configuration.turn_eq_reduce_iff.mp hturn).1
      exact ⟨_, reduces_of_action hturn haction, ih hrest⟩

/-- The symbols for which the table says something. -/
def ParseTable.symbols (t : ParseTable) : List Symbol := t.actions.rows.toList.flatten.map (·.1)

theorem mem_symbols_of_action? {q : StateId} {x : Symbol} {a : Action} (h : t.action? q x = some a) :
    x ∈ t.symbols :=
  List.mem_map.mpr ⟨(x, a), mem_rows_of_action? h, rfl⟩

/-- If there are inputs of a kind in front of which any number of reductions can be made of a stack, there is
one input of the kind in front of which they can all be made. -/
theorem exists_endless {P : TokenStream → Prop} (h : ∀ n, ∃ i s', P i ∧ ReducesIn g t i n s s') :
    ∃ i, P i ∧ Endless g t i s := by
  choose inputs reduced hP hreduces using fun n => h (n + 1)
  have hsymbol : ∀ n, (inputs n).head.symbol ∈ t.symbols := by
    intro n
    obtain ⟨_, ⟨r, popped, target, hturn, _⟩, _⟩ := hreduces n
    exact mem_symbols_of_action? (Configuration.turn_eq_reduce_iff.mp hturn).1
  -- One of the finitely many symbols is the current one again and again.
  have : Finite {x // x ∈ t.symbols} := (List.finite_toSet t.symbols).to_subtype
  obtain ⟨x, hx⟩ := Finite.exists_infinite_fiber fun n =>
    (⟨(inputs n).head.symbol, hsymbol n⟩ : {x // x ∈ t.symbols})
  rw [Set.infinite_coe_iff] at hx
  obtain ⟨k, hk⟩ := hx.nonempty
  refine ⟨inputs k, hP k, ?_⟩
  intro n
  obtain ⟨m, hm, hlt⟩ := hx.exists_gt n
  have hsame : (inputs k).head.symbol = (inputs m).head.symbol := congrArg Subtype.val (hk.trans hm.symm)
  have hmany := hreduces m
  rw [show m + 1 = n + (m + 1 - n) by omega, reducesIn_add_iff] at hmany
  obtain ⟨s', hs', _⟩ := hmany
  exact ⟨s', hs'.of_symbol_eq hsame⟩

/-! ### Verdicts -/

/-- If all symbols that occur in derivations are productive, no stack is reduced without end, whatever comes
next in the input. -/
theorem not_endless_of_productive (hg : g.Proper u) (ht : t.Fits g) (hcomplete : t.Complete g)
    (hsets : g.HasSets nullable first) (hproductive : ∀ s, g.Reachable u s → g.Productive s)
    (hs : t.automaton.Spells g s γ) (hγ : ∀ x ∈ γ.getLast?, ¬ g.isTerminal x) : ¬ Endless g t input s := by
  intro hendless
  have hcompletions : ∀ n, ∃ i s', (∃ d z, (Configuration.mk s i []).Stands g t.automaton γ z ∧
      (∀ x ∈ z, g.isTerminal x) ∧ g.deriveRightmost d [u] = some (γ ++ z)) ∧ ReducesIn g t i n s s' := by
    intro n
    obtain ⟨s', hn⟩ := hendless n
    obtain ⟨γ', hs', hcompletes⟩ := hn.exists_completion hg ht hcomplete hsets hs
    obtain ⟨q, st, rfl⟩ := hs'.exists_cons
    obtain ⟨items, i, hq, hi⟩ := hs'.exists_item ht.automaton
    obtain ⟨d, z, hz, hd⟩ := (hs'.valid hg ht.automaton hq hi).exists_deriveRightmost hg hproductive
    obtain ⟨d', hd', hreduces⟩ := hcompletes d z hz hd
    have hstands := Configuration.stands_ofSymbols (l := []) hg hs hd'
    exact ⟨_, q :: st, ⟨d', z, hstands, hz, hd'⟩, hreduces _ (hstands.begins hsets hz)⟩
  obtain ⟨i, ⟨d, z, hstands, hz, hd⟩, hi⟩ := exists_endless hcompletions
  have hforever : (Configuration.mk s i []).ReducesForever g t := Endless.reducesForever hi
  exact hforever.not_halts _ (hstands.halts hg ht hcomplete hsets hz hγ hd)

/-- If all symbols that occur in derivations are productive, the guard never breaks off a run on a table
without conflicts. -/
theorem not_stuck_of_productive (hg : g.Proper u) (ht : t.Fits g) (hcomplete : t.Complete g)
    (hsets : g.HasSets nullable first) (hproductive : ∀ s, g.Reachable u s → g.Productive s) {w : List Symbol}
    {r : Round} (hreach : (Round.ofInput (.ofSymbols w g.endSymbol)).Reaches g t r) (m : Move) :
    ¬ r.Stuck g t m := by
  intro hstuck
  have hendless := (Watched.of_reaches hreach).endless_of_stuck ht.goto_lt hstuck
  obtain ⟨hturn, hguard⟩ := hstuck
  cases m with
  | shift target => cases hguard
  | reduce n popped target =>
      obtain ⟨γ, hspells⟩ := hreach.spells hg ht
      obtain ⟨rule, α, hrule, _, _, hspells'⟩ := Configuration.spells_reduce hg ht hspells hturn
      apply not_endless_of_productive hg ht hcomplete hsets hproductive hspells' _ hendless
      rw [List.getLast?_concat]
      rintro x ⟨⟩
      exact hg.not_isTerminal_lhs hrule

theorem Configuration.ok_or_unexpected_of_halt (hg : g.Proper u) (htable : ParseTable.ofGrammar g = .ok t)
    {c : Configuration} (hspells : t.automaton.Spells g c.stack γ) {v : Verdict} (h : c.turn g t = .halt v) :
    (∃ l, v = .ok l) ∨ ∃ token s, v = .error (.unexpected token s) := by
  have hsafe := turn_ne_malformedTable hg htable hspells
  rcases turn_cases g t c with ⟨q, _, hturn⟩ | ⟨n, rule, exposed, q, _, _, _, _, hturn⟩ | ⟨_, hturn⟩ |
    ⟨n, s, x, _, hturn⟩ | hturn
  · rw [hturn] at h
    cases h
  · rw [hturn] at h
    cases h
  · rw [hturn] at h
    cases h
    exact Or.inl ⟨_, rfl⟩
  · exact absurd hturn (hsafe s x)
  · rw [hturn] at h
    cases h
    exact Or.inr ⟨_, _, rfl⟩

/-- Without conflicts, and if every symbol that occurs in a derivation derives some terminals, an input is
accepted or has an unexpected token. -/
theorem recognize_ok_or_unexpected {calls : List Builder.Call} {g : AugmentedGrammar}
    (hbuild : (Builder.ofCalls calls).build = .ok g) :
    ∃ t, ParseTable.ofGrammar g.toGrammar = .ok t ∧
      (t.isConflictFree → (∀ s, g.Reachable g.userStart s → g.Productive s) → ∀ w,
        (∃ l, recognize g.toGrammar t (.ofSymbols w g.endSymbol) = .ok l) ∨
          ∃ token s, recognize g.toGrammar t (.ofSymbols w g.endSymbol) = .error (.unexpected token s)) := by
  have hg := Builder.proper_of_build hbuild
  have hsets := Builder.hasSets_of_build hbuild
  obtain ⟨t, htable, ht, hmet⟩ := ParseTable.exists_table hg
  refine ⟨t, htable, ?_⟩
  intro hfree hproductive w
  obtain ⟨v, last, hreach, hlast⟩ := ht.exists_halts hg w
  rw [recognize_of_halts ⟨last, hreach, hlast⟩]
  rcases Round.step_eq_inr_iff.mp hlast with hturn | ⟨m, hstuck, _⟩
  · obtain ⟨γ, hspells⟩ := hreach.spells hg ht
    exact Configuration.ok_or_unexpected_of_halt hg htable hspells hturn
  · exact absurd hstuck (not_stuck_of_productive hg ht (hmet hfree) hsets hproductive hreach m)

/-- In the grammar of nested pairs every symbol is productive. -/
theorem recognize_ok_or_unexpected_nested : (Builder.ofCalls nestedCalls).build = .ok nested ∧
    ∃ t, ParseTable.ofGrammar nested.toGrammar = .ok t ∧ t.isConflictFree ∧
      (∀ s, nested.Reachable 1 s → nested.Productive s) ∧
      ((∃ l, recognize nested.toGrammar t (.ofSymbols [2, 3, 3] 0) = .ok l) ∨
        ∃ token s, recognize nested.toGrammar t (.ofSymbols [2, 3, 3] 0) = .error (.unexpected token s)) := by
  have hbuild : (Builder.ofCalls nestedCalls).build = .ok nested := Builder.build_eq_ok (by cbv) (by cbv)
  have htable : (ParseTable.ofGrammar nested.toGrammar).toOption.map (·.isConflictFree) = some true := by
    simp only [nested, AugmentedGrammar.ofRules, ← Bool.cond_eq_ite]
    cbv
  have hproductive : ∀ s, nested.Reachable 1 s → nested.Productive s := by
    intro s hs
    have hlt : s < 5 := (Builder.proper_of_build hbuild).lt_of_reachable hs
    have hterminal : ∀ x < 5, x ≠ 1 → x ≠ 4 → nested.isTerminal x := by decide
    have hpairs : nested.deriveRightmost [2] [1] = some [] := by cbv
    have hstart : nested.deriveRightmost [0, 2] [4] = some [] := by cbv
    by_cases h1 : s = 1
    · rw [h1]
      exact ⟨[], by simp, Grammar.derives_of_deriveRightmost hpairs⟩
    · by_cases h4 : s = 4
      · rw [h4]
        exact ⟨[], by simp, Grammar.derives_of_deriveRightmost hstart⟩
      · exact ⟨[s], by simpa using hterminal s hlt h1 h4, .refl⟩
  obtain ⟨t, ht, hverdicts⟩ := recognize_ok_or_unexpected hbuild
  rw [ht] at htable
  have hfree : t.isConflictFree = true := Option.some.inj htable
  exact ⟨hbuild, t, ht, hfree, hproductive, hverdicts hfree hproductive [2, 3, 3]⟩

/-- Strings of `b` that never come to an end, besides a single `x`. -/
def unfinishedCalls : List Builder.Call :=
  [.addToken "s", .addToken "a", .addToken "x", .addToken "b", .addRule 1 [2], .addRule 1 [3, 4], .addRule 2 [4, 2],
    .addRule 4 [], .setStart 1]

def unfinished : AugmentedGrammar :=
  .ofRules #["$end", "s", "a", "x", "b"] #[⟨1, [2]⟩, ⟨1, [3, 4]⟩, ⟨2, [4, 2]⟩, ⟨4, []⟩] 1

/-- Without productivity, the guard may have to break off a run on a table without conflicts: in front of the
end of the input the empty rule is reduced by again and again. -/
theorem recognize_unfinished : (Builder.ofCalls unfinishedCalls).build = .ok unfinished ∧
    ∃ t, ParseTable.ofGrammar unfinished.toGrammar = .ok t ∧ t.isConflictFree ∧
      recognize unfinished.toGrammar t (.ofSymbols [] 0) = .error (.malformedTable 4 0) := by
  have hbuild : (Builder.ofCalls unfinishedCalls).build = .ok unfinished :=
    Builder.build_eq_ok (by cbv) (by cbv)
  have hrun : (ParseTable.ofGrammar unfinished.toGrammar).toOption.map (fun t =>
      (t.isConflictFree, recognize unfinished.toGrammar t (.ofSymbols [] 0))) =
      some (true, .error (.malformedTable 4 0)) := by
    simp only [unfinished, AugmentedGrammar.ofRules, ← Bool.cond_eq_ite]
    cbv
  obtain ⟨t, ht, _⟩ := ParseTable.exists_table (Builder.proper_of_build hbuild)
  rw [ht] at hrun
  obtain ⟨hfree, herror⟩ := Prod.mk.inj (Option.some.inj hrun)
  exact ⟨hbuild, t, ht, hfree, herror⟩

end ShiftReduce
