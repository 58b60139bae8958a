import ShiftReduce.Proofs.Conflicts
import ShiftReduce.Proofs.Failure
import ShiftReduce.Proofs.History
import ShiftReduce.Proofs.Writing

/-! What is built. A builder whose start symbol has a rule gives a grammar, and any other says what it lacks. The
symbols and the rules of the builder keep their numbers. One symbol is new, the last one, and so is rule `0`, which has
it on the left. Its label is that of the start symbol with primes at its end, of which as many are added as it takes to
make it new, so labels go on leading to one symbol each. The rules of a symbol are looked up in an index, which has
them in the order in which a search through the rules would meet them. -/

namespace ShiftReduce

theorem AugmentedGrammar.symbol?_eq_some_iff {g : AugmentedGrammar} (h : g.labels.toList.Nodup) {label : String}
    {s : Symbol} : g.symbol? label = some s ↔ g.labels[s]? = some label :=
  idxOf?_eq_some_iff_of_nodup h

theorem nodup_push {labels : Array String} (h : labels.toList.Nodup) {label : String} (hlabel : label ∉ labels.toList) :
    (labels.push label).toList.Nodup := by
  rw [Array.toList_push]
  exact List.nodup_append.mpr ⟨h, by simp, fun a ha b hb hab => hlabel (by simp_all)⟩

theorem AugmentedGrammar.nodup_labels_of_build {calls : List Builder.Call} {g : AugmentedGrammar}
    (h : (Builder.ofCalls calls).build = .ok g) : g.labels.toList.Nodup := by
  obtain ⟨hstart, -, hg⟩ := Builder.of_build h
  have hvalid := Builder.valid_ofCalls calls
  obtain ⟨n, hlabels, -, hnew, -⟩ := exists_labels_ofRules (Array.getElem?_eq_getElem (hvalid.start _ hstart))
    (Builder.ofCalls calls).rules
  rw [hg, hlabels]
  exact nodup_push hvalid.indexed.nodup hnew

namespace Builder

variable {b : Builder}

theorem build_of_rule {u : Symbol} (hstart : b.start = some u) (hrule : ∃ rule ∈ b.rules, rule.lhs = u) :
    b.build = .ok (.ofRules b.labels b.rules u) := by
  obtain ⟨rule, hmem, hlhs⟩ := hrule
  have hany : b.rules.any (·.lhs == u) := Array.any_eq_true'.mpr ⟨rule, hmem, beq_iff_eq.mpr hlhs⟩
  exact build_eq_ok (by rw [hstart]) hany

theorem build_of_no_rule {u : Symbol} {label : String} (hstart : b.start = some u) (hlabel : b.labels[u]? = some label)
    (hrule : ∀ rule ∈ b.rules, rule.lhs ≠ u) : b.build = .error (.missingStartRule label) := by
  have hany : ¬ b.rules.any (·.lhs == u) := by
    rw [Array.any_eq_true']
    rintro ⟨rule, hmem, hlhs⟩
    exact hrule rule hmem (beq_iff_eq.mp hlhs)
  rw [build, hstart]
  dsimp only
  rw [if_neg hany, hlabel]
  rfl

/-- A builder lacks a start symbol, or else a rule for it. -/
theorem build_eq_error_iff (h : b.Valid) {e : GrammarError} : b.build = .error e ↔
    b.start = none ∧ e = .missingStart ∨ ∃ s label, b.start = some s ∧ b.labels[s]? = some label ∧
      (∀ rule ∈ b.rules, rule.lhs ≠ s) ∧ e = .missingStartRule label := by
  constructor
  · intro herror
    cases hstart : b.start with
    | none =>
        rw [build, hstart] at herror
        exact .inl ⟨rfl, (Except.error.inj herror).symm⟩
    | some u =>
        obtain ⟨label, hlabel⟩ : ∃ label, b.labels[u]? = some label :=
          ⟨_, Array.getElem?_eq_getElem (h.start u hstart)⟩
        by_cases hrule : ∃ rule ∈ b.rules, rule.lhs = u
        · cases (build_of_rule hstart hrule).symm.trans herror
        · have hnone : ∀ rule ∈ b.rules, rule.lhs ≠ u := fun rule hmem hlhs => hrule ⟨rule, hmem, hlhs⟩
          have heq := Except.error.inj ((build_of_no_rule hstart hlabel hnone).symm.trans herror)
          exact .inr ⟨u, label, rfl, hlabel, hnone, heq.symm⟩
  · rintro (⟨hstart, rfl⟩ | ⟨u, label, hstart, hlabel, hrule, rfl⟩)
    · rw [build, hstart]
    · exact build_of_no_rule hstart hlabel hrule

end Builder

/-- What builders give, after any calls. Without a start symbol, or if no rule has it on the left, that is the error.
Otherwise there is a grammar. It has one label more than the builder, all labels differ, and they and the symbols lead
to each other. Rules keep their numbers. The new symbol comes last, and stands nowhere but on the left of rule `0`,
which derives the start symbol. Terminals are the symbols without a rule, the end symbol among them. What the index of
rules says of any number is what a search through the rules finds. -/
theorem build_augments (calls : List Builder.Call) :
    (∀ e, (Builder.ofCalls calls).build = .error e ↔
      (Builder.ofCalls calls).start = none ∧ e = .missingStart ∨
      ∃ s label, (Builder.ofCalls calls).start = some s ∧ (Builder.ofCalls calls).labels[s]? = some label ∧
        (∀ rule ∈ (Builder.ofCalls calls).rules, rule.lhs ≠ s) ∧ e = .missingStartRule label) ∧
    ∀ u, (Builder.ofCalls calls).start = some u → (∃ rule ∈ (Builder.ofCalls calls).rules, rule.lhs = u) →
      ∃ g label n, (Builder.ofCalls calls).build = .ok g ∧ (Builder.ofCalls calls).labels[u]? = some label ∧
        g.labels = (Builder.ofCalls calls).labels.push (AugmentedGrammar.primed label n) ∧ 0 < n ∧
        (∀ m, 0 < m → m < n → AugmentedGrammar.primed label m ∈ (Builder.ofCalls calls).labels) ∧
        g.labels.toList.Nodup ∧ (∀ l s, g.symbol? l = some s ↔ g.labels[s]? = some l) ∧
        g.userStart = u ∧ g.endSymbol = 0 ∧ g.startRule = 0 ∧ g.startSymbol = (Builder.ofCalls calls).labels.size ∧
        g.rule? 0 = some ⟨g.startSymbol, [u]⟩ ∧ (∀ k, g.rule? (k + 1) = (Builder.ofCalls calls).rules[k]?) ∧
        (∀ r rule, g.rule? r = some rule → g.startSymbol ∉ rule.rhs ∧ (rule.lhs = g.startSymbol → r = 0)) ∧
        (∀ s, g.isTerminal s ↔ s < g.symbolCount ∧ ∀ r rule, g.rule? r = some rule → rule.lhs ≠ s) ∧
        g.isTerminal g.endSymbol ∧ ∀ s, g.rulesWithLhs s = scanRules g.rules s := by
  have hvalid := Builder.valid_ofCalls calls
  refine ⟨fun e => Builder.build_eq_error_iff hvalid, fun u hstart hrule => ?_⟩
  have hbuild := Builder.build_of_rule hstart hrule
  have hg := Builder.proper_of_build hbuild
  obtain ⟨label, hlabel⟩ : ∃ label, (Builder.ofCalls calls).labels[u]? = some label :=
    ⟨_, Array.getElem?_eq_getElem (hvalid.start u hstart)⟩
  obtain ⟨n, hlabels, hn, -, hleast⟩ := AugmentedGrammar.exists_labels_ofRules hlabel (Builder.ofCalls calls).rules
  have hnodup := AugmentedGrammar.nodup_labels_of_build hbuild
  refine ⟨_, label, n, hbuild, hlabel, hlabels, hn, fun m hm hlt => Array.mem_toList_iff.mp (hleast m hm hlt), hnodup,
    fun l s => AugmentedGrammar.symbol?_eq_some_iff hnodup, rfl, rfl, rfl, rfl, hg.startRule, ?_, ?_,
    fun s => hg.isTerminal_iff, ?_, (Builder.plain_of_build hbuild).rulesWithLhs⟩
  · intro k
    change (#[_] ++ (Builder.ofCalls calls).rules)[k + 1]? = _
    rw [Array.getElem?_append_right (by simp)]
    rfl
  · exact fun r rule h => ⟨hg.start_not_mem h, hg.start_unique h⟩
  · refine hg.isTerminal_iff.mpr ⟨hg.end_lt, fun r rule h hlhs => ?_⟩
    exact hg.end_not_mem h (hlhs ▸ List.mem_cons_self)

/-- The label of the start symbol is registered with one prime as well. -/
def primedCalls : List Builder.Call :=
  [.addToken "s", .addToken "s'", .addToken "x", .addRule 1 [3, 2], .addRule 2 [], .addRule 1 [7], .addRule 1 [3],
    .setStart 1]

theorem build_augments_primed :
    ((Builder.ofCalls primedCalls).start = some 1 ∧ ∃ rule ∈ (Builder.ofCalls primedCalls).rules, rule.lhs = 1) ∧
      ∃ g, (Builder.ofCalls primedCalls).build = .ok g ∧ g.labels.toList = ["$end", "s", "s'", "x", "s''"] ∧
        g.rule? 0 = some ⟨4, [1]⟩ ∧ g.rule? 3 = some ⟨1, [3]⟩ ∧ g.rulesWithLhs 1 = scanRules g.rules 1 ∧
        g.rulesWithLhs 7 = scanRules g.rules 7 ∧ g.symbol? "s''" = some 4 := by
  have hlabels : (Builder.ofCalls primedCalls).labels = #["$end", "s", "s'", "x"] := by cbv
  have hrules : (Builder.ofCalls primedCalls).rules = #[⟨1, [3, 2]⟩, ⟨2, []⟩, ⟨1, [3]⟩] := by cbv
  have hstart : (Builder.ofCalls primedCalls).start = some 1 := by cbv
  have hrule : ∃ rule ∈ (Builder.ofCalls primedCalls).rules, rule.lhs = 1 := ⟨⟨1, [3]⟩, by simp [hrules], rfl⟩
  obtain ⟨g, label, n, hbuild, hlabel, hpush, hn, hleast, hnodup, hsymbol, -, -, -, hsize, hzero, hnumbers, -, -, -,
    hindex⟩ := (build_augments primedCalls).2 1 hstart hrule
  rw [hlabels] at hlabel hpush hleast hsize
  rw [hrules] at hnumbers
  obtain rfl : "s" = label := Option.some.inj hlabel
  have htwo : n = 2 := by
    rcases Nat.lt_trichotomy n 2 with hlt | heq | hlt
    · obtain rfl : n = 1 := by omega
      rw [hpush] at hnodup
      exact absurd hnodup (by decide)
    · exact heq
    · exact absurd (Array.mem_toList_iff.mpr (hleast 2 (by decide) hlt)) (by decide)
  subst htwo
  have hlist : g.labels.toList = ["$end", "s", "s'", "x", "s''"] := by
    rw [hpush]
    decide
  refine ⟨⟨hstart, hrule⟩, g, hbuild, hlist, ?_, hnumbers 2, hindex 1, hindex 7, (hsymbol _ _).mpr ?_⟩
  · rw [hzero, hsize]
    rfl
  · rw [← Array.getElem?_toList, hlist]
    rfl

end ShiftReduce
