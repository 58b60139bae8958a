import ShiftReduce.Proofs.Registration

/-! What a builder answers to calls that come one after the other, in any order and however many of them fail. A call
that fails looks at its symbols before it changes anything, so the builder is as it was. Registering a label never
takes a label away, so a symbol that was handed out once stays good, and each rule that is added gets the next number.
From one call to the next the index and the labels keep saying the same. -/

namespace ShiftReduce

namespace Builder

/-- What is answered to a call. -/
inductive Answer where
  | symbol (s : Symbol)
  | rule (r : RuleId)
  /-- The start symbol has been chosen. -/
  | chosen
  | failed (e : GrammarError)
deriving DecidableEq, Repr

/-- The number of the rule that has been added. -/
def Answer.rule? : Answer → Option RuleId
  | rule r => some r
  | _ => none

def answer (b : Builder) : Call → Answer
  | .addToken label => .symbol (b.addToken label).1
  | .addRule lhs rhs =>
    match (b.insertRule lhs rhs).1 with
    | .ok r => .rule r
    | .error e => .failed e
  | .setStart start =>
    match (b.chooseStart start).1 with
    | .ok () => .chosen
    | .error e => .failed e

/-- The answers to some calls, of which each meets the builder that the one before has left behind. -/
def answers (b : Builder) : List Call → List Answer
  | [] => []
  | call :: calls => b.answer call :: (b.perform call).answers calls

/-! ### One call -/

section Call

variable {b : Builder}

theorem symbolError?_eq_some_iff {s : Symbol} {e : GrammarError} : b.symbolError? s = some e ↔
    b.labels.size ≤ s ∧ e = .unknownSymbol s ∨ s < b.labels.size ∧ s = endSymbol ∧ e = .endSymbolInRule := by
  unfold symbolError?
  split
  · simp only [Option.some.injEq]
    lia
  · split
    · simp only [Option.some.injEq]
      lia
    · simp only [reduceCtorEq, false_iff]
      lia

theorem answer_addRule {lhs : Symbol} {rhs : List Symbol} : b.answer (.addRule lhs rhs) =
    ((lhs :: rhs).findSome? b.symbolError?).elim (.rule (b.rules.size + 1)) .failed := by
  rw [answer, insertRule]
  cases (lhs :: rhs).findSome? b.symbolError? <;> simp

theorem answer_setStart {start : Symbol} : b.answer (.setStart start) =
    if b.labels.size ≤ start then .failed (.unknownSymbol start) else .chosen := by
  rw [answer, chooseStart]
  by_cases h : b.labels.size ≤ start <;> simp [h]

/-- The error of a rule is that of the first of its symbols that may not stand in a rule. -/
theorem answer_addRule_eq_failed_iff {lhs : Symbol} {rhs : List Symbol} {e : GrammarError} :
    b.answer (.addRule lhs rhs) = .failed e ↔ ∃ before s after, lhs :: rhs = before ++ s :: after ∧
      (∀ x ∈ before, x < b.labels.size ∧ x ≠ endSymbol) ∧
      (b.labels.size ≤ s ∧ e = .unknownSymbol s ∨ s < b.labels.size ∧ s = endSymbol ∧ e = .endSymbolInRule) := by
  have hfind : b.answer (.addRule lhs rhs) = .failed e ↔ (lhs :: rhs).findSome? b.symbolError? = some e := by
    rw [answer_addRule]
    cases (lhs :: rhs).findSome? b.symbolError? <;> simp
  rw [hfind, List.findSome?_eq_some_iff]
  simp only [symbolError?_eq_some_iff, symbolError?_eq_none_iff]
  exact exists_congr fun _ => exists_congr fun _ => exists_congr fun _ => and_congr_right fun _ => and_comm

theorem answer_addRule_failed_iff {lhs : Symbol} {rhs : List Symbol} :
    (∃ e, b.answer (.addRule lhs rhs) = .failed e) ↔ ∃ s ∈ lhs :: rhs, b.labels.size ≤ s ∨ s = endSymbol := by
  have hfind : (∃ e, b.answer (.addRule lhs rhs) = .failed e) ↔ (lhs :: rhs).findSome? b.symbolError? ≠ none := by
    rw [answer_addRule]
    cases (lhs :: rhs).findSome? b.symbolError? <;> simp
  rw [hfind, Ne, List.findSome?_eq_none_iff]
  simp only [symbolError?_eq_none_iff, not_forall, exists_prop]
  refine exists_congr fun s => and_congr_right fun _ => ?_
  lia

theorem answer_setStart_eq_failed_iff {start : Symbol} {e : GrammarError} :
    b.answer (.setStart start) = .failed e ↔ b.labels.size ≤ start ∧ e = .unknownSymbol start := by
  rw [answer_setStart]
  by_cases h : b.labels.size ≤ start <;> simp [h, eq_comm]

/-- A call that fails leaves the builder as it was. -/
theorem perform_of_failed {call : Call} {e : GrammarError} (h : b.answer call = .failed e) : b.perform call = b := by
  cases call with
  | addToken label => cases h
  | addRule lhs rhs =>
      rw [answer_addRule] at h
      rw [perform, insertRule]
      cases hfind : (lhs :: rhs).findSome? b.symbolError? with
      | none =>
          rw [hfind] at h
          cases h
      | some _ => rfl
  | setStart start => rw [perform, chooseStart, if_pos (answer_setStart_eq_failed_iff.mp h).1]

theorem getElem?_perform {s : Symbol} {label : String} (call : Call) (h : b.labels[s]? = some label) :
    (b.perform call).labels[s]? = some label := by
  cases call with
  | addToken label' => exact getElem?_addToken label' h
  | addRule lhs rhs =>
      rw [perform, insertRule]
      split <;> exact h
  | setStart start =>
      rw [perform, chooseStart]
      split <;> exact h

/-- The rule that is added, if one is, gets the next number, and no other call changes the rules. -/
theorem rules_perform (call : Call) :
    (∃ lhs rhs, call = .addRule lhs rhs ∧ b.answer call = .rule (b.rules.size + 1) ∧
      (b.perform call).rules = b.rules.push ⟨lhs, rhs⟩) ∨
    (b.answer call).rule? = none ∧ (b.perform call).rules = b.rules := by
  cases call with
  | addToken label => exact .inr ⟨rfl, rules_addToken b label⟩
  | addRule lhs rhs =>
      rw [answer_addRule, perform, insertRule]
      cases (lhs :: rhs).findSome? b.symbolError? with
      | none => exact .inl ⟨lhs, rhs, rfl, rfl, rfl⟩
      | some e => exact .inr ⟨rfl, rfl⟩
  | setStart start =>
      rw [answer_setStart, perform, chooseStart]
      by_cases h : b.labels.size ≤ start <;> simp [h, Answer.rule?]

end Call

/-! ### Many calls -/

theorem getElem?_foldl_perform {b : Builder} {s : Symbol} {label : String} (calls : List Call)
    (h : b.labels[s]? = some label) : (calls.foldl perform b).labels[s]? = some label := by
  induction calls generalizing b with
  | nil => exact h
  | cons call calls ih => exact ih (getElem?_perform call h)

theorem getElem?_rules_foldl_perform {b : Builder} {n : Nat} {rule : Rule} (calls : List Call)
    (h : b.rules[n]? = some rule) : (calls.foldl perform b).rules[n]? = some rule := by
  induction calls generalizing b with
  | nil => exact h
  | cons call calls ih =>
      refine ih ?_
      rcases rules_perform (b := b) call with ⟨lhs, rhs, -, -, hpush⟩ | ⟨-, hsame⟩
      · rw [hpush, Array.getElem?_push, if_neg (Nat.ne_of_lt (Array.getElem?_eq_some_iff.mp h).1)]
        exact h
      · rwa [hsame]

/-- The symbol that was handed out for a label has this label in the end. -/
theorem exists_symbol_of_addToken {b : Builder} (h : b.Valid) {calls : List Call} {i : Nat} {label : String}
    (hcall : calls[i]? = some (.addToken label)) :
    ∃ s, (b.answers calls)[i]? = some (.symbol s) ∧ (calls.foldl perform b).labels[s]? = some label := by
  induction calls generalizing b i with
  | nil => cases hcall
  | cons call calls ih =>
      cases i with
      | zero =>
          obtain rfl := Option.some.inj hcall
          exact ⟨_, rfl, getElem?_foldl_perform calls (label_addToken h.indexed label)⟩
      | succ i => exact ih (h.perform call) hcall

/-- The rules that are added get the numbers that come next, one after the other. -/
theorem filterMap_rule?_answers (b : Builder) (calls : List Call) : ∃ n,
    (calls.foldl perform b).rules.size = b.rules.size + n ∧
      (b.answers calls).filterMap Answer.rule? = List.range' (b.rules.size + 1) n := by
  induction calls generalizing b with
  | nil => exact ⟨0, rfl, rfl⟩
  | cons call calls ih =>
      obtain ⟨n, hsize, hrules⟩ := ih (b.perform call)
      rcases rules_perform (b := b) call with ⟨lhs, rhs, -, hanswer, hpush⟩ | ⟨hanswer, hsame⟩
      · rw [hpush, Array.size_push] at hsize hrules
        refine ⟨n + 1, by rw [List.foldl_cons, hsize]; lia, ?_⟩
        rw [answers, List.filterMap_cons, hanswer, hrules, List.range'_succ]
        rfl
      · rw [hsame] at hsize hrules
        refine ⟨n, hsize, ?_⟩
        rw [answers, List.filterMap_cons, hanswer]
        exact hrules

/-- The number that was given to a rule is that of the rule in the end. -/
theorem getElem?_rules_of_addRule {b : Builder} {calls : List Call} {i : Nat} {lhs : Symbol} {rhs : List Symbol}
    {r : RuleId} (hcall : calls[i]? = some (.addRule lhs rhs)) (hanswer : (b.answers calls)[i]? = some (.rule r)) :
    (calls.foldl perform b).rules[r - 1]? = some ⟨lhs, rhs⟩ := by
  induction calls generalizing b i with
  | nil => cases hcall
  | cons call calls ih =>
      cases i with
      | zero =>
          obtain rfl := Option.some.inj hcall
          have hrule : b.answer (.addRule lhs rhs) = .rule r := Option.some.inj hanswer
          rcases rules_perform (b := b) (.addRule lhs rhs) with ⟨_, _, heq, hnumber, hpush⟩ | ⟨hnone, -⟩
          · cases heq
            obtain rfl := Answer.rule.inj (hnumber.symm.trans hrule)
            refine getElem?_rules_foldl_perform calls ?_
            rw [hpush, Nat.add_sub_cancel]
            exact Array.getElem?_push_size
          · rw [hrule] at hnone
            cases hnone
      | succ i => exact ih hcall hanswer

/-- A builder after any calls. Its labels differ, the first of them is the end label, and the index leads back from
each. Symbols keep the labels for which they were handed out, and rules are numbered from `1` on in the order in
which they were added. What it mentions is registered. A rule is refused if one of its symbols is not registered or
is the end symbol, and the error is that of the first such symbol, and a start symbol is refused if it is not
registered. What is refused changes nothing. -/
theorem consistent_after_calls (calls : List Call) :
    (ofCalls calls).labels.toList.Nodup ∧ (ofCalls calls).labels[0]? = some endLabel ∧
    (∀ (label : String) (s : Symbol),
      (ofCalls calls).symbol? label = some s ↔ (ofCalls calls).labels[s]? = some label) ∧
    (∀ (i : Nat) (label : String), calls[i]? = some (.addToken label) →
      ∃ s : Symbol, (empty.answers calls)[i]? = some (.symbol s) ∧ (ofCalls calls).labels[s]? = some label) ∧
    (∀ rule ∈ (ofCalls calls).rules, ∀ s ∈ rule.lhs :: rule.rhs, s < (ofCalls calls).labels.size ∧ s ≠ endSymbol) ∧
    (empty.answers calls).filterMap Answer.rule? = List.range' 1 (ofCalls calls).rules.size ∧
    (∀ (i : Nat) (lhs : Symbol) (rhs : List Symbol) (r : RuleId), calls[i]? = some (.addRule lhs rhs) →
      (empty.answers calls)[i]? = some (.rule r) → (ofCalls calls).rules[r - 1]? = some ⟨lhs, rhs⟩) ∧
    (∀ s, (ofCalls calls).start = some s → s < (ofCalls calls).labels.size) ∧
    (∀ lhs rhs, (∃ e, (ofCalls calls).answer (.addRule lhs rhs) = .failed e) ↔
      ∃ s ∈ lhs :: rhs, (ofCalls calls).labels.size ≤ s ∨ s = endSymbol) ∧
    (∀ lhs rhs e, (ofCalls calls).answer (.addRule lhs rhs) = .failed e ↔
      ∃ before s after, lhs :: rhs = before ++ s :: after ∧
        (∀ x ∈ before, x < (ofCalls calls).labels.size ∧ x ≠ endSymbol) ∧
        ((ofCalls calls).labels.size ≤ s ∧ e = .unknownSymbol s ∨
          s < (ofCalls calls).labels.size ∧ s = endSymbol ∧ e = .endSymbolInRule)) ∧
    (∀ s e, (ofCalls calls).answer (.setStart s) = .failed e ↔
      (ofCalls calls).labels.size ≤ s ∧ e = .unknownSymbol s) ∧
    ∀ call e, (ofCalls calls).answer call = .failed e → (ofCalls calls).perform call = ofCalls calls := by
  have hvalid := valid_ofCalls calls
  have hnumbers : (empty.answers calls).filterMap Answer.rule? = List.range' 1 (ofCalls calls).rules.size := by
    obtain ⟨n, hsize, hrules⟩ := filterMap_rule?_answers empty calls
    rw [hrules, ofCalls, hsize, show empty.rules.size = 0 from rfl, Nat.zero_add, Nat.zero_add]
  exact ⟨hvalid.indexed.nodup, getElem?_foldl_perform calls rfl, hvalid.indexed,
    fun _ _ => exists_symbol_of_addToken valid_empty, hvalid.rules, hnumbers,
    fun _ _ _ _ => getElem?_rules_of_addRule, hvalid.start, fun _ _ => answer_addRule_failed_iff,
    fun _ _ _ => answer_addRule_eq_failed_iff, fun _ _ => answer_setStart_eq_failed_iff,
    fun _ _ => perform_of_failed⟩

/-- Labels that come again, and calls that fail in between. -/
def refusedCalls : List Call :=
  [.addToken "a", .addToken "s", .addRule 2 [1, 7, 0], .addToken "a", .addRule 2 [1], .setStart 3, .addRule 2 [0, 7],
    .addRule 2 [], .setStart 2]

theorem consistent_after_calls_refused :
    empty.answers refusedCalls = [.symbol 1, .symbol 2, .failed (.unknownSymbol 7), .symbol 1, .rule 1,
      .failed (.unknownSymbol 3), .failed .endSymbolInRule, .rule 2, .chosen] ∧
    (ofCalls refusedCalls).labels[1]? = some "a" ∧ (ofCalls refusedCalls).rules[1]? = some ⟨2, []⟩ ∧
    (ofCalls refusedCalls).answer (.addRule 1 [2, 3, 0]) = .failed (.unknownSymbol 3) ∧
    (ofCalls refusedCalls).perform (.addRule 1 [2, 3, 0]) = ofCalls refusedCalls := by
  have hanswers : empty.answers refusedCalls = [.symbol 1, .symbol 2, .failed (.unknownSymbol 7), .symbol 1, .rule 1,
      .failed (.unknownSymbol 3), .failed .endSymbolInRule, .rule 2, .chosen] := by cbv
  have hsize : (ofCalls refusedCalls).labels.size = 3 := by cbv
  obtain ⟨-, -, -, hsymbols, -, -, hrules, -, -, herrors, -, hsame⟩ := consistent_after_calls refusedCalls
  rw [hanswers] at hsymbols hrules
  obtain ⟨s, hs, hlabel⟩ := hsymbols 0 "a" rfl
  obtain rfl : 1 = s := Answer.symbol.inj (Option.some.inj hs)
  have herror : (ofCalls refusedCalls).answer (.addRule 1 [2, 3, 0]) = .failed (.unknownSymbol 3) :=
    (herrors 1 [2, 3, 0] _).mpr ⟨[1, 2], 3, [0], rfl, by simp [hsize, endSymbol], .inl ⟨Nat.le_of_eq hsize, rfl⟩⟩
  exact ⟨hanswers, hlabel, hrules 7 2 [] 2 rfl rfl, herror, hsame _ _ herror⟩

end Builder

end ShiftReduce
