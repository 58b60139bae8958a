import ShiftReduce.Command.Basic
import ShiftReduce.Proofs.Acceptance
import ShiftReduce.Proofs.FollowSets
import ShiftReduce.Proofs.Registration

/-! What the summary of the conflicts counts. Only a reduction is ever rejected, and a reduction is demanded on
terminals alone, so what is kept is a shift, another reduction or acceptance, and never a goto. The summary gives the
number of the conflicts with a shift and of those with another reduction. A conflict with acceptance is of neither
kind, so it is left out of both numbers. There is none unless some rule has the start symbol on its right-hand side,
since otherwise the accepting state has nothing to reduce. -/

namespace ShiftReduce

variable {g : AugmentedGrammar} {t : ParseTable}

namespace Conflict

/-- What a conflict in a table looks like: a reduction was rejected, and a shift, another reduction or acceptance was
kept. -/
inductive Shape (endSymbol : Symbol) : Conflict → Prop
  | shiftReduce {q x target r} : Shape endSymbol ⟨q, x, .shift target, .reduce r⟩
  | reduceReduce {q x r r'} : Shape endSymbol ⟨q, x, .reduce r, .reduce r'⟩
  | acceptReduce {q r} : Shape endSymbol ⟨q, endSymbol, .accept, .reduce r⟩

variable {endSymbol : Symbol} {c : Conflict}

theorem Shape.kind (h : c.Shape endSymbol) : c.kind = .shiftReduce ∨ c.kind = .reduceReduce ∨
    c.kind = .other ∧ c.existing = .accept ∧ c.symbol = endSymbol ∧ ∃ r, c.rejected = .reduce r := by
  cases h with
  | shiftReduce => exact Or.inl rfl
  | reduceReduce => exact Or.inr (Or.inl rfl)
  | acceptReduce => exact Or.inr (Or.inr ⟨rfl, rfl, rfl, _, rfl⟩)

/-- Each conflict is counted once. -/
theorem countP_add_countP {l : List Conflict} (h : ∀ c ∈ l, c.Shape endSymbol) :
    l.countP (·.kind == .shiftReduce) + l.countP (·.kind == .reduceReduce) + l.countP (·.existing == .accept) =
      l.length := by
  induction l with
  | nil => rfl
  | cons c l ih =>
      obtain ⟨hc, hl⟩ := List.forall_mem_cons.mp h
      have hone : (if c.kind == .shiftReduce then 1 else 0) + (if c.kind == .reduceReduce then 1 else 0) +
          (if c.existing == .accept then 1 else 0) = 1 := by
        cases hc <;> rfl
      rw [List.countP_cons, List.countP_cons, List.countP_cons, List.length_cons, ← ih hl]
      omega

end Conflict

namespace ParseTable

variable {calls : List Builder.Call}

theorem shape_of_mem_conflicts (hbuild : (Builder.ofCalls calls).build = .ok g)
    (htable : ofGrammar g.toGrammar = .ok t) {c : Conflict} (hc : c ∈ t.conflicts) : c.Shape g.endSymbol := by
  have hg := Builder.proper_of_build hbuild
  have hzero := Builder.startRule_of_build hbuild
  obtain ⟨r, hr, ⟨items, _, hmay, _⟩, hexisting⟩ := rejects_of_mem_conflicts hg hzero htable hc
  have hdemand := (fits_of_ofGrammar hg htable).demands hexisting
  obtain ⟨q, x, existing, rejected⟩ := c
  obtain rfl : rejected = .reduce r := hr
  cases existing with
  | shift target => exact .shiftReduce
  | goto target =>
      -- What follows a symbol is a terminal, and there is no goto over a terminal.
      obtain ⟨_, rule, hrule, _, hfollows⟩ := hmay
      have hlhs := hg.symbols_lt hrule rule.lhs List.mem_cons_self
      have hterminal := AugmentedGrammar.isTerminal_of_follows (Builder.eq_ofRules_of_build hbuild) hg hlhs
        (hg.not_isTerminal_lhs hrule) hfollows
      exact absurd hterminal hdemand.of_goto.1
  | reduce r' => exact .reduceReduce
  | accept =>
      obtain ⟨rfl, _⟩ := hdemand.of_accept
      exact .acceptReduce

/-- If no rule but the start rule has the start symbol of the user on its right-hand side, acceptance meets with
nothing. -/
theorem existing_ne_accept (hbuild : (Builder.ofCalls calls).build = .ok g)
    (honly : ∀ r rule, g.rule? r = some rule → r ≠ 0 → g.userStart ∉ rule.rhs) (htable : ofGrammar g.toGrammar = .ok t)
    {c : Conflict} (hc : c ∈ t.conflicts) : c.existing ≠ .accept := by
  have hg := Builder.proper_of_build hbuild
  have hzero := Builder.startRule_of_build hbuild
  obtain ⟨r, _, ⟨items, hq, ⟨hr, rule, _, hmem, _⟩, _⟩, hexisting⟩ := rejects_of_mem_conflicts hg hzero htable hc
  intro haccept
  rw [haccept] at hexisting
  have hlead := ((action?_eq_accept_iff hg hzero htable).mp hexisting).1
  have hitem := hg.eq_completed_start_of_mem (fits_of_ofGrammar hg htable).automaton (hzero ▸ honly) hlead hq hmem
  exact hr ((congrArg Item.rule hitem).trans hzero)

end ParseTable

/-- A grammar that is described by a text has a table. The conflicts of it are shift-reduce conflicts,
reduce-reduce conflicts and, at the end of the input, those in which acceptance is kept against a reduction. If there
are any, each is complained about, then the numbers of the first two kinds are given, and the number of all of them is
in the error. It is the sum of these two and the number of the conflicts with acceptance, and so the sum of the two if
the start symbol stands on no right-hand side that the user has given. -/
theorem conflict_summary {source : String} {g : AugmentedGrammar}
    (hsource : AugmentedGrammar.ofDescription source = .ok g) : ∃ t, ParseTable.ofGrammar g.toGrammar = .ok t ∧
      (∀ c ∈ t.conflicts, c.kind = .shiftReduce ∨ c.kind = .reduceReduce ∨
        c.kind = .other ∧ c.existing = .accept ∧ c.symbol = g.endSymbol ∧ ∃ r, c.rejected = .reduce r) ∧
      ∃ shiftReduce reduceReduce,
        (¬ t.isConflictFree → Command.reportConflicts g.toGrammar t =
          { effects := (t.conflicts.toList.map fun c => .complain (c.describe g.toGrammar ++ "\n")) ++
              [.complain (s!"{shiftReduce} shift-reduce, {reduceReduce} reduce-reduce" ++ "\n")]
            error? := some (.conflicts t.conflicts.size) }) ∧
        shiftReduce = Report.conflictCount t .shiftReduce ∧ reduceReduce = Report.conflictCount t .reduceReduce ∧
        shiftReduce + reduceReduce + t.conflicts.toList.countP (·.existing == .accept) = t.conflicts.size ∧
        ((∀ r rule, g.rule? r = some rule → r ≠ 0 → g.userStart ∉ rule.rhs) →
          shiftReduce + reduceReduce = t.conflicts.size) := by
  obtain ⟨calls, hbuild⟩ := AugmentedGrammar.exists_calls_of_ofDescription hsource
  obtain ⟨t, htable, _⟩ := ParseTable.exists_table (Builder.proper_of_build hbuild)
  have hshape : ∀ c ∈ t.conflicts, c.Shape g.endSymbol := fun c => ParseTable.shape_of_mem_conflicts hbuild htable
  have hsum := Conflict.countP_add_countP fun c hc => hshape c (Array.mem_toList_iff.mp hc)
  refine ⟨t, htable, fun c hc => (hshape c hc).kind, _, _, fun hconflicts => ?_, rfl, rfl, hsum, fun honly => ?_⟩
  · rw [Command.reportConflicts, if_neg hconflicts, Report.conflictSummary, List.map_append, List.map_map]
    rfl
  · have hnone : t.conflicts.toList.countP (·.existing == .accept) = 0 := by
      refine List.countP_eq_zero.mpr fun c hc haccept => ?_
      exact ParseTable.existing_ne_accept hbuild honly htable (Array.mem_toList_iff.mp hc) (beq_iff_eq.mp haccept)
    rwa [hnone, Nat.add_zero] at hsum

/-- Of five conflicts, three are with a shift and one is with another reduction, so one is with acceptance. -/
theorem conflict_summary_ambiguous : AugmentedGrammar.ofDescription "s -> s s | s | x" = .ok ambiguous ∧
    ∃ t, ParseTable.ofGrammar ambiguous.toGrammar = .ok t ∧ t.conflicts.size = 5 ∧
      (Command.reportConflicts ambiguous.toGrammar t).effects.getLast? =
        some (.complain "3 shift-reduce, 1 reduce-reduce\n") ∧
      t.conflicts.toList.countP (·.existing == .accept) = 1 := by
  have hsource : AugmentedGrammar.ofDescription "s -> s s | s | x" = .ok ambiguous := by cbv
  have hrun : (ParseTable.ofGrammar ambiguous.toGrammar).toOption.map (fun t => (t.isConflictFree, t.conflicts.size,
      Report.conflictCount t .shiftReduce, Report.conflictCount t .reduceReduce)) = some (false, 5, 3, 1) := by cbv
  obtain ⟨t, htable, _, shiftReduce, reduceReduce, hreport, hshift, hreduce, hsum, _⟩ := conflict_summary hsource
  rw [htable] at hrun
  simp only [Except.toOption, Option.map_some, Option.some.injEq, Prod.mk.injEq] at hrun
  obtain ⟨hfree, hsize, hshift', hreduce'⟩ := hrun
  obtain rfl := hshift.trans hshift'
  obtain rfl := hreduce.trans hreduce'
  refine ⟨hsource, t, htable, hsize, ?_, by omega⟩
  rw [hreport (by rw [hfree]; decide), List.getLast?_append]
  rfl

/-- A symbol that stands for itself or for a terminal. -/
def cyclic : AugmentedGrammar := .ofRules #["$end", "s", "x"] #[⟨1, [1]⟩, ⟨1, [2]⟩] 1

/-- Both numbers are zero where acceptance meets with a reduction, although there is a conflict. -/
theorem conflictCount_cyclic : ∃ g t, AugmentedGrammar.ofDescription "s -> s | x" = .ok g ∧
    ParseTable.ofGrammar g.toGrammar = .ok t ∧ ¬ t.isConflictFree ∧
      Command.reportConflicts g.toGrammar t =
        { effects := [.complain "Action conflict in state 1 on `$end`: keeping acc, rejecting r1\n",
            .complain "0 shift-reduce, 0 reduce-reduce\n"]
          error? := some (.conflicts 1) } ∧
      Report.conflictCount t .shiftReduce + Report.conflictCount t .reduceReduce ≠ t.conflicts.size := by
  have hsource : AugmentedGrammar.ofDescription "s -> s | x" = .ok cyclic := by cbv
  have hrun : (ParseTable.ofGrammar cyclic.toGrammar).toOption.map (fun t => (t.conflicts.size,
      Report.conflictCount t .shiftReduce + Report.conflictCount t .reduceReduce,
      Command.reportConflicts cyclic.toGrammar t)) = some (1, 0,
        { effects := [.complain "Action conflict in state 1 on `$end`: keeping acc, rejecting r1\n",
            .complain "0 shift-reduce, 0 reduce-reduce\n"]
          error? := some (.conflicts 1) }) := by cbv
  obtain ⟨calls, hbuild⟩ := AugmentedGrammar.exists_calls_of_ofDescription hsource
  obtain ⟨t, htable, _⟩ := ParseTable.exists_table (Builder.proper_of_build hbuild)
  rw [htable] at hrun
  simp only [Except.toOption, Option.map_some, Option.some.injEq, Prod.mk.injEq] at hrun
  obtain ⟨hsize, hcount, hreport⟩ := hrun
  refine ⟨cyclic, t, hsource, htable, ?_, hreport, by omega⟩
  intro hfree
  rw [Array.isEmpty_iff.mp hfree] at hsize
  cases hsize

end ShiftReduce
