import ShiftReduce.Proofs.Guard
import ShiftReduce.Proofs.Table

/-! Every guarded run halts, whatever the grammar and the table, as long as the table does not shift
the end of the input. Tokens are used up by shifts. Between two shifts the lowest point of the stack
can only go down, and above one point the guard lets no segment pass twice. A segment is a list of
targets of gotos and not longer than there are states, so it comes from a finite pool. -/

namespace ShiftReduce

variable {g : Grammar} {t : ParseTable}

/-! ### The pool of segments -/

def ParseTable.targets (t : ParseTable) : List StateId :=
  t.actions.rows.toList.flatten.map (·.2.target)

theorem mem_targets_of_goto {s q : StateId} {x : Symbol} (h : t.action? s x = some (.goto q)) :
    q ∈ t.targets :=
  List.mem_map.mpr ⟨(x, .goto q), mem_rows_of_action? h, rfl⟩

/-- The lists of at most `n` of the given states. -/
def segments (states : List StateId) : Nat → List (List StateId)
  | 0 => [[]]
  | n + 1 => [] :: (segments states n).flatMap fun l => states.map (· :: l)

theorem mem_segments {states l : List StateId} {n : Nat} (hall : ∀ q ∈ l, q ∈ states)
    (hle : l.length ≤ n) : l ∈ segments states n := by
  induction n generalizing l with
  | zero =>
      rw [List.length_eq_zero_iff.mp (Nat.le_zero.mp hle)]
      exact List.mem_singleton_self _
  | succ n ih =>
      cases l with
      | nil => exact List.mem_cons_self
      | cons q l =>
          have hl : l ∈ segments states n :=
            ih (fun p hp => hall p (List.mem_cons_of_mem q hp)) (Nat.le_of_succ_le_succ hle)
          have hq : q ∈ states := hall q List.mem_cons_self
          exact List.mem_cons_of_mem _ (List.mem_flatMap.mpr ⟨l, hl, List.mem_map.mpr ⟨q, hq, rfl⟩⟩)

/-! ### The measure -/

namespace Round

/-- What goes down in each turn: first the number of tokens, then the height of the lowest point of the
stack, then the number of segments of a pool that have not been seen above that point. -/
def measure (pool : List (List StateId)) (r : Round) : Nat × Nat × Nat :=
  (r.config.input.tokens.length, r.config.stack.length - r.guard.segment.length,
    Search.unseen pool r.guard.seen)

abbrev Below : Nat × Nat × Nat → Nat × Nat × Nat → Prop := Prod.Lex (· < ·) (Prod.Lex (· < ·) (· < ·))

theorem below_wf : WellFounded Below :=
  (Prod.lex Nat.lt_wfRel (Prod.lex Nat.lt_wfRel Nat.lt_wfRel)).wf

/-- A shift uses up a token, since the end of the input is not shifted. -/
theorem measure_shift_lt {pool : List (List StateId)} {r next : Round} {target : StateId}
    (hend : ∀ s q, t.action? s r.config.input.last.symbol ≠ some (.shift q))
    (hturn : r.config.turn g t = .move (.shift target))
    (hconfig : next.config = r.config.apply (.shift target)) :
    Below (next.measure pool) (r.measure pool) := by
  apply Prod.Lex.left
  rw [hconfig]
  change r.config.input.tokens.tail.length < r.config.input.tokens.length
  cases htokens : r.config.input.tokens with
  | nil =>
      have haction := Configuration.turn_eq_shift_iff.mp hturn
      have hsymbol : r.config.symbol = r.config.input.last.symbol := by
        rw [Configuration.symbol, TokenStream.head, htokens, List.headD_nil]
      rw [hsymbol] at haction
      exact absurd haction (hend _ _)
  | cons token rest => simp

/-- A reduction lowers the lowest point, or shows a segment that has not stood above it before. -/
theorem measure_reduce_lt {r next : Round} {rule : RuleId} {popped : Nat} {target : StateId}
    (hwatched : Watched g t r.config r.guard)
    (hturn : r.config.turn g t = .move (.reduce rule popped target))
    (hguard : r.guard.after? t.automaton.size (.reduce rule popped target) = some next.guard)
    (hconfig : next.config = r.config.apply (.reduce rule popped target)) :
    Below (next.measure (segments t.targets t.automaton.size))
      (r.measure (segments t.targets t.automaton.size)) := by
  have hpopped := popped_lt_of_turn hturn
  have hclimbed := hwatched.climbed_reduce hturn
  rw [Guard.after?_reduce] at hguard
  split at hguard
  · cases hguard
  · rename_i hnew
    rw [not_or, Nat.not_lt] at hnew
    have hnext := Option.some.inj hguard
    unfold measure
    rw [hconfig, ← hnext]
    apply Prod.Lex.right
    by_cases hlow : r.guard.segment.length < popped
    · apply Prod.Lex.left
      simp only [Configuration.apply, List.length_cons, List.length_drop]
      omega
    · have hfloor : (target :: r.config.stack.drop popped).length - (target :: r.guard.segment.drop popped).length
          = r.config.stack.length - r.guard.segment.length := by
        simp only [List.length_cons, List.length_drop]
        omega
      have hmem : target :: r.guard.segment.drop popped ∈ segments t.targets t.automaton.size := by
        refine mem_segments ?_ hnew.1
        intro q hq
        obtain ⟨s, x, hgoto⟩ := hclimbed.targets q hq
        exact mem_targets_of_goto hgoto
      simp only [Configuration.apply, hfloor, Guard.kept, if_neg hlow]
      apply Prod.Lex.right
      have hfresh : target :: r.guard.segment.drop popped ∉ r.guard.seen := by
        rw [Guard.kept, if_neg hlow] at hnew
        exact hnew.2
      exact Search.unseen_foldl_add_lt (l := [target :: r.guard.segment.drop popped])
        (by simpa using hmem) List.mem_cons_self hfresh

theorem measure_lt {r next : Round} (hwatched : Watched g t r.config r.guard)
    (hend : ∀ s q, t.action? s r.config.input.last.symbol ≠ some (.shift q)) (hstep : r.Steps g t next) :
    Below (next.measure (segments t.targets t.automaton.size))
      (r.measure (segments t.targets t.automaton.size)) := by
  obtain ⟨m, hturn, hguard, hconfig⟩ := step_eq_inl_iff.mp hstep
  cases m with
  | shift target => exact measure_shift_lt hend hturn hconfig
  | reduce rule popped target => exact measure_reduce_lt hwatched hturn hguard hconfig

theorem last_eq_of_steps {r next : Round} (hstep : r.Steps g t next) :
    next.config.input.last = r.config.input.last := by
  obtain ⟨m, _, _, hconfig⟩ := step_eq_inl_iff.mp hstep
  rw [hconfig]
  cases m <;> rfl

theorem exists_halts {r : Round} (hwatched : Watched g t r.config r.guard)
    (hend : ∀ s q, t.action? s r.config.input.last.symbol ≠ some (.shift q)) : ∃ v, r.Halts g t v := by
  induction hm : r.measure (segments t.targets t.automaton.size) using below_wf.induction generalizing r with
  | _ m ih =>
      subst hm
      cases hstep : r.step g t with
      | inr v => exact ⟨v, r, .refl, hstep⟩
      | inl next =>
          have hlast := last_eq_of_steps hstep
          obtain ⟨v, hv⟩ := ih _ (measure_lt hwatched hend hstep) (hwatched.step hstep) (by rwa [hlast]) rfl
          exact ⟨v, hv.of_step hstep⟩

end Round

/-- A grammar's own table does not shift the end of the input, since no rule has it on the right. -/
theorem ParseTable.Fits.exists_halts {u : Symbol} (ht : t.Fits g) (hg : g.Proper u) (w : List Symbol) :
    ∃ v, (Round.ofInput (.ofSymbols w g.endSymbol)).Halts g t v :=
  Round.exists_halts .fresh fun _ _ haction => hg.ne_end_of_leads (ht.demands haction).of_shift.2 rfl

/-- A recognizer whose table does not shift the end of the input answers every input after finitely
many turns. The grammar and the table need not belong together, and the table may have any entries. -/
theorem recognize_terminates (g : Grammar) (t : ParseTable) (l : List Symbol) (endSymbol : Symbol)
    (hend : ∀ s q, t.action? s endSymbol ≠ some (.shift q)) :
    ∃ v, (Round.ofInput (.ofSymbols l endSymbol)).Halts g t v ∧
      recognize g t (.ofSymbols l endSymbol) = v := by
  obtain ⟨v, hv⟩ := Round.exists_halts (r := .ofInput (.ofSymbols l endSymbol)) .fresh hend
  exact ⟨v, hv, recognize_of_halts hv⟩

/-- On the cycle the guard breaks the run off, in the state where the stack has come back for the first time. -/
theorem recognize_terminates_unitCycle :
    (∀ s q, unitCycleTable.action? s 0 ≠ some (.shift q)) ∧
      (Round.ofInput (.ofSymbols [2] 0)).Halts unitCycle unitCycleTable (.error (.malformedTable 1 0)) ∧
        recognize unitCycle unitCycleTable (.ofSymbols [2] 0) = .error (.malformedTable 1 0) := by
  have hend : ∀ s q, unitCycleTable.action? s 0 ≠ some (.shift q) := by
    intro s q h
    have hnone : ∀ e ∈ unitCycleTable.actions.rows.toList.flatten, e.1 = 0 → !e.2 matches .shift _ := by
      decide
    exact absurd (hnone _ (mem_rows_of_action? h) rfl) (by simp)
  have hshift : (Round.ofInput (.ofSymbols [2] 0)).step unitCycle unitCycleTable =
      .inl ⟨⟨[0, 0], ⟨[], ⟨0, 1, 1⟩⟩, []⟩, .fresh⟩ := rfl
  have hepsilon : Round.step unitCycle unitCycleTable ⟨⟨[0, 0], ⟨[], ⟨0, 1, 1⟩⟩, []⟩, .fresh⟩ =
      .inl unitCycleRound := rfl
  have hbroken : unitCycleRound.step unitCycle unitCycleTable = .inr (.error (.malformedTable 1 0)) := rfl
  have hverdict : recognize unitCycle unitCycleTable (.ofSymbols [2] 0) = .error (.malformedTable 1 0) :=
    recognize_of_halts ⟨unitCycleRound, .head hshift (.single hepsilon), hbroken⟩
  obtain ⟨v, hv, hrecognize⟩ := recognize_terminates unitCycle unitCycleTable [2] 0 hend
  obtain rfl := hrecognize.symm.trans hverdict
  exact ⟨hend, hv, hverdict⟩

end ShiftReduce
