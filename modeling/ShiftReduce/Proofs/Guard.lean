import Mathlib.Data.List.Nodup
import Mathlib.Data.List.Perm.Subperm
import ShiftReduce.Proofs.Machine

/-! The guard is exact: it breaks a run off only if the machine would reduce forever. Between two
shifts the states above the lowest point of the stack are climbed to by reductions that never touch
what is below. If the same states stand there twice, the machine has come back to where it was. If
there are more of them than the automaton has states, one state occurs twice, and the climb from its
lower place to its upper place can be repeated on top of itself without end. -/

namespace ShiftReduce

variable {g : Grammar} {t : ParseTable} {input : TokenStream}

/-! ### Reductions of stacks -/

/-- While the input is as given, one reduction makes the second stack of the first. -/
def Reduces (g : Grammar) (t : ParseTable) (input : TokenStream) (s s' : List StateId) : Prop :=
  ∃ r popped target, (Configuration.mk s input []).turn g t = .move (.reduce r popped target) ∧
    s' = target :: s.drop popped

def ReducesIn (g : Grammar) (t : ParseTable) (input : TokenStream) : Nat → List StateId → List StateId → Prop
  | 0, s, s' => s = s'
  | n + 1, s, s' => ∃ u, Reduces g t input s u ∧ ReducesIn g t input n u s'

theorem reduces_of_turn {c : Configuration} {r : RuleId} {popped : Nat} {target : StateId}
    (h : c.turn g t = .move (.reduce r popped target)) :
    Reduces g t c.input c.stack (target :: c.stack.drop popped) := by
  refine ⟨r, popped, target, ?_, rfl⟩
  rw [Configuration.turn_eq_reduce_iff] at h ⊢
  exact h

theorem Reduces.exists_turn {c : Configuration} {s' : List StateId}
    (h : Reduces g t c.input c.stack s') : ∃ r popped target,
      c.turn g t = .move (.reduce r popped target) ∧ s' = target :: c.stack.drop popped := by
  obtain ⟨r, popped, target, hturn, hs'⟩ := h
  refine ⟨r, popped, target, ?_, hs'⟩
  rw [Configuration.turn_eq_reduce_iff] at hturn ⊢
  exact hturn

theorem Reduces.unique {s u u' : List StateId} (h : Reduces g t input s u) (h' : Reduces g t input s u') :
    u = u' := by
  obtain ⟨r, popped, target, hturn, rfl⟩ := h
  obtain ⟨r', popped', target', hturn', rfl⟩ := h'
  rw [hturn] at hturn'
  cases hturn'
  rfl

/-- A reduction that keeps a state of the upper part of a stack does not depend on the lower part. -/
theorem turn_append_iff {s b : List StateId} {l l' : List RuleId} {r : RuleId} {popped : Nat}
    {target : StateId} (hlt : popped < s.length) :
    (Configuration.mk (s ++ b) input l).turn g t = .move (.reduce r popped target) ↔
      (Configuration.mk s input l').turn g t = .move (.reduce r popped target) := by
  have hdrop : ((s ++ b).drop popped).head? = (s.drop popped).head? := by
    rw [List.drop_append_of_le_length (Nat.le_of_lt hlt), List.head?_append_of_ne_nil]
    rw [← List.length_pos_iff, List.length_drop]
    omega
  have htop : (s ++ b).headD startState = s.headD startState := by
    cases s with
    | nil => simp at hlt
    | cons q s => rfl
  rw [Configuration.turn_eq_reduce_iff, Configuration.turn_eq_reduce_iff]
  simp only [Configuration.top, Configuration.symbol, hdrop, htop]

theorem popped_lt_of_turn {c : Configuration} {r : RuleId} {popped : Nat} {target : StateId}
    (h : c.turn g t = .move (.reduce r popped target)) : popped < c.stack.length := by
  obtain ⟨_, _, exposed, _, _, hexposed, _⟩ := Configuration.turn_eq_reduce_iff.mp h
  by_contra hle
  rw [List.drop_eq_nil_of_le (Nat.not_lt.mp hle)] at hexposed
  simp at hexposed

theorem Reduces.append {s s' : List StateId} (h : Reduces g t input s s') (b : List StateId) :
    Reduces g t input (s ++ b) (s' ++ b) := by
  obtain ⟨r, popped, target, hturn, rfl⟩ := h
  have hlt := popped_lt_of_turn hturn
  refine ⟨r, popped, target, (turn_append_iff hlt).mpr hturn, ?_⟩
  rw [List.drop_append_of_le_length (Nat.le_of_lt hlt), List.cons_append]

theorem ReducesIn.append {n : Nat} {s s' : List StateId} (h : ReducesIn g t input n s s')
    (b : List StateId) : ReducesIn g t input n (s ++ b) (s' ++ b) := by
  induction n generalizing s with
  | zero => exact congrArg (· ++ b) h
  | succ n ih =>
      obtain ⟨u, hstep, hrest⟩ := h
      exact ⟨u ++ b, hstep.append b, ih hrest⟩

theorem reducesIn_add_iff {m n : Nat} {s s' : List StateId} :
    ReducesIn g t input (m + n) s s' ↔ ∃ u, ReducesIn g t input m s u ∧ ReducesIn g t input n u s' := by
  induction m generalizing s with
  | zero => simp [ReducesIn]
  | succ m ih =>
      rw [Nat.succ_add]
      simp only [ReducesIn, ih]
      constructor
      · rintro ⟨v, hstep, u, hm, hn⟩
        exact ⟨u, ⟨v, hstep, hm⟩, hn⟩
      · rintro ⟨u, ⟨v, hstep, hm⟩, hn⟩
        exact ⟨v, hstep, u, hm, hn⟩

theorem ReducesIn.unique {n : Nat} {s u u' : List StateId} (h : ReducesIn g t input n s u)
    (h' : ReducesIn g t input n s u') : u = u' := by
  induction n generalizing s with
  | zero => exact Eq.trans (Eq.symm h) h'
  | succ n ih =>
      obtain ⟨v, hstep, hrest⟩ := h
      obtain ⟨v', hstep', hrest'⟩ := h'
      obtain rfl := hstep.unique hstep'
      exact ih hrest hrest'

theorem ReducesIn.snoc {n : Nat} {s u v : List StateId} (h : ReducesIn g t input n s u)
    (hstep : Reduces g t input u v) : ReducesIn g t input (n + 1) s v :=
  reducesIn_add_iff.mpr ⟨u, h, v, hstep, rfl⟩

/-! ### Endless reductions -/

/-- Any number of reductions can be made of a stack. -/
def Endless (g : Grammar) (t : ParseTable) (input : TokenStream) (s : List StateId) : Prop :=
  ∀ n, ∃ s', ReducesIn g t input n s s'

theorem Endless.append {s : List StateId} (h : Endless g t input s) (b : List StateId) :
    Endless g t input (s ++ b) := by
  intro n
  obtain ⟨s', hs'⟩ := h n
  exact ⟨s' ++ b, hs'.append b⟩

theorem Endless.of_reducesIn {m : Nat} {s u : List StateId} (h : Endless g t input s)
    (hu : ReducesIn g t input m s u) : Endless g t input u := by
  intro n
  obtain ⟨s', hs'⟩ := h (m + n)
  obtain ⟨u', hu', hrest⟩ := reducesIn_add_iff.mp hs'
  obtain rfl := hu.unique hu'
  exact ⟨s', hrest⟩

/-- A stack that comes back on top of something comes back again on top of more. -/
theorem endless_of_returns {n : Nat} {s w : List StateId} (h : ReducesIn g t input (n + 1) s (s ++ w)) :
    Endless g t input s := by
  have hmany : ∀ k, ∃ w', ReducesIn g t input (k * (n + 1)) s (s ++ w') := by
    intro k
    induction k with
    | zero => exact ⟨[], by rw [Nat.zero_mul, List.append_nil]; exact rfl⟩
    | succ k ih =>
        obtain ⟨w', hw'⟩ := ih
        refine ⟨w' ++ w, ?_⟩
        rw [Nat.add_mul, Nat.one_mul, Nat.add_comm, reducesIn_add_iff]
        refine ⟨s ++ w, h, ?_⟩
        have := hw'.append w
        rwa [List.append_assoc] at this
  intro k
  obtain ⟨w', hw'⟩ := hmany k
  rw [show k * (n + 1) = k + k * n by rw [Nat.mul_add, Nat.mul_one, Nat.add_comm]] at hw'
  obtain ⟨u, hu, _⟩ := reducesIn_add_iff.mp hw'
  exact ⟨u, hu⟩

theorem Endless.reducesForever {c : Configuration} (h : Endless g t c.input c.stack) :
    c.ReducesForever g t := by
  intro n
  induction n generalizing c with
  | zero =>
      obtain ⟨s', u, hstep, _⟩ := h 1
      obtain ⟨r, popped, target, hturn, _⟩ := hstep.exists_turn
      exact ⟨r, popped, target, hturn⟩
  | succ n ih =>
      obtain ⟨s', u, hstep, _⟩ := h 1
      obtain ⟨r, popped, target, hturn, rfl⟩ := hstep.exists_turn
      rw [Function.iterate_succ_apply, Configuration.next_of_move hturn]
      exact ih (h.of_reducesIn (m := 1) ⟨_, hstep, rfl⟩)

/-! ### What the guard has seen -/

/-- How the states above the lowest point of the stack came there. -/
structure Climbed (g : Grammar) (t : ParseTable) (input : TokenStream) (segment : List StateId) : Prop where
  targets : ∀ q ∈ segment, ∃ s x, t.action? s x = some (.goto q)
  /-- What stands above a state was made on top of it. -/
  made : ∀ u q v, segment = u ++ q :: v → ∃ n, ReducesIn g t input n [q] (u ++ [q])
  /-- When the upper of two states came, what was between them was made on top of the lower one. -/
  nested : ∀ u q w p v, segment = u ++ q :: (w ++ p :: v) →
    ∃ n, ReducesIn g t input (n + 1) [p] (q :: (w ++ [p]))

theorem Climbed.nil : Climbed g t input [] where
  targets := by simp
  made := by simp
  nested := by simp

theorem Climbed.reduce {segment base : List StateId} {l : List RuleId} {r : RuleId} {popped : Nat}
    {target : StateId} (h : Climbed g t input segment)
    (hturn : (Configuration.mk (segment ++ base) input l).turn g t = .move (.reduce r popped target)) :
    Climbed g t input (target :: segment.drop popped) := by
  -- A reduction that keeps `p` can be made on top of `p` alone.
  have hstep : ∀ u p v, segment.drop popped = u ++ p :: v →
      ∃ n, ReducesIn g t input (n + 1) [p] (target :: (u ++ [p])) := by
    intro u p v hdrop
    have hsegment : segment = segment.take popped ++ u ++ p :: v := by
      rw [List.append_assoc, ← hdrop, List.take_append_drop]
    have hlt : popped < segment.length := by
      by_contra hle
      rw [List.drop_eq_nil_of_le (Nat.not_lt.mp hle)] at hdrop
      simp at hdrop
    have htake : (segment.take popped).length = popped := List.length_take_of_le (Nat.le_of_lt hlt)
    obtain ⟨n, hn⟩ := h.made _ _ _ hsegment
    refine ⟨n, hn.snoc ⟨r, popped, target, ?_, ?_⟩⟩
    · rw [hsegment, show segment.take popped ++ u ++ p :: v ++ base =
        (segment.take popped ++ u ++ [p]) ++ (v ++ base) by simp] at hturn
      exact (turn_append_iff (by simp [htake])).mp hturn
    · rw [List.append_assoc, List.drop_left' htake]
  constructor
  · intro q hq
    rcases List.mem_cons.mp hq with rfl | hq
    · obtain ⟨_, rule, exposed, _, _, _, hgoto⟩ := Configuration.turn_eq_reduce_iff.mp hturn
      exact ⟨exposed, rule.lhs, hgoto⟩
    · exact h.targets q (List.mem_of_mem_drop hq)
  · intro u q v hsplit
    cases u with
    | nil => exact ⟨0, rfl⟩
    | cons top u =>
        rw [List.cons_append, List.cons.injEq] at hsplit
        obtain ⟨rfl, hdrop⟩ := hsplit
        obtain ⟨n, hn⟩ := hstep u q v hdrop
        exact ⟨n + 1, hn⟩
  · intro u q w p v hsplit
    cases u with
    | nil =>
        rw [List.nil_append, List.cons.injEq] at hsplit
        obtain ⟨rfl, hdrop⟩ := hsplit
        exact hstep w p v hdrop
    | cons top u =>
        rw [List.cons_append, List.cons.injEq] at hsplit
        refine h.nested (segment.take popped ++ u) q w p v ?_
        rw [List.append_assoc, ← hsplit.2, List.take_append_drop]

theorem exists_repeated {l : List Nat} {n : Nat} (hbound : ∀ q ∈ l, q < n) (hlt : n < l.length) :
    ∃ u q w v, l = u ++ q :: (w ++ q :: v) := by
  have hrepeated : ¬ l.Nodup := by
    intro hnodup
    have hsubset : l ⊆ List.range n := fun q hq => List.mem_range.mpr (hbound q hq)
    have hle := (hnodup.subperm hsubset).length_le
    rw [List.length_range] at hle
    omega
  rw [List.nodup_iff_sublist] at hrepeated
  push Not at hrepeated
  obtain ⟨q, hq⟩ := hrepeated
  obtain ⟨upper, lower, rfl, hupper, hlower⟩ := List.cons_sublist_iff.mp hq
  obtain ⟨u, w, rfl⟩ := List.append_of_mem hupper
  obtain ⟨w', v, rfl⟩ := List.append_of_mem (List.singleton_sublist.mp hlower)
  exact ⟨u, q, w ++ w', v, by simp⟩

/-- If more states stand above the lowest point than there are, the machine goes on for ever. -/
theorem Climbed.endless_of_lt {segment : List StateId} {limit : Nat} (h : Climbed g t input segment)
    (hbound : ∀ s x q, t.action? s x = some (.goto q) → q < limit) (hlt : limit < segment.length)
    (base : List StateId) : Endless g t input (segment ++ base) := by
  have hsmall : ∀ q ∈ segment, q < limit := by
    intro q hq
    obtain ⟨s, x, hgoto⟩ := h.targets q hq
    exact hbound s x q hgoto
  obtain ⟨u, q, w, v, hsplit⟩ := exists_repeated hsmall hlt
  obtain ⟨n, hn⟩ := h.nested u q w q v hsplit
  have hloop : Endless g t input [q] := endless_of_returns hn
  have hsplit' : segment = (u ++ q :: w) ++ q :: v := by simp [hsplit]
  obtain ⟨m, hm⟩ := h.made (u ++ q :: w) q v hsplit'
  have := (hloop.of_reducesIn hm).append (v ++ base)
  rwa [show u ++ q :: w ++ [q] ++ (v ++ base) = segment ++ base by simp [hsplit]] at this

structure Watched (g : Grammar) (t : ParseTable) (c : Configuration) (guard : Guard) : Prop where
  climbed : Climbed g t c.input guard.segment
  /-- The segment is the upper part of the stack, and from every segment that was seen above the same
  point the machine has come to the present one. -/
  returned : ∃ base, c.stack = guard.segment ++ base ∧
    ∀ s ∈ guard.seen, ∃ n, ReducesIn g t c.input n (s ++ base) c.stack

theorem Watched.fresh {c : Configuration} : Watched g t c .fresh where
  climbed := .nil
  returned := ⟨c.stack, rfl, fun _ hs => absurd hs Numbering.not_mem_empty⟩

/-- The segments that stood above the lowest point before a reduction, as far as it is the same after it. -/
def Guard.kept (guard : Guard) (popped : Nat) : Numbering (List StateId) :=
  if guard.segment.length < popped then .empty else guard.seen

theorem Guard.after?_reduce {guard : Guard} {limit : Nat} {r : RuleId} {popped : Nat} {target : StateId} :
    guard.after? limit (.reduce r popped target) =
      if limit < (target :: guard.segment.drop popped).length ∨
          target :: guard.segment.drop popped ∈ guard.kept popped then none
      else some ⟨target :: guard.segment.drop popped,
        (guard.kept popped).add (target :: guard.segment.drop popped)⟩ := rfl

theorem Watched.climbed_reduce {c : Configuration} {guard : Guard} {r : RuleId} {popped : Nat}
    {target : StateId} (h : Watched g t c guard) (hturn : c.turn g t = .move (.reduce r popped target)) :
    Climbed g t c.input (target :: guard.segment.drop popped) := by
  obtain ⟨base, hstack, _⟩ := h.returned
  have hturn' : (Configuration.mk (guard.segment ++ base) c.input c.reductions).turn g t =
      .move (.reduce r popped target) := by
    rw [← hstack]
    exact hturn
  exact h.climbed.reduce hturn'

/-- After a reduction the new segment is the upper part of the stack again, and it took at least this
reduction to come there from the segments that were seen above the same point. -/
theorem Watched.reduce {c : Configuration} {guard : Guard} {r : RuleId} {popped : Nat} {target : StateId}
    (h : Watched g t c guard) (hturn : c.turn g t = .move (.reduce r popped target)) :
    ∃ base, target :: c.stack.drop popped = target :: guard.segment.drop popped ++ base ∧
      ∀ s ∈ guard.kept popped, ∃ n,
        ReducesIn g t c.input (n + 1) (s ++ base) (target :: c.stack.drop popped) := by
  obtain ⟨base, hstack, hseen⟩ := h.returned
  by_cases hlow : guard.segment.length < popped
  · refine ⟨c.stack.drop popped, ?_, ?_⟩
    · rw [List.drop_eq_nil_of_le (Nat.le_of_lt hlow)]
      rfl
    · intro s hs
      rw [Guard.kept, if_pos hlow] at hs
      exact absurd hs Numbering.not_mem_empty
  · refine ⟨base, ?_, ?_⟩
    · rw [hstack, List.drop_append_of_le_length (Nat.not_lt.mp hlow), List.cons_append]
    · intro s hs
      rw [Guard.kept, if_neg hlow] at hs
      obtain ⟨n, hn⟩ := hseen s hs
      exact ⟨n, hn.snoc (reduces_of_turn hturn)⟩

theorem Watched.step {r next : Round} (h : Watched g t r.config r.guard) (hstep : r.Steps g t next) :
    Watched g t next.config next.guard := by
  obtain ⟨m, hturn, hguard, hconfig⟩ := Round.step_eq_inl_iff.mp hstep
  rw [hconfig]
  cases m with
  | shift target =>
      rw [← Option.some.inj hguard]
      exact .fresh
  | reduce rule popped target =>
      obtain ⟨base, hstack, hkept⟩ := h.reduce hturn
      rw [Guard.after?_reduce] at hguard
      split at hguard
      · cases hguard
      · rw [← Option.some.inj hguard]
        refine ⟨h.climbed_reduce hturn, base, hstack, ?_⟩
        intro s hs
        rcases Numbering.mem_add.mp hs with hs | rfl
        · obtain ⟨n, hn⟩ := hkept s hs
          exact ⟨n + 1, hn⟩
        · exact ⟨0, hstack.symm⟩

theorem Watched.of_reaches {r : Round} (h : (Round.ofInput input).Reaches g t r) :
    Watched g t r.config r.guard := by
  induction h with
  | refl => exact .fresh
  | tail _ hstep ih => exact ih.step hstep

/-- Where the guard breaks a run off, any number of reductions can follow. -/
theorem Watched.endless_of_stuck {r : Round} {m : Move} (h : Watched g t r.config r.guard)
    (hbound : ∀ s x q, t.action? s x = some (.goto q) → q < t.automaton.size) (hstuck : r.Stuck g t m) :
    Endless g t (r.config.apply m).input (r.config.apply m).stack := by
  obtain ⟨hturn, hguard⟩ := hstuck
  cases m with
  | shift target => cases hguard
  | reduce rule popped target =>
      obtain ⟨base, hstack, hkept⟩ := h.reduce hturn
      change Endless g t r.config.input (target :: r.config.stack.drop popped)
      rw [Guard.after?_reduce] at hguard
      split at hguard
      · rename_i hfault
        rcases hfault with hlong | hmem
        · rw [hstack]
          exact (h.climbed_reduce hturn).endless_of_lt hbound hlong base
        · obtain ⟨n, hn⟩ := hkept _ hmem
          rw [← hstack] at hn
          exact endless_of_returns (w := []) (by rwa [List.append_nil])
      · cases hguard

theorem Watched.reducesForever_of_stuck {r : Round} {m : Move} (h : Watched g t r.config r.guard)
    (hbound : ∀ s x q, t.action? s x = some (.goto q) → q < t.automaton.size) (hstuck : r.Stuck g t m) :
    (r.config.apply m).ReducesForever g t :=
  (h.endless_of_stuck hbound hstuck).reducesForever

/-- A machine that halts without the guard halts in the same way with it. -/
theorem halts_of_config_halts {r : Round} {v : Verdict}
    (hbound : ∀ s x q, t.action? s x = some (.goto q) → q < t.automaton.size)
    (hwatched : Watched g t r.config r.guard) (h : r.config.Halts g t v) : r.Halts g t v := by
  obtain ⟨n, hn⟩ := h
  induction n generalizing r with
  | zero => exact ⟨r, .refl, Round.step_of_halt hn⟩
  | succ n ih =>
      rw [Function.iterate_succ_apply] at hn
      cases hturn : r.config.turn g t with
      | halt w =>
          rw [Configuration.next_of_halt hturn, Configuration.iterate_next_of_halt hturn, hturn] at hn
          cases hn
          exact ⟨r, .refl, Round.step_of_halt hturn⟩
      | move m =>
          rw [Configuration.next_of_move hturn] at hn
          cases hguard : r.guard.after? t.automaton.size m with
          | none => exact absurd ⟨n, hn⟩ ((hwatched.reducesForever_of_stuck hbound ⟨hturn, hguard⟩).not_halts v)
          | some guard =>
              have hstep := Round.step_of_move hturn hguard
              exact .of_step hstep (ih (hwatched.step hstep) hn)

/-- The guard is exact. If every shift and goto leads to a state of the automaton, the guard breaks a
run off only where the machine alone would reduce forever, and what the machine alone comes to on an
input, it comes to with the guard. -/
theorem guard_exact (g : Grammar) (t : ParseTable)
    (hbound : ∀ s x q, t.action? s x = some (.shift q) ∨ t.action? s x = some (.goto q) → q < t.automaton.size)
    (input : TokenStream) :
    (∀ r m, (Round.ofInput input).Reaches g t r → r.Stuck g t m → (r.config.apply m).ReducesForever g t) ∧
      ∀ v, (Configuration.ofInput input).Halts g t v → recognize g t input = v := by
  have hgoto : ∀ s x q, t.action? s x = some (.goto q) → q < t.automaton.size :=
    fun s x q h => hbound s x q (Or.inr h)
  constructor
  · intro r m hreach hstuck
    exact (Watched.of_reaches hreach).reducesForever_of_stuck hgoto hstuck
  · intro v hhalts
    exact recognize_of_halts (halts_of_config_halts hgoto .fresh hhalts)

/-! ### A machine that reduces forever -/

def unitCycle : Grammar where
  labels := #["$end", "a"]
  rules := #[⟨1, []⟩, ⟨1, [1]⟩]
  startRule := 0
  startSymbol := 1
  endSymbol := 0
  isTerminal := (· == 0)
  follow? := fun _ => none

/-- A table for it that goes round the cycle at the end of the input, after it has passed over what
stands before. -/
def unitCycleTable : ParseTable where
  automaton := ⟨.empty, #[∅, ∅]⟩
  actions := ⟨#[[(0, .reduce 0), (1, .goto 1), (2, .shift 0)], [(0, .reduce 1)]]⟩
  conflicts := #[]

/-- After the epsilon rule, the rule to itself leads back to the same stack. -/
def unitCycleRound : Round := ⟨⟨[1, 0, 0], ⟨[], ⟨0, 1, 1⟩⟩, [0]⟩, ⟨[1], Numbering.empty.add [1]⟩⟩

theorem guard_exact_unitCycle :
    (∀ s x q, unitCycleTable.action? s x = some (.shift q) ∨ unitCycleTable.action? s x = some (.goto q) →
        q < unitCycleTable.automaton.size) ∧
      (Round.ofInput (.ofSymbols [2] 0)).Reaches unitCycle unitCycleTable unitCycleRound ∧
      unitCycleRound.Stuck unitCycle unitCycleTable (.reduce 1 1 1) ∧
      (unitCycleRound.config.apply (.reduce 1 1 1)).ReducesForever unitCycle unitCycleTable := by
  have hbound : ∀ s x q, unitCycleTable.action? s x = some (.shift q) ∨
      unitCycleTable.action? s x = some (.goto q) → q < unitCycleTable.automaton.size := by
    intro s x q h
    have hsmall : ∀ e ∈ unitCycleTable.actions.rows.toList.flatten, e.2.target < unitCycleTable.automaton.size := by
      decide
    rcases h with h | h <;> exact hsmall _ (mem_rows_of_action? h)
  have hshift : (Round.ofInput (.ofSymbols [2] 0)).step unitCycle unitCycleTable =
      .inl ⟨⟨[0, 0], ⟨[], ⟨0, 1, 1⟩⟩, []⟩, .fresh⟩ := rfl
  have hepsilon : Round.step unitCycle unitCycleTable ⟨⟨[0, 0], ⟨[], ⟨0, 1, 1⟩⟩, []⟩, .fresh⟩ =
      .inl unitCycleRound := rfl
  have hreach : (Round.ofInput (.ofSymbols [2] 0)).Reaches unitCycle unitCycleTable unitCycleRound :=
    .head hshift (.single hepsilon)
  have hstuck : unitCycleRound.Stuck unitCycle unitCycleTable (.reduce 1 1 1) := ⟨rfl, rfl⟩
  exact ⟨hbound, hreach, hstuck, (guard_exact unitCycle unitCycleTable hbound _).1 _ _ hreach hstuck⟩

end ShiftReduce
