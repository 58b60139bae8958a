import Mathlib.Computability.TuringMachine.StackTuringMachine
import Mathlib.Data.List.TakeWhile
import Mathlib.Logic.Function.Iterate
import Mathlib.Logic.Relation
import ShiftReduce.Recognizer.Run

-- `cbv` takes tokens off by the equations of `List.tail` in `StackTuringMachine`.

/-! The machine with and without the guard. Without it, a turn is a function of the machine alone, so
a run can be continued for any number of turns. A reduction sees the stack only as far down as the
state that it exposes; what lies below may be exchanged. -/

namespace ShiftReduce

variable {g : Grammar} {t : ParseTable}

theorem mem_rows_of_action? {s : StateId} {x : Symbol} {a : Action} (h : t.action? s x = some a) :
    (x, a) ∈ t.actions.rows.toList.flatten := by
  obtain ⟨row, hrow, hlookup⟩ := Option.bind_eq_some_iff.mp h
  obtain ⟨before, after, hsplit, _⟩ := List.lookup_eq_some_iff.mp hlookup
  have hmem : row ∈ t.actions.rows.toList := Array.mem_toList_iff.mpr (Array.mem_of_getElem? hrow)
  refine List.mem_flatten.mpr ⟨row, hmem, ?_⟩
  rw [hsplit]
  simp

theorem loop_eq_some_iff {α β : Type} {step : α → α ⊕ β} {a : α} {b : β} : loop step a = some b ↔
    ∃ last, Relation.ReflTransGen (fun a next => step a = .inl next) a last ∧ step last = .inr b := by
  constructor
  · refine loop.partial_correctness step (fun a b => ∃ last,
      Relation.ReflTransGen (fun a next => step a = .inl next) a last ∧ step last = .inr b) ?_ a b
    intro later ih a b hb
    cases hstep : step a with
    | inl next =>
        rw [hstep] at hb
        obtain ⟨last, hreach, hlast⟩ := ih next b hb
        exact ⟨last, .head hstep hreach, hlast⟩
    | inr b' =>
        rw [hstep] at hb
        obtain rfl := Option.some.inj hb
        exact ⟨a, .refl, hstep⟩
  · rintro ⟨last, hreach, hlast⟩
    induction hreach using Relation.ReflTransGen.head_induction_on with
    | refl => rw [loop, hlast]
    | head hstep _ ih =>
        rw [loop, hstep]
        exact ih

namespace TokenStream

/-- The symbols before the end of the input. -/
def rest (s : TokenStream) : List Symbol := (s.tokens.map (·.symbol)).takeWhile (· ≠ s.last.symbol)

theorem rest_ofSymbols (l : List Symbol) (e : Symbol) : (ofSymbols l e).rest = l.takeWhile (· ≠ e) := by
  have hsymbols : (ofSymbols l e).tokens.map (·.symbol) = l := by
    rw [ofSymbols, List.map_map]
    exact (List.map_congr_left fun _ _ => rfl).trans (List.zipIdx_map_fst 0 l)
  rw [rest, hsymbols]
  rfl

theorem rest_ofSymbols_of_not_mem {l : List Symbol} {e : Symbol} (h : e ∉ l) : (ofSymbols l e).rest = l := by
  rw [rest_ofSymbols, List.takeWhile_eq_self_iff]
  intro s hs
  exact decide_eq_true fun heq => h (heq ▸ hs)

/-- The current symbol is the next one, or the end of the input has come. -/
theorem rest_cases (s : TokenStream) : (s.rest = [] ∧ s.head.symbol = s.last.symbol) ∨
    (s.rest = s.head.symbol :: s.advance.rest ∧ s.head.symbol ≠ s.last.symbol) := by
  obtain ⟨tokens, last⟩ := s
  cases tokens with
  | nil => exact Or.inl ⟨rfl, rfl⟩
  | cons token tokens =>
      by_cases h : token.symbol = last.symbol
      · exact Or.inl ⟨List.takeWhile_cons_of_neg (by simpa using h), h⟩
      · exact Or.inr ⟨List.takeWhile_cons_of_pos (by simpa using h), h⟩

end TokenStream

namespace Configuration

/-- The machine after a turn without the guard. Where it has halted it stays as it is. -/
def next (g : Grammar) (t : ParseTable) (c : Configuration) : Configuration :=
  match c.turn g t with
  | .move m => c.apply m
  | .halt _ => c

/-- Without the guard, the machine halts with a verdict after some number of turns. -/
def Halts (g : Grammar) (t : ParseTable) (c : Configuration) (v : Verdict) : Prop :=
  ∃ n, ((next g t)^[n] c).turn g t = .halt v

/-- Without the guard, every turn from now on is a reduction. -/
def ReducesForever (g : Grammar) (t : ParseTable) (c : Configuration) : Prop :=
  ∀ n, ∃ r popped target, ((next g t)^[n] c).turn g t = .move (.reduce r popped target)

theorem reduction_cases (g : Grammar) (t : ParseTable) (c : Configuration) (r : RuleId) :
    (∃ rule exposed target, g.rule? r = some rule ∧ (c.stack.drop rule.rhs.length).head? = some exposed ∧
      t.action? exposed rule.lhs = some (.goto target) ∧
      c.reduction g t r = .move (.reduce r rule.rhs.length target)) ∨
    ∃ s x, c.reduction g t r = .halt (.error (.malformedTable s x)) := by
  unfold reduction
  cases hrule : g.rule? r with
  | none => exact Or.inr ⟨_, _, rfl⟩
  | some rule =>
      dsimp only
      cases hdrop : c.stack.drop rule.rhs.length with
      | nil => exact Or.inr ⟨_, _, rfl⟩
      | cons exposed below =>
          dsimp only
          split
          · rename_i target hgoto
            exact Or.inl ⟨rule, exposed, target, rfl, by rw [hdrop]; rfl, hgoto, rfl⟩
          · exact Or.inr ⟨_, _, rfl⟩

/-- All that can happen in a turn: a shift, a reduction, acceptance, a faulty reduction, or an
unexpected symbol. -/
theorem turn_cases (g : Grammar) (t : ParseTable) (c : Configuration) :
    (∃ target, t.action? c.top c.symbol = some (.shift target) ∧ c.turn g t = .move (.shift target)) ∨
    (∃ r rule exposed target, t.action? c.top c.symbol = some (.reduce r) ∧ g.rule? r = some rule ∧
      (c.stack.drop rule.rhs.length).head? = some exposed ∧
      t.action? exposed rule.lhs = some (.goto target) ∧
      c.turn g t = .move (.reduce r rule.rhs.length target)) ∨
    (t.action? c.top c.symbol = some .accept ∧ c.turn g t = .halt (.ok c.reductions.reverse)) ∨
    (∃ r s x, t.action? c.top c.symbol = some (.reduce r) ∧
      c.turn g t = .halt (.error (.malformedTable s x))) ∨
    c.turn g t = .halt (.error (.unexpected c.input.head c.top)) := by
  unfold turn
  cases haction : t.action? c.top c.symbol with
  | none => simp
  | some a =>
      cases a with
      | shift target => simp
      | goto target => simp
      | accept => simp
      | reduce r =>
          rcases reduction_cases g t c r with ⟨rule, exposed, target, hrule, hexposed, hgoto, h⟩ | ⟨s, x, h⟩
          · exact Or.inr (Or.inl ⟨r, rule, exposed, target, rfl, hrule, hexposed, hgoto, h⟩)
          · exact Or.inr (Or.inr (Or.inr (Or.inl ⟨r, s, x, rfl, h⟩)))

theorem turn_eq_shift_iff {c : Configuration} {target : StateId} :
    c.turn g t = .move (.shift target) ↔ t.action? c.top c.symbol = some (.shift target) := by
  constructor
  · intro h
    rcases turn_cases g t c with ⟨q, haction, hturn⟩ | ⟨r, rule, exposed, q, _, _, _, _, hturn⟩ |
      ⟨_, hturn⟩ | ⟨r, s, x, _, hturn⟩ | hturn <;> rw [hturn] at h <;> cases h
    exact haction
  · intro h
    rw [turn, h]

/-- What a reduction needs: the action on top, its rule, and a goto in the state that comes to light. -/
theorem turn_eq_reduce_iff {c : Configuration} {r : RuleId} {popped : Nat} {target : StateId} :
    c.turn g t = .move (.reduce r popped target) ↔
      t.action? c.top c.symbol = some (.reduce r) ∧ ∃ rule exposed, g.rule? r = some rule ∧
        rule.rhs.length = popped ∧ (c.stack.drop popped).head? = some exposed ∧
        t.action? exposed rule.lhs = some (.goto target) := by
  constructor
  · intro h
    rcases turn_cases g t c with ⟨q, _, hturn⟩ | ⟨r, rule, exposed, q, haction, hrule, hexposed, hgoto, hturn⟩ |
      ⟨_, hturn⟩ | ⟨r, s, x, _, hturn⟩ | hturn <;> rw [hturn] at h <;> cases h
    exact ⟨haction, rule, exposed, hrule, rfl, hexposed, hgoto⟩
  · rintro ⟨haction, rule, exposed, hrule, rfl, hexposed, hgoto⟩
    obtain ⟨below, hdrop⟩ := List.head?_eq_some_iff.mp hexposed
    simp only [turn, haction, reduction, hrule, hdrop, hgoto]

theorem turn_eq_accept_iff {c : Configuration} {l : List RuleId} :
    c.turn g t = .halt (.ok l) ↔ t.action? c.top c.symbol = some .accept ∧ c.reductions.reverse = l := by
  constructor
  · intro h
    rcases turn_cases g t c with ⟨q, _, hturn⟩ | ⟨r, rule, exposed, q, _, _, _, _, hturn⟩ |
      ⟨haction, hturn⟩ | ⟨r, s, x, _, hturn⟩ | hturn <;> rw [hturn] at h <;> cases h
    exact ⟨haction, rfl⟩
  · rintro ⟨haction, rfl⟩
    rw [turn, haction]

theorem next_of_move {c : Configuration} {m : Move} (h : c.turn g t = .move m) : c.next g t = c.apply m := by
  rw [next, h]

theorem next_of_halt {c : Configuration} {v : Verdict} (h : c.turn g t = .halt v) : c.next g t = c := by
  rw [next, h]

theorem iterate_next_of_halt {c : Configuration} {v : Verdict} (h : c.turn g t = .halt v) (n : Nat) :
    (next g t)^[n] c = c :=
  Function.iterate_fixed (next_of_halt h) n

theorem Halts.of_next {c : Configuration} {v : Verdict} (h : (c.next g t).Halts g t v) : c.Halts g t v := by
  obtain ⟨n, hn⟩ := h
  exact ⟨n + 1, hn⟩

theorem Halts.of_move {c : Configuration} {m : Move} {v : Verdict} (hm : c.turn g t = .move m)
    (h : (c.apply m).Halts g t v) : c.Halts g t v :=
  .of_next (by rwa [next_of_move hm])

theorem Halts.of_halt {c : Configuration} {v : Verdict} (h : c.turn g t = .halt v) : c.Halts g t v :=
  ⟨0, h⟩

theorem ReducesForever.not_halts {c : Configuration} (h : c.ReducesForever g t) (v : Verdict) :
    ¬ c.Halts g t v := by
  rintro ⟨n, hn⟩
  obtain ⟨r, popped, target, hr⟩ := h n
  rw [hr] at hn
  cases hn

end Configuration

/-! ### Guarded runs -/

namespace Round

def Steps (g : Grammar) (t : ParseTable) (r next : Round) : Prop := r.step g t = .inl next

def Reaches (g : Grammar) (t : ParseTable) : Round → Round → Prop := Relation.ReflTransGen (Steps g t)

/-- The guarded run halts with a verdict after finitely many turns. -/
def Halts (g : Grammar) (t : ParseTable) (r : Round) (v : Verdict) : Prop :=
  ∃ last, r.Reaches g t last ∧ last.step g t = .inr v

/-- The guard breaks the run off at a move. -/
def Stuck (g : Grammar) (t : ParseTable) (r : Round) (m : Move) : Prop :=
  r.config.turn g t = .move m ∧ r.guard.after? t.automaton.size m = none

theorem Halts.of_step {r next : Round} {v : Verdict} (hstep : r.step g t = .inl next)
    (h : next.Halts g t v) : r.Halts g t v := by
  obtain ⟨last, hreach, hlast⟩ := h
  exact ⟨last, .head hstep hreach, hlast⟩

theorem verdict?_eq_some_iff {r : Round} {v : Verdict} : r.verdict? g t = some v ↔ r.Halts g t v :=
  loop_eq_some_iff

theorem step_of_halt {r : Round} {v : Verdict} (h : r.config.turn g t = .halt v) : r.step g t = .inr v := by
  rw [step, h]

theorem step_of_move {r : Round} {m : Move} {guard : Guard} (hm : r.config.turn g t = .move m)
    (hguard : r.guard.after? t.automaton.size m = some guard) :
    r.step g t = .inl ⟨r.config.apply m, guard⟩ := by
  rw [step, hm]
  simp only [hguard]

theorem step_eq_inl_iff {r next : Round} :
    r.step g t = .inl next ↔ ∃ m, r.config.turn g t = .move m ∧
      r.guard.after? t.automaton.size m = some next.guard ∧ next.config = r.config.apply m := by
  constructor
  · intro h
    unfold step at h
    split at h
    · simp at h
    · rename_i m hm
      split at h
      · rename_i guard hguard
        obtain rfl := Sum.inl.inj h
        exact ⟨m, hm, hguard, rfl⟩
      · simp at h
  · rintro ⟨m, hm, hguard, hconfig⟩
    rw [step_of_move hm hguard, ← hconfig]

/-- A run ends where the machine halts, or where the guard breaks it off. -/
theorem step_eq_inr_iff {r : Round} {v : Verdict} : r.step g t = .inr v ↔ r.config.turn g t = .halt v ∨
    ∃ m, r.Stuck g t m ∧ v = .error (.malformedTable r.config.top r.config.symbol) := by
  unfold step Stuck
  cases r.config.turn g t with
  | halt w => simp
  | move m =>
      cases hguard : r.guard.after? t.automaton.size m with
      | some guard => simp [hguard]
      | none => simp [hguard, eq_comm]

/-- A verdict that the guard does not give is one to which the machine has come. -/
theorem turn_of_step {r : Round} {v : Verdict} (h : r.step g t = .inr v)
    (hv : ∀ s x, v ≠ .error (.malformedTable s x)) : r.config.turn g t = .halt v := by
  rcases step_eq_inr_iff.mp h with hturn | ⟨_, _, rfl⟩
  · exact hturn
  · exact absurd rfl (hv _ _)

end Round

theorem recognize_of_halts {input : TokenStream} {v : Verdict}
    (h : (Round.ofInput input).Halts g t v) : recognize g t input = v := by
  rw [recognize, Round.verdict?_eq_some_iff.mpr h, Option.getD_some]

theorem halts_of_recognize {input : TokenStream} {v : Verdict} (h : recognize g t input = v)
    (hv : v ≠ .error .endless) : (Round.ofInput input).Halts g t v := by
  rw [← Round.verdict?_eq_some_iff]
  unfold recognize at h
  cases hverdict : (Round.ofInput input).verdict? g t with
  | none =>
      rw [hverdict, Option.getD_none] at h
      exact absurd h.symm hv
  | some w =>
      rw [hverdict, Option.getD_some] at h
      rw [h]

theorem halts_of_recognize_eq_ok {input : TokenStream} {l : List RuleId}
    (h : recognize g t input = .ok l) : (Round.ofInput input).Halts g t (.ok l) :=
  halts_of_recognize h (by simp)

theorem Round.step_ne_endless (r : Round) : r.step g t ≠ .inr (.error .endless) := by
  intro h
  rcases step_eq_inr_iff.mp h with hhalt | ⟨m, _, hv⟩
  · rcases Configuration.turn_cases g t r.config with ⟨q, _, hturn⟩ | ⟨r', rule, exposed, q, _, _, _, _, hturn⟩ |
      ⟨_, hturn⟩ | ⟨l, s, x, _, hturn⟩ | hturn <;> rw [hturn] at hhalt <;> cases hhalt
  · cases hv

/-- A run counts as endless if and only if it never halts. -/
theorem recognize_eq_endless_iff {input : TokenStream} :
    recognize g t input = .error .endless ↔ ∀ v, ¬ (Round.ofInput input).Halts g t v := by
  constructor
  · intro h v hhalts
    obtain rfl := (recognize_of_halts hhalts).symm.trans h
    obtain ⟨last, _, hlast⟩ := hhalts
    exact last.step_ne_endless hlast
  · intro h
    have hnone : (Round.ofInput input).verdict? g t = none :=
      Option.eq_none_iff_forall_ne_some.mpr fun v hv => h v (Round.verdict?_eq_some_iff.mp hv)
    rw [recognize, hnone, Option.getD_none]

end ShiftReduce
