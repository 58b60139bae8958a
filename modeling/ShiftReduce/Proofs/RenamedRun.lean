import Mathlib.Data.List.Forall2
import ShiftReduce.Proofs.RenamedTable
import ShiftReduce.Proofs.Termination

/-! Runs over a renamed input. Two machines, each with the table of its own grammar, go through the same turns: their
stacks hold states with the same items, their inputs the same symbols under different names, and they reduce by the
same rules. The guard only asks how long its segments are and whether it has seen them before, and has the same
answer for both. So the runs end after the same turn and in the same way. -/

namespace ShiftReduce

/-! ### Renamed inputs -/

def Token.rename (π : Symbol → Symbol) (token : Token) : Token := { token with symbol := π token.symbol }

namespace TokenStream

def rename (π : Symbol → Symbol) (s : TokenStream) : TokenStream := ⟨s.tokens.map (Token.rename π), s.last.rename π⟩

variable {π : Symbol → Symbol}

theorem head_rename (s : TokenStream) : (s.rename π).head = s.head.rename π := by
  obtain ⟨tokens, last⟩ := s
  cases tokens <;> rfl

theorem advance_rename (s : TokenStream) : (s.rename π).advance = s.advance.rename π := by
  obtain ⟨tokens, last⟩ := s
  cases tokens <;> rfl

theorem rename_ofSymbols (l : List Symbol) (e : Symbol) : (ofSymbols l e).rename π = ofSymbols (l.map π) (π e) := by
  simp only [rename, ofSymbols, List.zipIdx_map, List.map_map, List.length_map]
  rfl

/-- The symbols of a stream, its end included, are below a bound. -/
def Below (s : TokenStream) (bound : Nat) : Prop := ∀ token ∈ s.last :: s.tokens, token.symbol < bound

theorem Below.head {s : TokenStream} {bound : Nat} (h : s.Below bound) : s.head.symbol < bound := by
  obtain ⟨tokens, last⟩ := s
  cases tokens with
  | nil => exact h last List.mem_cons_self
  | cons token tokens => exact h token (List.mem_cons_of_mem _ List.mem_cons_self)

theorem Below.advance {s : TokenStream} {bound : Nat} (h : s.Below bound) : s.advance.Below bound := by
  obtain ⟨hlast, htokens⟩ := List.forall_mem_cons.mp h
  exact List.forall_mem_cons.mpr ⟨hlast, fun token htoken => htokens token (List.mem_of_mem_tail htoken)⟩

theorem below_ofSymbols {l : List Symbol} {e : Symbol} {bound : Nat} (hl : ∀ s ∈ l, s < bound) (he : e < bound) :
    (ofSymbols l e).Below bound := by
  refine List.forall_mem_cons.mpr ⟨he, ?_⟩
  intro token htoken
  obtain ⟨⟨s, n⟩, hs, rfl⟩ := List.mem_map.mp htoken
  exact hl s (List.fst_mem_of_mem_zipIdx hs)

end TokenStream

/-- Two verdicts agree: both accept by the same reductions, or both find the same token unexpected, or both find the
table malformed. -/
inductive Verdict.Renames (π : Symbol → Symbol) : Verdict → Verdict → Prop
  | ok (l : List RuleId) : Renames π (.ok l) (.ok l)
  | unexpected (token : Token) (q q' : StateId) :
      Renames π (.error (.unexpected token q)) (.error (.unexpected (token.rename π) q'))
  | malformedTable (q q' : StateId) (x x' : Symbol) :
      Renames π (.error (.malformedTable q x)) (.error (.malformedTable q' x'))

/-! ### Machines that go together -/

section Alike

variable {same : StateId → StateId → Prop} {π : Symbol → Symbol}

/-- The stacks hold the same states, the second input is the first one renamed, and the same reductions have been
made. -/
structure Configuration.Alike (same : StateId → StateId → Prop) (π : Symbol → Symbol) (c c' : Configuration) :
    Prop where
  stack : List.Forall₂ same c.stack c'.stack
  input : c'.input = c.input.rename π
  reductions : c'.reductions = c.reductions

inductive Move.Alike (same : StateId → StateId → Prop) : Move → Move → Prop
  | shift {p p' : StateId} : same p p' → Alike same (.shift p) (.shift p')
  | reduce {p p' : StateId} (r : RuleId) (popped : Nat) : same p p' →
      Alike same (.reduce r popped p) (.reduce r popped p')

inductive Turn.Alike (same : StateId → StateId → Prop) (π : Symbol → Symbol) : Turn → Turn → Prop
  | move {m m' : Move} : m.Alike same m' → Alike same π (.move m) (.move m')
  | halt {v v' : Verdict} : v.Renames π v' → Alike same π (.halt v) (.halt v')

/-- The segments hold the same states, and of two segments of the same states both have been seen or none. -/
structure Guard.Alike (same : StateId → StateId → Prop) (guard guard' : Guard) : Prop where
  segment : List.Forall₂ same guard.segment guard'.segment
  seen : ∀ {l l'}, List.Forall₂ same l l' → (l' ∈ guard'.seen ↔ l ∈ guard.seen)

theorem Configuration.Alike.top {c c' : Configuration} (h : c.Alike same π c') (hzero : same 0 0) :
    same c.top c'.top := by
  obtain ⟨stack, input, reductions⟩ := c
  obtain ⟨stack', input', reductions'⟩ := c'
  cases h.stack with
  | nil => exact hzero
  | cons hq _ => exact hq

theorem Configuration.Alike.symbol {c c' : Configuration} (h : c.Alike same π c') : c'.symbol = π c.symbol := by
  rw [Configuration.symbol, Configuration.symbol, h.input, TokenStream.head_rename]
  rfl

theorem Configuration.Alike.apply {c c' : Configuration} (h : c.Alike same π c') {m m' : Move} (hm : m.Alike same m') :
    (c.apply m).Alike same π (c'.apply m') := by
  cases hm with
  | shift hp =>
      refine ⟨.cons hp h.stack, ?_, h.reductions⟩
      change c'.input.advance = c.input.advance.rename π
      rw [h.input, TokenStream.advance_rename]
  | reduce r popped hp => exact ⟨.cons hp (List.forall₂_drop popped h.stack), h.input, congrArg (r :: ·) h.reductions⟩

theorem Guard.alike_fresh : Guard.fresh.Alike same Guard.fresh where
  segment := .nil
  seen := fun _ => ⟨fun h => absurd h Numbering.not_mem_empty, fun h => absurd h Numbering.not_mem_empty⟩

/-- The guards break off both runs or none. -/
theorem Guard.Alike.after? {guard guard' : Guard} (h : guard.Alike same guard') (hsame : Relator.BiUnique same)
    (limit : Nat) {m m' : Move} (hm : m.Alike same m') :
    Option.Rel (Guard.Alike same) (guard.after? limit m) (guard'.after? limit m') := by
  cases hm with
  | shift => exact .some alike_fresh
  | @reduce p p' r popped hp =>
      have hsegment : List.Forall₂ same (p :: guard.segment.drop popped) (p' :: guard'.segment.drop popped) :=
        .cons hp (List.forall₂_drop popped h.segment)
      have hkept {l l' : List StateId} (hl : List.Forall₂ same l l') :
          l' ∈ guard'.kept popped ↔ l ∈ guard.kept popped := by
        rw [Guard.kept, Guard.kept, h.segment.length_eq]
        split
        · simp
        · exact h.seen hl
      rw [Guard.after?_reduce, Guard.after?_reduce, ← hsegment.length_eq]
      by_cases hstuck : limit < (p :: guard.segment.drop popped).length ∨
          p :: guard.segment.drop popped ∈ guard.kept popped
      · rw [if_pos hstuck, if_pos (hstuck.imp_right (hkept hsegment).mpr)]
        exact .none
      · rw [if_neg hstuck, if_neg fun h' => hstuck (h'.imp_right (hkept hsegment).mp)]
        refine .some ⟨hsegment, fun hl => ?_⟩
        rw [Numbering.mem_add, Numbering.mem_add, hkept hl]
        exact or_congr_right (Relator.rel_eq hsame.forall₂ hl hsegment).symm

end Alike

/-! ### Turns that go together -/

section Run

variable {g g' : Grammar} {π : Symbol → Symbol} {t t' : ParseTable}

theorem Automaton.same_biUnique {a a' : Automaton} (ha : ofGrammar g = .ok a) (ha' : ofGrammar g' = .ok a') :
    Relator.BiUnique (a.Same a') := by
  constructor
  · rintro q q' p ⟨items, hq, hp⟩ ⟨items', hq', hp'⟩
    obtain rfl := Option.some.inj (hp.symm.trans hp')
    exact eq_of_state_eq ha hq hq'
  · rintro q p p' ⟨items, hq, hp⟩ ⟨items', hq', hp'⟩
    obtain rfl := Option.some.inj (hq.symm.trans hq')
    exact eq_of_state_eq ha' hp hp'

/-- The tables of two grammars of which one is the other with its symbols renamed. -/
structure ParseTable.Mirror (g g' : Grammar) (π : Symbol → Symbol) (t t' : ParseTable) : Prop where
  grammars : g.Mirrors g' π
  table : ParseTable.ofGrammar g = .ok t
  table' : ParseTable.ofGrammar g' = .ok t'
  size : t.automaton.size = t'.automaton.size

namespace ParseTable.Mirror

theorem automaton (h : Mirror g g' π t t') : Automaton.ofGrammar g = .ok t.automaton :=
  (eq_fill_of_ofGrammar h.table).1

theorem automaton' (h : Mirror g g' π t t') : Automaton.ofGrammar g' = .ok t'.automaton :=
  (eq_fill_of_ofGrammar h.table').1

theorem action? (h : Mirror g g' π t t') {q q' : StateId} (hq : t.automaton.Same t'.automaton q q') {x : Symbol}
    (hx : x < g.symbolCount) :
    Action.Alike (t.automaton.Same t'.automaton) (t.action? q x) (t'.action? q' (π x)) :=
  action?_alike h.grammars h.table h.table' hq hx

variable {c c' : Configuration}

theorem reduction (h : Mirror g g' π t t') (hc : c.Alike (t.automaton.Same t'.automaton) π c') (r : RuleId) :
    (c.reduction g t r).Alike (t.automaton.Same t'.automaton) π (c'.reduction g' t' r) := by
  obtain ⟨u, hg⟩ := h.grammars.proper
  rw [Configuration.reduction, Configuration.reduction, h.grammars.rule?_eq]
  cases hrule : g.rule? r with
  | none => exact .halt (.malformedTable _ _ _ _)
  | some rule =>
      have hlhs := hg.symbols_lt hrule rule.lhs List.mem_cons_self
      have hdrop := List.forall₂_drop rule.rhs.length hc.stack
      simp only [Option.map_some, Rule.rename, List.length_map]
      generalize c.stack.drop rule.rhs.length = l at hdrop ⊢
      generalize c'.stack.drop rule.rhs.length = l' at hdrop ⊢
      cases hdrop with
      | nil => exact .halt (.malformedTable _ _ _ _)
      | @cons exposed exposed' below below' hexposed =>
          have haction := h.action? hexposed hlhs
          dsimp only
          generalize t.action? exposed rule.lhs = o at haction ⊢
          generalize t'.action? exposed' (π rule.lhs) = o' at haction ⊢
          cases haction with
          | goto hp => exact .move (.reduce r _ hp)
          | none => exact .halt (.malformedTable _ _ _ _)
          | shift => exact .halt (.malformedTable _ _ _ _)
          | reduce => exact .halt (.malformedTable _ _ _ _)
          | accept => exact .halt (.malformedTable _ _ _ _)

theorem turn (h : Mirror g g' π t t') (hc : c.Alike (t.automaton.Same t'.automaton) π c')
    (hinput : c.input.Below g.symbolCount) :
    (c.turn g t).Alike (t.automaton.Same t'.automaton) π (c'.turn g' t') := by
  have htop := hc.top (Automaton.same_zero h.grammars h.automaton h.automaton')
  have haction := h.action? htop hinput.head
  have hsymbol : c'.symbol = π c.input.head.symbol := hc.symbol
  rw [← hsymbol] at haction
  change Action.Alike _ (t.action? c.top c.symbol) _ at haction
  rw [Configuration.turn, Configuration.turn]
  generalize t.action? c.top c.symbol = o at haction ⊢
  generalize t'.action? c'.top c'.symbol = o' at haction ⊢
  have hunexpected : Verdict.Renames π (.error (.unexpected c.input.head c.top))
      (.error (.unexpected c'.input.head c'.top)) := by
    rw [hc.input, TokenStream.head_rename]
    exact .unexpected _ _ _
  cases haction with
  | none => exact .halt hunexpected
  | shift hp => exact .move (.shift hp)
  | goto => exact .halt hunexpected
  | reduce r => exact h.reduction hc r
  | accept =>
      rw [hc.reductions]
      exact .halt (.ok _)

/-! ### Whole runs -/

/-- Two rounds at which the machines and the guards go together. -/
structure Rounds (g g' : Grammar) (π : Symbol → Symbol) (t t' : ParseTable) (r r' : Round) : Prop where
  config : r.config.Alike (t.automaton.Same t'.automaton) π r'.config
  guard : r.guard.Alike (t.automaton.Same t'.automaton) r'.guard
  input : r.config.input.Below g.symbolCount

theorem rounds_ofInput (h : Mirror g g' π t t') {input : TokenStream} (hinput : input.Below g.symbolCount) :
    Rounds g g' π t t' (.ofInput input) (.ofInput (input.rename π)) where
  config := ⟨.cons (Automaton.same_zero h.grammars h.automaton h.automaton') .nil, rfl, rfl⟩
  guard := Guard.alike_fresh
  input := hinput

/-- Both runs go on, and the rounds go together again, or both end, and their verdicts agree. -/
theorem step (h : Mirror g g' π t t') {r r' : Round} (hr : Rounds g g' π t t' r r') :
    Sum.LiftRel (Rounds g g' π t t') (Verdict.Renames π) (r.step g t) (r'.step g' t') := by
  have hturn := h.turn hr.config hr.input
  rw [Round.step, Round.step]
  generalize r.config.turn g t = o at hturn ⊢
  generalize r'.config.turn g' t' = o' at hturn ⊢
  cases hturn with
  | halt hv => exact .inr hv
  | @move m m' hm =>
      have hguard := hr.guard.after? (Automaton.same_biUnique h.automaton h.automaton') t.automaton.size hm
      dsimp only
      rw [← h.size]
      generalize r.guard.after? t.automaton.size m = next at hguard ⊢
      generalize r'.guard.after? t.automaton.size m' = next' at hguard ⊢
      cases hguard with
      | none => exact .inr (.malformedTable _ _ _ _)
      | some hguard =>
          refine .inl ⟨hr.config.apply hm, hguard, ?_⟩
          cases m with
          | shift => exact hr.input.advance
          | reduce => exact hr.input

theorem halts (h : Mirror g g' π t t') {r r' : Round} (hr : Rounds g g' π t t' r r') {v : Verdict}
    (hhalts : r.Halts g t v) : ∃ v', r'.Halts g' t' v' ∧ v.Renames π v' := by
  obtain ⟨last, hreach, hlast⟩ := hhalts
  -- The induction starts at the round in which the first run ends and goes back from there.
  induction hreach using Relation.ReflTransGen.head_induction_on generalizing r' with
  | refl =>
      have hstep := h.step hr
      rw [hlast] at hstep
      generalize hnext : r'.step g' t' = next at hstep
      cases hstep with
      | @inr _ v' hv => exact ⟨v', ⟨r', .refl, hnext⟩, hv⟩
  | head hsteps _ ih =>
      have hstep := h.step hr
      rw [hsteps] at hstep
      generalize hnext : r'.step g' t' = next at hstep
      cases hstep with
      | inl hrounds =>
          obtain ⟨v', hv', hagree⟩ := ih hrounds
          exact ⟨v', hv'.of_step hnext, hagree⟩

theorem recognize (h : Mirror g g' π t t') {w : List Symbol} (hw : ∀ s ∈ w, s < g.symbolCount) :
    Verdict.Renames π (ShiftReduce.recognize g t (.ofSymbols w g.endSymbol))
      (ShiftReduce.recognize g' t' (.ofSymbols (w.map π) g'.endSymbol)) := by
  obtain ⟨u, hg⟩ := h.grammars.proper
  have hrounds := h.rounds_ofInput (TokenStream.below_ofSymbols hw hg.end_lt)
  rw [TokenStream.rename_ofSymbols, h.grammars.endSymbol] at hrounds
  obtain ⟨v, hv⟩ := (fits_of_ofGrammar hg h.table).exists_halts hg w
  obtain ⟨v', hv', hagree⟩ := h.halts hrounds hv
  rw [recognize_of_halts hv, recognize_of_halts hv']
  exact hagree

end ParseTable.Mirror

end Run

/-- How the symbols are numbered does not matter. Renaming the symbols of a grammar changes neither how many states
its table has nor how many conflicts, and with the renamed input the machine comes to the same verdict. -/
theorem recognize_renamed {calls calls' : List Builder.Call} {g g' : AugmentedGrammar} {π : Symbol → Symbol}
    (hbuild : (Builder.ofCalls calls).build = .ok g) (hbuild' : (Builder.ofCalls calls').build = .ok g')
    (h : g.Renames g'.toGrammar π) :
    ∃ t t', ParseTable.ofGrammar g.toGrammar = .ok t ∧ ParseTable.ofGrammar g'.toGrammar = .ok t' ∧
      t.automaton.size = t'.automaton.size ∧ t.conflicts.size = t'.conflicts.size ∧
      ∀ w : List Symbol, (∀ s ∈ w, s < g.symbolCount) →
        Verdict.Renames π (recognize g.toGrammar t (.ofSymbols w g.endSymbol))
          (recognize g'.toGrammar t' (.ofSymbols (w.map π) g'.endSymbol)) := by
  have hproper := Builder.proper_of_build hbuild
  have hproper' := Builder.proper_of_build hbuild'
  obtain ⟨ρ, hρ, _⟩ := h.symm hproper
  have hmirrors := Builder.mirrors_of_renames hbuild hbuild' h
  have hmirrors' := Builder.mirrors_of_renames hbuild' hbuild hρ
  obtain ⟨t, htable, hfits, _⟩ := ParseTable.exists_table hproper
  obtain ⟨t', htable', hfits', _⟩ := ParseTable.exists_table hproper'
  have hsize : t.automaton.size = t'.automaton.size :=
    Nat.le_antisymm (Automaton.size_le hmirrors hfits.automaton hfits'.automaton)
      (Automaton.size_le hmirrors' hfits'.automaton hfits.automaton)
  have hconflicts : t.conflicts.size = t'.conflicts.size :=
    Nat.le_antisymm (ParseTable.size_conflicts_le hmirrors htable htable')
      (ParseTable.size_conflicts_le hmirrors' htable' htable)
  have hmirror : ParseTable.Mirror g.toGrammar g'.toGrammar π t t' := ⟨hmirrors, htable, htable', hsize⟩
  exact ⟨t, t', htable, htable', hsize, hconflicts, fun w hw => hmirror.recognize hw⟩

/-- Strings of a terminal, read in pairs. -/
def pairCalls : List Builder.Call :=
  [.addToken "s", .addToken "x", .addRule 1 [1, 1], .addRule 1 [2], .setStart 1]

def pairs : AugmentedGrammar := .ofRules #["$end", "s", "x"] #[⟨1, [1, 1]⟩, ⟨1, [2]⟩] 1

/-- The same with the terminal declared first. -/
def declaredPairCalls : List Builder.Call :=
  [.addToken "x", .addToken "s", .addRule 2 [2, 2], .addRule 2 [1], .setStart 2]

def declaredPairs : AugmentedGrammar := .ofRules #["$end", "x", "s"] #[⟨2, [2, 2]⟩, ⟨2, [1]⟩] 2

def exchanged : Symbol → Symbol
  | 1 => 2
  | 2 => 1
  | s => s

theorem recognize_renamed_pairs : (Builder.ofCalls pairCalls).build = .ok pairs ∧
    (Builder.ofCalls declaredPairCalls).build = .ok declaredPairs ∧
    pairs.Renames declaredPairs.toGrammar exchanged ∧
      ∃ t t', ParseTable.ofGrammar pairs.toGrammar = .ok t ∧ ParseTable.ofGrammar declaredPairs.toGrammar = .ok t' ∧
        t'.automaton.size = 4 ∧ t'.conflicts.size = 1 ∧
        Verdict.Renames exchanged (recognize pairs.toGrammar t (.ofSymbols [2, 2, 1] 0))
          (recognize declaredPairs.toGrammar t' (.ofSymbols [1, 1, 2] 0)) := by
  have hbuild : (Builder.ofCalls pairCalls).build = .ok pairs := Builder.build_eq_ok (by cbv) (by cbv)
  have hbuild' : (Builder.ofCalls declaredPairCalls).build = .ok declaredPairs :=
    Builder.build_eq_ok (by cbv) (by cbv)
  have hcount : pairs.symbolCount = 4 := AugmentedGrammar.symbolCount_ofRules
  have hcount' : declaredPairs.symbolCount = 4 := AugmentedGrammar.symbolCount_ofRules
  have hrenames : pairs.Renames declaredPairs.toGrammar exchanged := by
    refine ⟨?_, rfl, rfl, by simp [declaredPairs, pairs, Rule.rename, exchanged]⟩
    rw [hcount, hcount']
    refine ⟨?_, ?_, ?_⟩
    · have hmaps : ∀ s < 4, exchanged s < 4 := by decide
      exact hmaps
    · have hinj : ∀ s < 4, ∀ x < 4, exchanged s = exchanged x → s = x := by decide
      exact fun s hs x hx => hinj s hs x hx
    · have hsurj : ∀ x < 4, ∃ s < 4, exchanged s = x := by decide
      exact hsurj
  have hrun : (ParseTable.ofGrammar pairs.toGrammar).toOption.map (fun t => (t.automaton.size, t.conflicts.size)) =
      some (4, 1) := by cbv
  obtain ⟨t, t', htable, htable', hsize, hconflicts, hverdicts⟩ := recognize_renamed hbuild hbuild' hrenames
  rw [htable] at hrun
  obtain ⟨hstates, hone⟩ := Prod.mk.inj (Option.some.inj hrun)
  have hinput : ∀ s ∈ [2, 2, 1], s < pairs.symbolCount := by
    rw [hcount]
    decide
  exact ⟨hbuild, hbuild', hrenames, t, t', htable, htable', hsize.symm.trans hstates, hconflicts.symm.trans hone,
    hverdicts [2, 2, 1] hinput⟩

end ShiftReduce
