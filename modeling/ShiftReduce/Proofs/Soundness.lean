import ShiftReduce.Proofs.Machine
import ShiftReduce.Proofs.ViablePrefix

/-! Accepted inputs are sentences. The machine reduces what it has read to the symbols that its stack
spells, so at any time its reductions, the latest first, are a rightmost derivation from these symbols
and the rest of the input to the whole input. Where it accepts, the stack spells the start symbol, and
nothing is left of the input. -/

namespace ShiftReduce

variable {g : Grammar} {u : Symbol} {t : ParseTable}

namespace Configuration

/-- The machine has read `x` and has reduced it to `γ`, which its stack spells. -/
structure Reduced (g : Grammar) (a : Automaton) (c : Configuration) (x γ : List Symbol) : Prop where
  spells : a.Spells g c.stack γ
  terminals : ∀ s ∈ x, g.isTerminal s
  derives : ∀ z, (∀ s ∈ z, g.isTerminal s) → g.deriveRightmost c.reductions (γ ++ z) = some (x ++ z)
  last : c.input.last.symbol = g.endSymbol

theorem reduced_ofInput (a : Automaton) (input : TokenStream) (h : input.last.symbol = g.endSymbol) :
    (ofInput input).Reduced g a [] [] where
  spells := .start
  terminals := fun _ hs => absurd hs List.not_mem_nil
  derives := fun _ _ => rfl
  last := h

theorem Reduced.shift (hg : g.Proper u) (ht : t.Fits g) {c : Configuration} {x γ : List Symbol}
    (hc : c.Reduced g t.automaton x γ) {q : StateId} (haction : t.action? c.top c.symbol = some (.shift q)) :
    (c.apply (.shift q)).Reduced g t.automaton (x ++ [c.symbol]) (γ ++ [c.symbol]) ∧
      c.input.rest = c.symbol :: c.input.advance.rest := by
  obtain ⟨stack, input, reductions⟩ := c
  obtain ⟨hspells, hx, hderives, hlast⟩ := hc
  obtain ⟨p, st, rfl⟩ := hspells.exists_cons
  obtain ⟨hterminal, hlead⟩ := (ht.demands haction).of_shift
  refine ⟨⟨hspells.push hlead, ?_, ?_, hlast⟩, ?_⟩
  · exact List.forall_mem_append.mpr ⟨hx, List.forall_mem_singleton.mpr hterminal⟩
  · intro z hz
    rw [List.append_assoc, List.append_assoc]
    exact hderives _ (List.forall_mem_cons.mpr ⟨hterminal, hz⟩)
  · rcases input.rest_cases with ⟨_, hend⟩ | ⟨hrest, _⟩
    · exact absurd (hend.trans hlast) (hg.ne_end_of_leads hlead)
    · exact hrest

/-- A reduction takes the right-hand side of its rule from what the stack spells, where the left-hand side
is expected, and puts the left-hand side there. -/
theorem spells_reduce (hg : g.Proper u) (ht : t.Fits g) {c : Configuration} {γ : List Symbol}
    (hspells : t.automaton.Spells g c.stack γ) {r : RuleId} {popped : Nat} {target : StateId}
    (hturn : c.turn g t = .move (.reduce r popped target)) :
    ∃ rule α, g.rule? r = some rule ∧ γ = α ++ rule.rhs ∧ g.Expected α rule.lhs ∧
      t.automaton.Spells g (target :: c.stack.drop popped) (α ++ [rule.lhs]) := by
  obtain ⟨stack, input, reductions⟩ := c
  obtain ⟨p, st, rfl⟩ := hspells.exists_cons
  obtain ⟨haction, rule, exposed, hrule, rfl, hexposed, hgoto⟩ := turn_eq_reduce_iff.mp hturn
  obtain ⟨rule', α, p', st', hrule', hγ, hdrop, hspells', hexpected⟩ :=
    hspells.handle hg ht.automaton (ht.demands haction)
  obtain rfl := Option.some.inj (hrule.symm.trans hrule')
  obtain rfl : p' = exposed := by
    rw [hdrop] at hexposed
    exact Option.some.inj hexposed
  refine ⟨rule, α, hrule, hγ, hexpected, ?_⟩
  rw [hdrop]
  exact hspells'.push (ht.demands hgoto).of_goto.2

theorem Reduced.reduce (hg : g.Proper u) (ht : t.Fits g) {c : Configuration} {x γ : List Symbol}
    (hc : c.Reduced g t.automaton x γ) {r : RuleId} {popped : Nat} {target : StateId}
    (hturn : c.turn g t = .move (.reduce r popped target)) :
    ∃ γ', (c.apply (.reduce r popped target)).Reduced g t.automaton x γ' := by
  obtain ⟨hspells, hx, hderives, hlast⟩ := hc
  obtain ⟨rule, α, hrule, rfl, _, hspells'⟩ := spells_reduce hg ht hspells hturn
  refine ⟨α ++ [rule.lhs], hspells', hx, ?_, hlast⟩
  intro z hz
  have hrewrite := Grammar.rewriteRightmost_append hrule (hg.not_isTerminal_lhs hrule) α hz
  calc g.deriveRightmost (r :: c.reductions) (α ++ [rule.lhs] ++ z)
      _ = g.deriveRightmost (r :: c.reductions) (α ++ rule.lhs :: z) := by
        rw [List.append_assoc, List.singleton_append]
      _ = g.deriveRightmost c.reductions (α ++ rule.rhs ++ z) := Grammar.deriveRightmost_cons hrewrite
      _ = some (x ++ z) := hderives z hz

theorem Reduced.move (hg : g.Proper u) (ht : t.Fits g) {c : Configuration} {x γ : List Symbol}
    (hc : c.Reduced g t.automaton x γ) {m : Move} (hturn : c.turn g t = .move m) :
    ∃ x' γ', (c.apply m).Reduced g t.automaton x' γ' ∧ x' ++ (c.apply m).input.rest = x ++ c.input.rest := by
  cases m with
  | shift q =>
      obtain ⟨hc', hrest⟩ := hc.shift hg ht (turn_eq_shift_iff.mp hturn)
      refine ⟨_, _, hc', ?_⟩
      rw [hrest, List.append_assoc]
      rfl
  | reduce r popped target =>
      obtain ⟨γ', hc'⟩ := hc.reduce hg ht hturn
      exact ⟨x, γ', hc', rfl⟩

/-- Where the machine accepts, its stack spells the start symbol, and the input is at its end. -/
theorem Reduced.accept (hg : g.Proper u) (ht : t.Fits g) {c : Configuration} {x γ : List Symbol}
    (hc : c.Reduced g t.automaton x γ) (haction : t.action? c.top c.symbol = some .accept) :
    γ = [u] ∧ c.input.rest = [] := by
  obtain ⟨stack, input, reductions⟩ := c
  obtain ⟨hspells, _, _, hlast⟩ := hc
  obtain ⟨p, st, rfl⟩ := hspells.exists_cons
  obtain ⟨hend, items, hp, hi⟩ := (ht.demands haction).of_accept
  constructor
  · obtain ⟨γ', p', st', items', rfl, _, hspells', hp', hi'⟩ := hspells.pop ht.automaton hg.startRule hp hi
    obtain rfl := hg.eq_zero_of_start_mem ht.automaton hp' hi'
    rw [hspells'.eq_nil_of_zero ht.automaton]
    rfl
  · rcases input.rest_cases with ⟨hrest, _⟩ | ⟨_, hne⟩
    · exact hrest
    · exact absurd (hend.trans hlast.symm) hne

end Configuration

theorem Round.Reaches.reduced (hg : g.Proper u) (ht : t.Fits g) {r r' : Round} (hreach : r.Reaches g t r')
    {x γ : List Symbol} (hr : r.config.Reduced g t.automaton x γ) :
    ∃ x' γ', r'.config.Reduced g t.automaton x' γ' ∧ x' ++ r'.config.input.rest = x ++ r.config.input.rest := by
  induction hreach with
  | refl => exact ⟨x, γ, hr, rfl⟩
  | tail _ hstep ih =>
      obtain ⟨x', γ', hr', hx'⟩ := ih
      obtain ⟨m, hturn, _, hconfig⟩ := Round.step_eq_inl_iff.mp hstep
      obtain ⟨x'', γ'', hr'', hx''⟩ := hr'.move hg ht hturn
      rw [hconfig]
      exact ⟨x'', γ'', hr'', hx''.trans hx'⟩

theorem Round.turn_eq_of_step_eq_ok {r : Round} {l : List RuleId} (h : r.step g t = .inr (.ok l)) :
    r.config.turn g t = .halt (.ok l) :=
  turn_of_step h fun _ _ => by simp

/-- What is accepted is a sentence up to the end symbol, and the reductions, read backwards, are a
rightmost derivation of it. The table may have conflicts. -/
theorem recognize_sound {calls : List Builder.Call} {g : AugmentedGrammar}
    (hbuild : (Builder.ofCalls calls).build = .ok g) :
    ∃ t, ParseTable.ofGrammar g.toGrammar = .ok t ∧
      ∀ w l, recognize g.toGrammar t (.ofSymbols w g.endSymbol) = .ok l →
        g.deriveRightmost l.reverse [g.userStart] = some (w.takeWhile (· ≠ g.endSymbol)) ∧
          g.IsSentence g.userStart (w.takeWhile (· ≠ g.endSymbol)) := by
  have hg := Builder.proper_of_build hbuild
  obtain ⟨t, htable, ht, _⟩ := ParseTable.exists_table hg
  refine ⟨t, htable, ?_⟩
  intro w l h
  obtain ⟨last, hreach, hlast⟩ := halts_of_recognize_eq_ok h
  have hstart := Configuration.reduced_ofInput t.automaton (.ofSymbols w g.endSymbol) rfl
  obtain ⟨x, γ, hreduced, hx⟩ := Round.Reaches.reduced hg ht hreach hstart
  obtain ⟨haction, rfl⟩ := Configuration.turn_eq_accept_iff.mp (Round.turn_eq_of_step_eq_ok hlast)
  obtain ⟨rfl, hrest⟩ := hreduced.accept hg ht haction
  have hread : x = w.takeWhile (· ≠ g.endSymbol) :=
    calc x
        _ = x ++ last.config.input.rest := by rw [hrest, List.append_nil]
        _ = (TokenStream.ofSymbols w g.endSymbol).rest := hx
        _ = w.takeWhile (· ≠ g.endSymbol) := TokenStream.rest_ofSymbols w g.endSymbol
  have hderives := hreduced.derives [] fun _ hs => absurd hs List.not_mem_nil
  rw [List.append_nil, List.append_nil] at hderives
  rw [List.reverse_reverse, ← hread]
  exact ⟨hderives, hreduced.terminals, Grammar.derives_of_deriveRightmost hderives⟩

/-- The table for sums has conflicts and accepts `n + n`, whatever comes after the end symbol. -/
theorem recognize_sound_sums : (Builder.ofCalls sumCalls).build = .ok sums ∧
    ∃ t, ParseTable.ofGrammar sums.toGrammar = .ok t ∧ t.isConflictFree = false ∧
      recognize sums.toGrammar t (.ofSymbols [3, 2, 3, 0, 3] 0) = .ok [2, 2, 1] ∧
      sums.deriveRightmost [1, 2, 2] [1] = some [3, 2, 3] ∧ sums.IsSentence 1 [3, 2, 3] := by
  have hbuild : (Builder.ofCalls sumCalls).build = .ok sums := by cbv
  have hrun : (ParseTable.ofGrammar sums.toGrammar).toOption.map (fun t =>
      (t.isConflictFree, recognize sums.toGrammar t (.ofSymbols [3, 2, 3, 0, 3] 0))) =
      some (false, .ok [2, 2, 1]) := by cbv
  obtain ⟨t, ht, hsound⟩ := recognize_sound hbuild
  rw [ht] at hrun
  obtain ⟨hfree, haccepts⟩ := Prod.mk.inj (Option.some.inj hrun)
  exact ⟨hbuild, t, ht, hfree, haccepts, hsound _ _ haccepts⟩

end ShiftReduce
