import ShiftReduce.Proofs.Guard
import ShiftReduce.Proofs.Sets
import ShiftReduce.Proofs.Stack
import ShiftReduce.Proofs.Table

/-! Sentences of a grammar without conflicts are accepted. A rightmost derivation tells the machine what
to do: before the last rule was applied, the symbols of its right-hand side stood where the left-hand
side stands then, so the machine shifts up to the end of the right-hand side and reduces. The table has
the action for each of these turns, since without conflicts it has every action that is demanded. -/

namespace ShiftReduce

variable {g : Grammar} {u : Symbol} {t : ParseTable} {nullable : Symbol → Bool} {first : Symbol → SymbolSet}

/-- Every action that a state demands stands in the table. -/
def ParseTable.Complete (t : ParseTable) (g : Grammar) : Prop :=
  ∀ {p s act}, t.automaton.Demands g p s act → t.action? p s = some act

namespace Configuration

/-- The stack of the machine spells `γ`, and `z` is left of the input. -/
structure Stands (g : Grammar) (a : Automaton) (c : Configuration) (γ z : List Symbol) : Prop where
  spells : a.Spells g c.stack γ
  rest : c.input.rest = z
  last : c.input.last.symbol = g.endSymbol

variable {c : Configuration} {γ z : List Symbol}

/-- In front of an input that completes it to a form of a derivation, a stack stands as it should. -/
theorem stands_ofSymbols (hg : g.Proper u) {a : Automaton} {st : List StateId} {l d : List RuleId}
    (hspells : a.Spells g st γ) (hd : g.deriveRightmost d [u] = some (γ ++ z)) :
    (Configuration.mk st (.ofSymbols z g.endSymbol) l).Stands g a γ z := by
  have hend := hg.end_not_mem_of_derives hg.end_ne (Grammar.derives_of_deriveRightmost hd)
  rw [List.mem_append, not_or] at hend
  exact ⟨hspells, TokenStream.rest_ofSymbols_of_not_mem hend.2, rfl⟩

theorem Stands.shift (hg : g.Proper u) (ht : t.Fits g) (hcomplete : t.Complete g) {s : Symbol}
    (hc : c.Stands g t.automaton γ (s :: z)) (hs : g.isTerminal s) (hexpected : g.Expected γ s) :
    ∃ q, c.turn g t = .move (.shift q) ∧ (c.apply (.shift q)).Stands g t.automaton (γ ++ [s]) z := by
  obtain ⟨stack, input, reductions⟩ := c
  obtain ⟨hspells, hrest, hlast⟩ := hc
  obtain ⟨p, st, rfl⟩ := hspells.exists_cons
  obtain ⟨q, hlead⟩ := hspells.exists_leads_of_expected hg ht.automaton hexpected
  rcases input.rest_cases with ⟨hnil, _⟩ | ⟨hcons, _⟩
  · rw [hnil] at hrest
    cases hrest
  · obtain ⟨hhead, hrest'⟩ := List.cons_eq_cons.mp (hcons.symm.trans hrest)
    refine ⟨q, turn_eq_shift_iff.mpr ?_, hspells.push hlead, hrest', hlast⟩
    change t.action? p input.head.symbol = _
    rw [hhead]
    exact hcomplete (.shift hs hlead)

/-- The machine comes to shift all symbols up to a place, if each of them is expected. -/
theorem Stands.shifts (hg : g.Proper u) (ht : t.Fits g) (hcomplete : t.Complete g) {y : List Symbol}
    (hc : c.Stands g t.automaton γ (y ++ z)) (hy : ∀ s ∈ y, g.isTerminal s)
    (hexpected : ∀ δ s ρ, γ ++ y = δ ++ s :: ρ → g.Expected δ s) :
    ∃ c' : Configuration, c'.Stands g t.automaton (γ ++ y) z ∧ c'.reductions = c.reductions ∧
      ∀ v, c'.Halts g t v → c.Halts g t v := by
  induction y generalizing c γ with
  | nil =>
      rw [List.append_nil]
      exact ⟨c, hc, rfl, fun _ h => h⟩
  | cons s y ih =>
      obtain ⟨q, hturn, hc'⟩ := hc.shift hg ht hcomplete (hy s List.mem_cons_self) (hexpected γ s y rfl)
      rw [List.append_cons] at hexpected ⊢
      obtain ⟨c'', hc'', hreductions, hhalts⟩ := ih hc' (fun s' hs' => hy s' (List.mem_cons_of_mem s hs')) hexpected
      exact ⟨c'', hc'', hreductions, fun v hv => .of_move hturn (hhalts v hv)⟩

theorem Stands.begins (hsets : g.HasSets nullable first) (hc : c.Stands g t.automaton γ z)
    (hz : ∀ s ∈ z, g.isTerminal s) : g.Begins nullable first z c.symbol := by
  obtain ⟨_, rfl, hlast⟩ := hc
  rcases c.input.rest_cases with ⟨hnil, hend⟩ | ⟨hcons, _⟩
  · rw [hnil]
    exact Or.inr ⟨rfl, hend.trans hlast⟩
  · have hsymbol : c.symbol ∈ c.input.rest := by
      rw [hcons]
      exact List.mem_cons_self
    refine Or.inl ⟨c.symbol, ?_, hsets.first_self (hz _ hsymbol)⟩
    rw [hcons]
    exact List.mem_cons_self

theorem Stands.reduce (hg : g.Proper u) (ht : t.Fits g) (hcomplete : t.Complete g) {α : List Symbol} {r : RuleId}
    {rule : Rule} (hc : c.Stands g t.automaton (α ++ rule.rhs) z) (hrule : g.rule? r = some rule)
    (hexpected : g.Expected α rule.lhs) (hfollows : g.Follows rule.lhs c.symbol) :
    ∃ popped q, c.turn g t = .move (.reduce r popped q) ∧
      (c.apply (.reduce r popped q)).Stands g t.automaton (α ++ [rule.lhs]) z := by
  obtain ⟨stack, input, reductions⟩ := c
  obtain ⟨hspells, hrest, hlast⟩ := hc
  obtain ⟨p, st, rfl⟩ := hspells.exists_cons
  obtain ⟨items, hp⟩ := hspells.state ht.automaton
  obtain ⟨follow, hfollow, hs⟩ := hfollows
  have hcompleted : (⟨r, rule.rhs.length⟩ : Item) ∈ items :=
    Automaton.Spells.mem_of_begun ht.automaton hrule
      (fun _ _ _ hs hq => hs.mem_of_entered hg ht.automaton (hexpected.entered hrule) hq) (List.append_nil _).symm
      hspells hp
  have hlhs : rule.lhs ≠ g.startSymbol := by
    intro heq
    obtain ⟨_, _, hrule', hmem⟩ := hexpected.exists_rule
    exact hg.start_not_mem hrule' (heq ▸ hmem)
  have haction := hcomplete (.reduce hp hrule hcompleted hlhs hfollow hs)
  -- The state that comes to light is the one that had been reached over `α`.
  obtain ⟨γ', p', st', _, hγ, hdrop, hspells', _, _⟩ := hspells.pop ht.automaton hrule hp hcompleted
  rw [List.take_length] at hγ
  obtain rfl := List.append_cancel_right hγ
  obtain ⟨q, hlead⟩ := hspells'.exists_leads_of_expected hg ht.automaton hexpected
  have hgoto := hcomplete (.goto (hg.not_isTerminal_lhs hrule) hlead)
  have hexposed : ((p :: st).drop rule.rhs.length).head? = some p' := by rw [hdrop, List.head?_cons]
  refine ⟨rule.rhs.length, q, turn_eq_reduce_iff.mpr ⟨haction, rule, p', hrule, rfl, hexposed, hgoto⟩, ?_, hrest, hlast⟩
  change t.automaton.Spells g (q :: (p :: st).drop rule.rhs.length) _
  rw [hdrop]
  exact hspells'.push hlead

theorem Stands.accept (hg : g.Proper u) (ht : t.Fits g) (hcomplete : t.Complete g)
    (hc : c.Stands g t.automaton [u] []) : c.turn g t = .halt (.ok c.reductions.reverse) := by
  obtain ⟨stack, input, reductions⟩ := c
  obtain ⟨hspells, hrest, hlast⟩ := hc
  obtain ⟨p, st, rfl⟩ := hspells.exists_cons
  obtain ⟨items, hp⟩ := hspells.state ht.automaton
  have hcompleted : (⟨g.startRule, 1⟩ : Item) ∈ items :=
    Automaton.Spells.mem_of_begun ht.automaton hg.startRule (α := [u]) (β := [])
      (fun _ _ _ hs hq => hs.mem_of_entered hg ht.automaton .start hq) rfl hspells hp
  refine turn_eq_accept_iff.mpr ⟨?_, rfl⟩
  change t.action? p input.head.symbol = some .accept
  rcases input.rest_cases with ⟨_, hend⟩ | ⟨hcons, _⟩
  · rw [hend, hlast]
    exact hcomplete (.accept hp hcompleted)
  · rw [hrest] at hcons
    cases hcons

/-- Where the stack and the rest of the input are a form of a rightmost derivation, and the machine has
not passed over the place of its last rule, it goes the whole derivation back. -/
theorem Stands.halts (hg : g.Proper u) (ht : t.Fits g) (hcomplete : t.Complete g)
    (hsets : g.HasSets nullable first) {d : List RuleId} (hc : c.Stands g t.automaton γ z)
    (hz : ∀ s ∈ z, g.isTerminal s) (hγ : ∀ s ∈ γ.getLast?, ¬ g.isTerminal s)
    (hd : g.deriveRightmost d [u] = some (γ ++ z)) : c.Halts g t (.ok (d ++ c.reductions).reverse) := by
  induction d using List.reverseRecOn generalizing c γ z with
  | nil =>
      have hform : [u] = γ ++ z := Option.some.inj hd
      rcases List.singleton_eq_append_iff.mp hform with ⟨rfl, rfl⟩ | ⟨rfl, rfl⟩
      · exact absurd (hz u List.mem_cons_self) hg.not_isTerminal_start
      · exact .of_halt (hc.accept hg ht hcomplete)
  | append_singleton d r ih =>
      obtain ⟨form, hd', hstep⟩ := Grammar.deriveRightmost_concat_eq_some_iff.mp hd
      obtain ⟨rule, α, z', hrule, hlhs, hz', rfl, hform⟩ := Grammar.rewriteRightmost_eq_some_iff.mp hstep
      have hviable := hg.viable_of_deriveRightmost hd'
      have hplace : ∃ y, α ++ rule.rhs = γ ++ y ∧ z = y ++ z' := by
        rcases List.append_eq_append_iff.mp hform with ⟨y, hy⟩ | ⟨m, rfl, hm⟩
        · exact ⟨y, hy⟩
        · -- What is left of the stack beyond the place of the rule would be terminals.
          cases m using List.reverseRecOn with
          | nil => exact ⟨[], by simp, by simpa using hm.symm⟩
          | append_singleton m s =>
              refine absurd (hz' s ?_) (hγ s ?_)
              · rw [hm]
                simp
              · rw [← List.append_assoc]
                exact List.getLast?_concat
      obtain ⟨y, hplace, rfl⟩ := hplace
      obtain ⟨c₁, hc₁, hreductions, hhalts⟩ := hc.shifts hg ht hcomplete
        (fun s hs => hz s (List.mem_append_left _ hs))
        (fun δ s ρ hδ => hviable.expected_of_rule hrule hlhs (hplace.trans hδ))
      rw [← hplace] at hc₁
      have hfollows := hsets.follows_of_deriveRightmost hg hd' hlhs (hc₁.begins hsets hz')
      obtain ⟨popped, q, hturn, hc₂⟩ := hc₁.reduce hg ht hcomplete hrule (hviable.expected hlhs) hfollows
      have hlast : ∀ s ∈ (α ++ [rule.lhs]).getLast?, ¬ g.isTerminal s := by
        rw [List.getLast?_concat]
        rintro s ⟨⟩
        exact hlhs
      have hrest := ih hc₂ hz' hlast (by rwa [List.append_assoc])
      refine hhalts _ (.of_move hturn ?_)
      rw [List.append_assoc, ← hreductions]
      exact hrest

end Configuration

/-- With a table that fits the grammar, the guard makes no difference to a machine that halts. -/
theorem ParseTable.Fits.recognize_eq_of_halts (ht : t.Fits g) {input : TokenStream} {v : Verdict}
    (h : (Configuration.ofInput input).Halts g t v) : recognize g t input = v :=
  recognize_of_halts (halts_of_config_halts (r := .ofInput input) ht.goto_lt .fresh h)

theorem recognize_eq_of_deriveRightmost (hg : g.Proper u) (ht : t.Fits g) (hcomplete : t.Complete g)
    (hsets : g.HasSets nullable first) {w : List Symbol} {d : List RuleId} (hw : ∀ s ∈ w, g.isTerminal s)
    (hd : g.deriveRightmost d [u] = some w) : recognize g t (.ofSymbols w g.endSymbol) = .ok d.reverse := by
  have hstart : (Configuration.ofInput (.ofSymbols w g.endSymbol)).Stands g t.automaton [] w :=
    Configuration.stands_ofSymbols hg .start hd
  have hhalts := hstart.halts hg ht hcomplete hsets hw (fun _ hs => by cases hs) hd
  rw [Configuration.ofInput, List.append_nil] at hhalts
  exact ht.recognize_eq_of_halts hhalts

/-- Without conflicts, whatever can be derived is accepted, and by the reductions of any rightmost
derivation, read backwards. So a sentence is accepted, and there is one rightmost derivation of it. -/
theorem recognize_complete {calls : List Builder.Call} {g : AugmentedGrammar}
    (hbuild : (Builder.ofCalls calls).build = .ok g) :
    ∃ t, ParseTable.ofGrammar g.toGrammar = .ok t ∧ (t.isConflictFree →
      (∀ w d, (∀ s ∈ w, g.isTerminal s) → g.deriveRightmost d [g.userStart] = some w →
        recognize g.toGrammar t (.ofSymbols w g.endSymbol) = .ok d.reverse) ∧
      (∀ w, g.IsSentence g.userStart w → ∃ l, recognize g.toGrammar t (.ofSymbols w g.endSymbol) = .ok l) ∧
      ∀ w, g.IsSentence g.userStart w → ∃! d, g.deriveRightmost d [g.userStart] = some w) := by
  have hg := Builder.proper_of_build hbuild
  have hsets := Builder.hasSets_of_build hbuild
  obtain ⟨t, htable, ht, hmet⟩ := ParseTable.exists_table hg
  refine ⟨t, htable, ?_⟩
  intro hfree
  have haccepts : ∀ w d, (∀ s ∈ w, g.isTerminal s) → g.deriveRightmost d [g.userStart] = some w →
      recognize g.toGrammar t (.ofSymbols w g.endSymbol) = .ok d.reverse :=
    fun w d hw hd => recognize_eq_of_deriveRightmost hg ht (hmet hfree) hsets hw hd
  refine ⟨haccepts, ?_, ?_⟩
  · intro w hw
    obtain ⟨d, hd⟩ := hg.exists_deriveRightmost hw
    exact ⟨_, haccepts w d hw.1 hd⟩
  · intro w hw
    obtain ⟨d, hd⟩ := hg.exists_deriveRightmost hw
    refine ⟨d, hd, ?_⟩
    intro d' hd'
    have heq : (Except.ok d'.reverse : Verdict) = .ok d.reverse :=
      calc Except.ok d'.reverse
          _ = recognize g.toGrammar t (.ofSymbols w g.endSymbol) := (haccepts w d' hw.1 hd').symm
          _ = .ok d.reverse := haccepts w d hw.1 hd
    exact List.reverse_injective (Except.ok.inj heq)

/-- Nested pairs of parentheses, down to an innermost one with nothing in it. -/
def nestedCalls : List Builder.Call :=
  [.addToken "pairs", .addToken "(", .addToken ")", .addRule 1 [2, 1, 3], .addRule 1 [], .setStart 1]

def nested : AugmentedGrammar := .ofRules #["$end", "pairs", "(", ")"] #[⟨1, [2, 1, 3]⟩, ⟨1, []⟩] 1

theorem recognize_complete_nested : (Builder.ofCalls nestedCalls).build = .ok nested ∧
    ∃ t, ParseTable.ofGrammar nested.toGrammar = .ok t ∧ t.isConflictFree ∧
      (∀ s ∈ [2, 2, 3, 3], nested.isTerminal s) ∧ nested.deriveRightmost [1, 1, 2] [1] = some [2, 2, 3, 3] ∧
      recognize nested.toGrammar t (.ofSymbols [2, 2, 3, 3] 0) = .ok [2, 1, 1] ∧
      ∃! d, nested.deriveRightmost d [1] = some [2, 2, 3, 3] := by
  have hbuild : (Builder.ofCalls nestedCalls).build = .ok nested := by cbv
  have htable : (ParseTable.ofGrammar nested.toGrammar).toOption.map (·.isConflictFree) = some true := by cbv
  have hterminals : ∀ s ∈ [2, 2, 3, 3], nested.isTerminal s := by decide
  have hd : nested.deriveRightmost [1, 1, 2] [1] = some [2, 2, 3, 3] := by cbv
  obtain ⟨t, ht, hcomplete⟩ := recognize_complete hbuild
  rw [ht] at htable
  have hfree : t.isConflictFree = true := Option.some.inj htable
  obtain ⟨haccepts, _, hunique⟩ := hcomplete hfree
  exact ⟨hbuild, t, ht, hfree, hterminals, hd, haccepts _ _ hterminals hd,
    hunique _ ⟨hterminals, Grammar.derives_of_deriveRightmost hd⟩⟩

end ShiftReduce
