import ShiftReduce.Proofs.Completeness
import ShiftReduce.Proofs.Soundness

/-! Errors are reported at the first token that makes a sentence impossible. What the machine has passed over
derives from what its stack spells, and the stack can always be completed, so the tokens before the error
begin some form of a derivation. Without conflicts, a sentence that begins with the same tokens and the
unexpected one would take the machine the same way, up to the same error, although sentences are accepted. -/

namespace ShiftReduce

variable {g : Grammar} {u : Symbol} {t : ParseTable} {nullable : Symbol → Bool} {first : Symbol → SymbolSet}

/-! ### Places in a stream -/

namespace TokenStream

/-- The stream after its first `n` tokens. -/
def drop (s : TokenStream) (n : Nat) : TokenStream := { s with tokens := s.tokens.drop n }

theorem advance_drop (s : TokenStream) (n : Nat) : (s.drop n).advance = s.drop (n + 1) := by
  rw [advance, drop, drop, List.tail_drop]

variable {w : List Symbol} {e : Symbol} {n : Nat}

theorem head_drop_of_getElem? {x : Symbol} (h : w[n]? = some x) : ((ofSymbols w e).drop n).head = ⟨x, n, n + 1⟩ := by
  rw [head, drop, ofSymbols, List.headD_eq_head?_getD, List.head?_drop, List.getElem?_map, List.getElem?_zipIdx, h]
  simp

theorem head_drop_length : ((ofSymbols w e).drop w.length).head = ⟨e, w.length, w.length⟩ := by
  rw [head, drop, ofSymbols, List.drop_eq_nil_of_le (by simp), List.headD_nil]

theorem start_head_drop (h : n ≤ w.length) : ((ofSymbols w e).drop n).head.start = n := by
  rcases Nat.lt_or_eq_of_le h with hlt | rfl
  · rw [head_drop_of_getElem? (List.getElem?_eq_getElem hlt)]
  · rw [head_drop_length]

/-- Streams of symbols that begin in the same way have the same tokens there. -/
theorem head_drop_of_prefix {w' : List Symbol} (hn : n < w.length) (h : w.take (n + 1) <+: w') {j : Nat} (hj : j ≤ n) :
    ((ofSymbols w' e).drop j).head = ((ofSymbols w e).drop j).head := by
  obtain ⟨v, rfl⟩ := h
  have hlt : j < (w.take (n + 1)).length := by
    rw [List.length_take]
    omega
  have hget : (w.take (n + 1) ++ v)[j]? = some w[j] := by
    rw [List.getElem?_append_left hlt, List.getElem?_take_of_lt (by omega), List.getElem?_eq_getElem]
  rw [head_drop_of_getElem? hget, head_drop_of_getElem? (List.getElem?_eq_getElem _)]

end TokenStream

/-! ### Runs that pass over tokens -/

namespace Configuration

/-- The machine comes to a configuration by some moves, and passes over `n` tokens on the way. -/
inductive Passes (g : Grammar) (t : ParseTable) (c : Configuration) : Nat → Configuration → Prop
  | refl : Passes g t c 0 c
  | shift {n c' q} : Passes g t c n c' → c'.turn g t = .move (.shift q) →
      Passes g t c (n + 1) (c'.apply (.shift q))
  | reduce {n c' r popped q} : Passes g t c n c' → c'.turn g t = .move (.reduce r popped q) →
      Passes g t c n (c'.apply (.reduce r popped q))

variable {c c' : Configuration} {n : Nat}

theorem Passes.input (h : c.Passes g t n c') : c'.input = c.input.drop n := by
  induction h with
  | refl => rfl
  | @shift n c' q _ _ ih =>
      change c'.input.advance = c.input.drop (n + 1)
      rw [ih, TokenStream.advance_drop]
  | reduce _ _ ih => exact ih

theorem Passes.halts (h : c.Passes g t n c') {v : Verdict} (hv : c'.Halts g t v) : c.Halts g t v := by
  induction h with
  | refl => exact hv
  | shift _ hturn ih => exact ih (.of_move hturn hv)
  | reduce _ hturn ih => exact ih (.of_move hturn hv)

/-- What is passed over comes to what had been read before. -/
theorem Passes.reduced (hg : g.Proper u) (ht : t.Fits g) (h : c.Passes g t n c') {x γ : List Symbol}
    (hc : c.Reduced g t.automaton x γ) : ∃ x' γ', c'.Reduced g t.automaton x' γ' ∧ x'.length = x.length + n ∧
      x' ++ c'.input.rest = x ++ c.input.rest := by
  induction h with
  | refl => exact ⟨x, γ, hc, rfl, rfl⟩
  | @shift n c' q _ hturn ih =>
      obtain ⟨x', γ', hc', hlength, hx'⟩ := ih
      obtain ⟨hshift, hrest⟩ := hc'.shift hg ht (turn_eq_shift_iff.mp hturn)
      refine ⟨_, _, hshift, ?_, ?_⟩
      · rw [List.length_append, hlength, List.length_singleton, Nat.add_assoc]
      · rw [← hx', hrest, List.append_assoc]
        rfl
  | reduce _ hturn ih =>
      obtain ⟨x', γ', hc', hlength, hx'⟩ := ih
      obtain ⟨γ'', hreduce⟩ := hc'.reduce hg ht hturn
      exact ⟨x', γ'', hreduce, hlength, hx'⟩

/-- The same machine in front of another input. -/
def withInput (c : Configuration) (i : TokenStream) : Configuration := { c with input := i }

/-- Of the input, a turn sees the current token alone. -/
theorem turn_withInput {i : TokenStream} (h : i.head = c.input.head) : (c.withInput i).turn g t = c.turn g t := by
  unfold turn reduction top symbol withInput
  dsimp only
  rw [h]

/-- A run sees the tokens up to the current one. -/
theorem Passes.withInput (h : c.Passes g t n c') {i : TokenStream}
    (hi : ∀ j ≤ n, (i.drop j).head = (c.input.drop j).head) :
    (c.withInput i).Passes g t n (c'.withInput (i.drop n)) := by
  induction h with
  | refl => exact .refl
  | @shift n c' q hpasses hturn ih =>
      have hhead : (i.drop n).head = c'.input.head := by rw [hi n (Nat.le_succ n), hpasses.input]
      have hnext := (ih fun j hj => hi j (Nat.le_succ_of_le hj)).shift ((turn_withInput hhead).trans hturn)
      have hinput : (c'.withInput (i.drop n)).apply (.shift q) =
          (c'.apply (.shift q)).withInput (i.drop (n + 1)) := by
        unfold Configuration.withInput apply
        rw [TokenStream.advance_drop]
      rwa [hinput] at hnext
  | @reduce n c' r popped q hpasses hturn ih =>
      have hhead : (i.drop n).head = c'.input.head := by rw [hi n (Nat.le_refl n), hpasses.input]
      exact (ih hi).reduce ((turn_withInput hhead).trans hturn)

theorem token_eq_of_unexpected {token : Token} {s : StateId}
    (h : c.turn g t = .halt (.error (.unexpected token s))) : token = c.input.head := by
  rcases turn_cases g t c with ⟨q, _, hturn⟩ | ⟨r, rule, exposed, q, _, _, _, _, hturn⟩ | ⟨_, hturn⟩ |
    ⟨r, s', x, _, hturn⟩ | hturn <;> rw [hturn] at h <;> cases h
  rfl

/-- What the machine has read begins a form of a derivation. -/
theorem Reduced.exists_derives (hg : g.Proper u) {a : Automaton} (h : Automaton.ofGrammar g = .ok a)
    {x γ : List Symbol} (hc : c.Reduced g a x γ) : ∃ η, g.Derives [u] (x ++ η) := by
  obtain ⟨q, st, hstack⟩ := hc.spells.exists_cons
  have hspells := hstack ▸ hc.spells
  obtain ⟨items, i, hq, hi⟩ := hspells.exists_item h
  obtain ⟨η, hη⟩ := (hspells.valid hg h hq hi).exists_derives hg
  have hderives := hc.derives [] fun _ hs => absurd hs List.not_mem_nil
  rw [List.append_nil, List.append_nil] at hderives
  exact ⟨η, hη.trans ((Grammar.derives_of_deriveRightmost hderives).context [] η)⟩

end Configuration

theorem Round.Reaches.passes {r r' : Round} (h : r.Reaches g t r') : ∃ n, r.config.Passes g t n r'.config := by
  induction h with
  | refl => exact ⟨0, .refl⟩
  | tail _ hstep ih =>
      obtain ⟨n, hn⟩ := ih
      obtain ⟨m, hturn, _, hconfig⟩ := Round.step_eq_inl_iff.mp hstep
      rw [hconfig]
      cases m with
      | shift q => exact ⟨n + 1, hn.shift hturn⟩
      | reduce r popped q => exact ⟨n, hn.reduce hturn⟩

/-! ### The place of an error -/

section Error

variable {w : List Symbol} {token : Token} {s : StateId}

/-- Where a token is not expected, the machine has read all that stands before it. -/
theorem exists_passes_of_unexpected (hg : g.Proper u) (ht : t.Fits g) (hw : g.endSymbol ∉ w)
    (h : recognize g t (.ofSymbols w g.endSymbol) = .error (.unexpected token s)) :
    ∃ n c γ, n ≤ w.length ∧ (Configuration.ofInput (.ofSymbols w g.endSymbol)).Passes g t n c ∧
      c.turn g t = .halt (.error (.unexpected token s)) ∧ c.Reduced g t.automaton (w.take n) γ ∧
      token = ((TokenStream.ofSymbols w g.endSymbol).drop n).head := by
  obtain ⟨last, hreach, hlast⟩ := halts_of_recognize h (by simp)
  have hturn := Round.turn_of_step hlast (by simp)
  obtain ⟨n, hpasses⟩ := hreach.passes
  obtain ⟨x, γ, hreduced, hlength, hx⟩ :=
    hpasses.reduced hg ht (Configuration.reduced_ofInput t.automaton (.ofSymbols w g.endSymbol) rfl)
  rw [List.length_nil, Nat.zero_add] at hlength
  have hread : x ++ last.config.input.rest = w :=
    calc x ++ last.config.input.rest
        _ = (TokenStream.ofSymbols w g.endSymbol).rest := hx
        _ = w := TokenStream.rest_ofSymbols_of_not_mem hw
  have hn : n ≤ w.length := by
    rw [← hlength, ← hread, List.length_append]
    exact Nat.le_add_right _ _
  have htake : x = w.take n := by rw [← hread, ← hlength, List.take_left]
  refine ⟨n, last.config, γ, hn, hpasses, hturn, htake ▸ hreduced, ?_⟩
  rw [Configuration.token_eq_of_unexpected hturn, hpasses.input]
  rfl

/-- A sentence without conflicts cannot have the tokens that lead a run to an error. -/
theorem not_isSentence_of_error (hg : g.Proper u) (ht : t.Fits g) (hcomplete : t.Complete g)
    (hsets : g.HasSets nullable first) {n : Nat} {c : Configuration} {e : ParseError}
    (hpasses : (Configuration.ofInput (.ofSymbols w g.endSymbol)).Passes g t n c)
    (hturn : c.turn g t = .halt (.error e)) {w' : List Symbol}
    (hheads : ∀ j ≤ n, ((TokenStream.ofSymbols w' g.endSymbol).drop j).head =
      ((TokenStream.ofSymbols w g.endSymbol).drop j).head) : ¬ g.IsSentence u w' := by
  intro hsentence
  obtain ⟨d, hd⟩ := hg.exists_deriveRightmost hsentence
  have haccepts := recognize_eq_of_deriveRightmost hg ht hcomplete hsets hsentence.1 hd
  have hpasses' := hpasses.withInput hheads
  have hhead : ((TokenStream.ofSymbols w' g.endSymbol).drop n).head = c.input.head := by
    rw [hheads n (Nat.le_refl n), hpasses.input]
    rfl
  have hhalts := hpasses'.halts (.of_halt ((Configuration.turn_withInput hhead).trans hturn))
  have herror := ht.recognize_eq_of_halts hhalts
  rw [haccepts] at herror
  cases herror

end Error

/-- An unexpected token stands at the earliest place where that can be told. What stands before it begins
some form of a derivation. Without conflicts, no sentence begins with it and the token, and if the end of the
input is not expected, the input is no sentence. -/
theorem unexpected_earliest {calls : List Builder.Call} {g : AugmentedGrammar}
    (hbuild : (Builder.ofCalls calls).build = .ok g) :
    ∃ t, ParseTable.ofGrammar g.toGrammar = .ok t ∧ ∀ w token s, g.endSymbol ∉ w →
      recognize g.toGrammar t (.ofSymbols w g.endSymbol) = .error (.unexpected token s) →
      token.start ≤ w.length ∧
      (token.start < w.length → w[token.start]? = some token.symbol) ∧
      (token.start = w.length → token.symbol = g.endSymbol) ∧
      (∃ η, g.Derives [g.userStart] (w.take token.start ++ η)) ∧
      (t.isConflictFree →
        (token.start < w.length → ∀ w', g.IsSentence g.userStart w' → ¬ w.take (token.start + 1) <+: w') ∧
        (token.start = w.length → ¬ g.IsSentence g.userStart w)) := by
  have hg := Builder.proper_of_build hbuild
  have hsets := Builder.hasSets_of_build hbuild
  obtain ⟨t, htable, ht, hmet⟩ := ParseTable.exists_table hg
  refine ⟨t, htable, ?_⟩
  intro w token s hw h
  obtain ⟨n, c, γ, hn, hpasses, hturn, hreduced, htoken⟩ := exists_passes_of_unexpected hg ht hw h
  have hstart : token.start = n := by rw [htoken, TokenStream.start_head_drop hn]
  rw [hstart]
  refine ⟨hn, ?_, ?_, hreduced.exists_derives hg ht.automaton, ?_⟩
  · intro hlt
    rw [htoken, TokenStream.head_drop_of_getElem? (List.getElem?_eq_getElem hlt), List.getElem?_eq_getElem hlt]
  · intro heq
    rw [htoken, heq, TokenStream.head_drop_length]
  · intro hfree
    constructor
    · intro hlt w' hsentence hprefix
      exact not_isSentence_of_error hg ht (hmet hfree) hsets hpasses hturn
        (fun j hj => TokenStream.head_drop_of_prefix hlt hprefix hj) hsentence
    · intro _
      exact not_isSentence_of_error hg ht (hmet hfree) hsets hpasses hturn fun _ _ => rfl

/-- The second closing parenthesis of `( ) )` is unexpected, and no nested pairs begin so. -/
theorem unexpected_earliest_nested : (Builder.ofCalls nestedCalls).build = .ok nested ∧
    ∃ t, ParseTable.ofGrammar nested.toGrammar = .ok t ∧ t.isConflictFree ∧ nested.endSymbol ∉ [2, 3, 3, 2] ∧
      recognize nested.toGrammar t (.ofSymbols [2, 3, 3, 2] 0) = .error (.unexpected ⟨3, 2, 3⟩ 1) ∧
      (∃ η, nested.Derives [1] ([2, 3] ++ η)) ∧ ∀ w, nested.IsSentence 1 w → ¬ [2, 3, 3] <+: w := by
  have hbuild : (Builder.ofCalls nestedCalls).build = .ok nested := Builder.build_eq_ok (by cbv) (by cbv)
  have hrun : (ParseTable.ofGrammar nested.toGrammar).toOption.map (fun t =>
      (t.isConflictFree, recognize nested.toGrammar t (.ofSymbols [2, 3, 3, 2] 0))) =
      some (true, .error (.unexpected ⟨3, 2, 3⟩ 1)) := by
    simp only [nested, AugmentedGrammar.ofRules, ← Bool.cond_eq_ite]
    cbv
  have hw : nested.endSymbol ∉ [2, 3, 3, 2] := by decide
  obtain ⟨t, ht, herrors⟩ := unexpected_earliest hbuild
  rw [ht] at hrun
  obtain ⟨hfree, herror⟩ := Prod.mk.inj (Option.some.inj hrun)
  obtain ⟨_, _, _, hderives, hsentences⟩ := herrors _ _ _ hw herror
  exact ⟨hbuild, t, ht, hfree, hw, herror, hderives, (hsentences hfree).1 (by decide)⟩

end ShiftReduce
