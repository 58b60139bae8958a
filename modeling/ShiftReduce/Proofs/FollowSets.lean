import ShiftReduce.Proofs.FirstSets

/-! FOLLOW sets are exact as well. What follows a symbol has been found by going up from the end of a right-hand
side to its left-hand side, time and again, and then over to the next symbol in a right-hand side. Read backwards
this is a derivation, in which the symbol comes to stand next to what follows it, or at the very end. It may start
from any symbol, as the rules of a symbol that the start symbol never leads to count like all others. Passes over the
rules, with the FIRST sets that passes have come to, find no more and no less. -/

namespace ShiftReduce

namespace AugmentedGrammar

variable {g : AugmentedGrammar} {labels : Array String} {userRules : Array Rule} {u : Symbol}

/-- Where a step goes up from a symbol, the symbol can be the last one of what is derived. -/
theorem exists_derives_of_ends (hg : g = ofRules labels userRules u) {s above : Symbol} (h : above ∈ g.ends.get s) :
    ∃ δ, g.Derives [above] (δ ++ [s]) := by
  have hlt : s < g.symbolCount := Grouping.lt_of_mem_get_ofPairs h
  obtain ⟨rule, hrule, rfl, α, β, hrhs, hβ⟩ := Sets.mem_ends_iff.mp ((Grouping.mem_get_ofPairs hlt).mp h)
  obtain ⟨r, hrule⟩ := mem_rules_iff.mp hrule
  have hvanish : g.Derives rule.rhs (α ++ [s]) := by
    rw [hrhs]
    simpa using (derives_nil_of_all_nullable hg hβ).context (α ++ [s]) []
  exact ⟨α, (Grammar.derives_of_rule hrule).trans hvanish⟩

theorem exists_derives_of_reaches_ends (hg : g = ofRules labels userRules u) {s above : Symbol}
    (h : Sets.Reaches g.ends s above) : ∃ δ, g.Derives [above] (δ ++ [s]) := by
  induction h with
  | refl => exact ⟨[], .refl⟩
  | tail _ hstep ih =>
      obtain ⟨δ, hδ⟩ := ih
      obtain ⟨δ', hδ'⟩ := exists_derives_of_ends hg hstep
      have hinner := hδ.context δ' []
      rw [List.append_nil, List.append_nil, ← List.append_assoc] at hinner
      exact ⟨δ' ++ δ, hδ'.trans hinner⟩

/-- A symbol that can come next in a right-hand side stands there once the symbols in between have vanished. -/
theorem exists_derives_of_nexts (hg : g = ofRules labels userRules u) {s next : Symbol} (h : next ∈ g.nexts.get s) :
    ∃ r rule, g.rule? r = some rule ∧ next ∈ rule.rhs ∧ ∃ δ ρ, g.Derives [rule.lhs] (δ ++ s :: next :: ρ) := by
  have hlt : s < g.symbolCount := Grouping.lt_of_mem_get_ofPairs h
  obtain ⟨rule, hrule, α, β, hrhs, hnext⟩ := Sets.mem_nexts_iff.mp ((Grouping.mem_get_ofPairs hlt).mp h)
  obtain ⟨r, hrule⟩ := mem_rules_iff.mp hrule
  have hmem := hrhs ▸ List.mem_append_right α (List.mem_cons_of_mem s (Sets.mem_of_mem_leading hnext))
  obtain ⟨γ, ρ, rfl, hγ⟩ := Sets.mem_leading_iff.mp hnext
  have hvanish : g.Derives rule.rhs (α ++ s :: next :: ρ) := by
    rw [hrhs]
    simpa using (derives_nil_of_all_nullable hg hγ).context (α ++ [s]) (next :: ρ)
  exact ⟨r, rule, hrule, hmem, α, ρ, (Grammar.derives_of_rule hrule).trans hvanish⟩

theorem follows_iff_derives (hg : g = ofRules labels userRules u) (hproper : g.Proper u) {s x : Symbol}
    (hs : s < g.symbolCount) (hnonterminal : ¬ g.isTerminal s) : g.Follows s x ↔
      (x = g.endSymbol ∧ ∃ δ, g.Derives [g.startSymbol] (δ ++ [s])) ∨
        g.isTerminal x ∧ x ≠ g.endSymbol ∧ ∃ y < g.symbolCount, ∃ δ ρ, g.Derives [y] (δ ++ s :: x :: ρ) := by
  have hsets := hasSets hg hproper
  constructor
  · intro h
    rcases (follows_iff hg hs hnonterminal).mp h with ⟨rfl, hreach⟩ | ⟨above, next, hreach, hnext, hx⟩
    · exact Or.inl ⟨rfl, exists_derives_of_reaches_ends hg hreach⟩
    · obtain ⟨r, rule, hrule, hmem, δ, ρ, hrhs⟩ := exists_derives_of_nexts hg hnext
      obtain ⟨hterminal, β, hfirst⟩ := (mem_first_iff_derives hg hproper (hproper.rhs_lt hrule hmem)).mp hx
      obtain ⟨δ', habove⟩ := exists_derives_of_reaches_ends hg hreach
      have hend : g.endSymbol ≠ next := fun heq =>
        hproper.end_not_mem hrule (heq ▸ List.mem_cons_of_mem rule.lhs hmem)
      have hne : x ≠ g.endSymbol := fun heq =>
        hproper.end_not_mem_of_derives hend hfirst (heq ▸ List.mem_cons_self)
      refine Or.inr ⟨hterminal, hne, rule.lhs, hproper.symbols_lt hrule rule.lhs List.mem_cons_self,
        δ ++ δ', β ++ ρ, hrhs.trans ?_⟩
      have hleft := habove.context δ (next :: ρ)
      have hright := hfirst.context (δ ++ (δ' ++ [s])) ρ
      simp only [List.append_assoc, List.cons_append, List.nil_append] at hleft hright ⊢
      exact hleft.trans hright
  · rintro (⟨rfl, δ, hderives⟩ | ⟨hterminal, _, y, _, δ, ρ, hderives⟩)
    · exact hsets.follows_of_derives hproper hderives hnonterminal (Or.inr ⟨rfl, hsets.follow_start⟩)
    · exact hsets.follows_of_derives hproper hderives hnonterminal
        (Or.inl ⟨x, List.mem_cons_self, hsets.first_self hterminal⟩)

theorem isTerminal_of_follows (hg : g = ofRules labels userRules u) (hproper : g.Proper u) {s x : Symbol}
    (hs : s < g.symbolCount) (hnonterminal : ¬ g.isTerminal s) (hx : g.Follows s x) : g.isTerminal x := by
  rcases (follows_iff_derives hg hproper hs hnonterminal).mp hx with ⟨rfl, _⟩ | ⟨hterminal, _⟩
  · refine hproper.isTerminal_iff.mpr ⟨hproper.end_lt, fun r rule hrule hlhs => ?_⟩
    exact hproper.end_not_mem hrule (hlhs ▸ List.mem_cons_self)
  · exact hterminal

end AugmentedGrammar

/-- The passes that work them out, once the FIRST sets are there, come to an end for every grammar that is built, and
they leave the FOLLOW sets of the grammar. Every symbol has one, which is empty for a terminal. For any other symbol it
holds the end symbol if the start symbol derives something that ends in the symbol, and besides that the terminals that
come right after the symbol in something that can be derived at all. -/
theorem follow_exact {calls : List Builder.Call} {g : AugmentedGrammar}
    (hbuild : (Builder.ofCalls calls).build = .ok g) :
    (∃ d last, Draft.firstSets? g.symbolCount g.isTerminal g.rules.toList = some d ∧
      d.followSets? g.isTerminal g.startSymbol g.endSymbol g.rules.toList = some last ∧
      ∀ s < g.symbolCount, g.follow? s = last.sets[s]?) ∧
      ∀ s < g.symbolCount, ∃ follow, g.follow? s = some follow ∧ (g.isTerminal s → follow = ∅) ∧
        (¬ g.isTerminal s → ∀ x, x ∈ follow ↔
          (x = g.endSymbol ∧ ∃ δ, g.Derives [g.startSymbol] (δ ++ [s])) ∨
            g.isTerminal x ∧ x ≠ g.endSymbol ∧ ∃ y < g.symbolCount, ∃ δ ρ, g.Derives [y] (δ ++ s :: x :: ρ)) := by
  have hproper := Builder.proper_of_build hbuild
  have hg := Builder.eq_ofRules_of_build hbuild
  constructor
  · obtain ⟨d, hfirst, hsize, hnullable, hsets⟩ := AugmentedGrammar.exists_firstSets? hg hproper
    obtain ⟨last, hfollow, hlast⟩ := AugmentedGrammar.exists_followSets? hg hproper hsize hnullable hsets
    exact ⟨d, last, hfirst, hfollow, hlast⟩
  · intro s hs
    refine ⟨_, AugmentedGrammar.follow?_eq_some hg hs, fun hterminal => if_pos hterminal, ?_⟩
    intro hnonterminal x
    rw [← AugmentedGrammar.follows_iff_derives hg hproper hs hnonterminal]
    simp only [Grammar.Follows, AugmentedGrammar.follow?_eq_some hg hs, Option.some.injEq, exists_eq_left']

/-- A sign is followed by the first sign or digit of a number, since the number begins with other numbers, and a
number by another digit or the end. -/
theorem follow_exact_signs : (Builder.ofCalls signCalls).build = .ok signs ∧ 2 < signs.symbolCount ∧
    (∃ follow, signs.follow? 2 = some follow ∧ 3 ∈ follow ∧ 4 ∈ follow) ∧
      ∃ d last follow, Draft.firstSets? 6 signs.isTerminal signs.rules.toList = some d ∧
        d.followSets? signs.isTerminal 5 0 signs.rules.toList = some last ∧ last.sets[1]? = some follow ∧
        signs.follow? 1 = some follow ∧ 0 ∈ follow ∧ 4 ∈ follow := by
  have hbuild : (Builder.ofCalls signCalls).build = .ok signs := Builder.build_eq_ok (by cbv) (by cbv)
  have hcount : signs.symbolCount = 6 := AugmentedGrammar.symbolCount_ofRules
  have hsign : 2 < signs.symbolCount := by rw [hcount]; decide
  have hnumber : 1 < signs.symbolCount := by rw [hcount]; decide
  have hterminals : signs.isTerminal 3 ∧ signs.isTerminal 4 ∧ ¬ signs.isTerminal 2 ∧ ¬ signs.isTerminal 1 := by
    decide
  have hlonger : signs.Derives [1] [2, 1, 4] := .single ⟨1, ⟨1, [2, 1, 4]⟩, [], [], rfl, rfl, rfl⟩
  have hdigit : signs.Derives [1] [2, 4, 4] := hlonger.tail ⟨2, ⟨1, [4]⟩, [2], [4], rfl, rfl, rfl⟩
  have hminus : signs.Derives [1] [2, 3, 1, 4, 4] :=
    (hlonger.tail ⟨1, ⟨1, [2, 1, 4]⟩, [2], [4], rfl, rfl, rfl⟩).tail
      ⟨3, ⟨2, [3]⟩, [2], [1, 4, 4], rfl, rfl, rfl⟩
  obtain ⟨⟨d, last, hfirst, hfollow, hlast⟩, hexact⟩ := follow_exact hbuild
  obtain ⟨afterSign, hafterSign, _, hmemSign⟩ := hexact 2 hsign
  obtain ⟨afterNumber, hafterNumber, _, hmemNumber⟩ := hexact 1 hnumber
  have hmemSign := hmemSign hterminals.2.2.1
  have hmemNumber := hmemNumber hterminals.2.2.2
  refine ⟨hbuild, hsign, ⟨afterSign, hafterSign, ?_, ?_⟩, d, last, afterNumber, hcount ▸ hfirst, hfollow,
    (hlast 1 hnumber).symm.trans hafterNumber, hafterNumber, ?_, ?_⟩
  · exact (hmemSign 3).mpr (Or.inr ⟨hterminals.1, by decide, 1, hnumber, [], [1, 4, 4], hminus⟩)
  · exact (hmemSign 4).mpr (Or.inr ⟨hterminals.2.1, by decide, 1, hnumber, [], [4], hdigit⟩)
  · exact (hmemNumber 0).mpr (Or.inl ⟨rfl, [], .single ⟨0, ⟨5, [1]⟩, [], [], rfl, rfl, rfl⟩⟩)
  · exact (hmemNumber 4).mpr (Or.inr ⟨hterminals.2.1, by decide, 1, hnumber, [2], [], hlonger⟩)

end ShiftReduce
