import Mathlib.Data.Set.Function
import ShiftReduce.Proofs.Conflicts
import ShiftReduce.Proofs.FollowSets

/-! Grammars that differ only in how their symbols are numbered. Rules keep their numbers, so a rule of the one is
the rule of the same number of the other with its symbols renamed. A derivation can be renamed as a whole, and what
a FOLLOW set holds comes down to what can be derived, so these sets can be renamed too. Renaming can be undone, and so
all of this holds in both directions. -/

namespace ShiftReduce

def Rule.rename (π : Symbol → Symbol) (rule : Rule) : Rule := ⟨π rule.lhs, rule.rhs.map π⟩

theorem Rule.rename_rename {π ρ : Symbol → Symbol} {rule : Rule} (h : ∀ s ∈ rule.lhs :: rule.rhs, ρ (π s) = s) :
    (rule.rename π).rename ρ = rule := by
  obtain ⟨hlhs, hrhs⟩ := List.forall_mem_cons.mp h
  have hmap : (rule.rhs.map π).map ρ = rule.rhs := by
    rw [List.map_map]
    exact (List.map_congr_left hrhs).trans (List.map_id _)
  rw [rename, rename, hlhs, hmap]

/-- The symbols of the first grammar, renamed, are those of the second, and so are the rules. -/
structure Grammar.Renames (g g' : Grammar) (π : Symbol → Symbol) : Prop where
  bijOn : Set.BijOn π {s | s < g.symbolCount} {s | s < g'.symbolCount}
  startSymbol : π g.startSymbol = g'.startSymbol
  endSymbol : π g.endSymbol = g'.endSymbol
  rules : g'.rules = g.rules.map (Rule.rename π)

namespace Grammar.Renames

variable {g g' : Grammar} {π : Symbol → Symbol} {u u' : Symbol}

theorem lt (h : g.Renames g' π) {s : Symbol} (hs : s < g.symbolCount) : π s < g'.symbolCount := h.bijOn.mapsTo hs

theorem inj (h : g.Renames g' π) {s x : Symbol} (hs : s < g.symbolCount) (hx : x < g.symbolCount) :
    π s = π x ↔ s = x :=
  h.bijOn.injOn.eq_iff hs hx

theorem rule?_eq (h : g.Renames g' π) (r : RuleId) : g'.rule? r = (g.rule? r).map (Rule.rename π) := by
  rw [rule?, rule?, h.rules, Array.getElem?_map]

theorem rule? (h : g.Renames g' π) {r : RuleId} {rule : Rule} (hrule : g.rule? r = some rule) :
    g'.rule? r = some (rule.rename π) := by
  rw [h.rule?_eq, hrule]
  rfl

/-- Every rule of the second grammar is a renamed one. -/
theorem exists_rule (h : g.Renames g' π) {r : RuleId} {rule' : Rule} (hrule : g'.rule? r = some rule') :
    ∃ rule, g.rule? r = some rule ∧ rule' = rule.rename π := by
  rw [h.rule?_eq, Option.map_eq_some_iff] at hrule
  obtain ⟨rule, hrule, heq⟩ := hrule
  exact ⟨rule, hrule, heq.symm⟩

/-- Renaming can be undone. -/
theorem symm (h : g.Renames g' π) (hg : g.Proper u) :
    ∃ ρ, g'.Renames g ρ ∧ ∀ s < g.symbolCount, ρ (π s) = s := by
  have hinv := h.bijOn.invOn_invFunOn
  generalize Function.invFunOn π {s | s < g.symbolCount} = ρ at hinv
  have hback : ∀ s < g.symbolCount, ρ (π s) = s := fun s hs => hinv.1 hs
  have hstart := hg.symbols_lt hg.startRule g.startSymbol List.mem_cons_self
  refine ⟨ρ, ⟨h.bijOn.symm hinv.symm, ?_, ?_, ?_⟩, hback⟩
  · rw [← h.startSymbol, hback _ hstart]
  · rw [← h.endSymbol, hback _ hg.end_lt]
  · apply Array.ext_getElem?
    intro r
    rw [h.rules, Array.getElem?_map, Array.getElem?_map]
    cases hrule : g.rules[r]? with
    | none => rfl
    | some rule => exact congrArg some (Rule.rename_rename fun s hs => hback s (hg.symbols_lt hrule s hs)).symm

/-! ### Terminals and derivations -/

theorem isTerminal_iff (h : g.Renames g' π) (hg : g.Proper u) (hg' : g'.Proper u') {s : Symbol}
    (hs : s < g.symbolCount) : g'.isTerminal (π s) ↔ g.isTerminal s := by
  rw [hg.isTerminal_iff, hg'.isTerminal_iff, and_iff_right hs, and_iff_right (h.lt hs)]
  constructor
  · rintro hnone r rule hrule rfl
    exact hnone r _ (h.rule? hrule) rfl
  · intro hnone r rule' hrule' heq
    obtain ⟨rule, hrule, rfl⟩ := h.exists_rule hrule'
    exact hnone r rule hrule ((h.inj (hg.symbols_lt hrule _ List.mem_cons_self) hs).mp heq)

theorem derives (h : g.Renames g' π) {l l' : List Symbol} (hderives : g.Derives l l') :
    g'.Derives (l.map π) (l'.map π) := by
  refine hderives.lift (List.map π) ?_
  rintro _ _ ⟨r, rule, α, β, hrule, rfl, rfl⟩
  exact ⟨r, rule.rename π, α.map π, β.map π, h.rule? hrule, by simp [Rule.rename], by simp [Rule.rename]⟩

end Grammar.Renames

/-! ### What follows -/

namespace AugmentedGrammar

variable {g g' : AugmentedGrammar} {π : Symbol → Symbol} {calls calls' : List Builder.Call}

theorem lt_of_follows (hbuild : (Builder.ofCalls calls).build = .ok g) {s x : Symbol} (hs : s < g.symbolCount)
    (hnonterminal : ¬ g.isTerminal s) (hx : g.Follows s x) : x < g.symbolCount := by
  have hproper := Builder.proper_of_build hbuild
  have hterminal := isTerminal_of_follows (Builder.eq_ofRules_of_build hbuild) hproper hs hnonterminal hx
  exact (hproper.isTerminal_iff.mp hterminal).1

theorem follows_rename (hbuild : (Builder.ofCalls calls).build = .ok g)
    (hbuild' : (Builder.ofCalls calls').build = .ok g') (h : g.Renames g'.toGrammar π) {s x : Symbol}
    (hs : s < g.symbolCount) (hnonterminal : ¬ g.isTerminal s) (hx : g.Follows s x) : g'.Follows (π s) (π x) := by
  have hproper := Builder.proper_of_build hbuild
  have hproper' := Builder.proper_of_build hbuild'
  have hlt := lt_of_follows hbuild hs hnonterminal hx
  have hnonterminal' : ¬ g'.isTerminal (π s) := by rwa [h.isTerminal_iff hproper hproper' hs]
  refine (follows_iff_derives (Builder.eq_ofRules_of_build hbuild') hproper' (h.lt hs) hnonterminal').mpr ?_
  rcases (follows_iff_derives (Builder.eq_ofRules_of_build hbuild) hproper hs hnonterminal).mp hx with
    ⟨rfl, δ, hderives⟩ | ⟨hterminal, hne, y, hy, δ, ρ, hderives⟩
  · have hderives' := h.derives hderives
    rw [List.map_singleton, h.startSymbol, List.map_append] at hderives'
    exact Or.inl ⟨h.endSymbol, δ.map π, hderives'⟩
  · have hderives' := h.derives hderives
    rw [List.map_singleton, List.map_append] at hderives'
    refine Or.inr ⟨(h.isTerminal_iff hproper hproper' hlt).mpr hterminal, ?_, π y, h.lt hy, δ.map π, ρ.map π, hderives'⟩
    rwa [← h.endSymbol, Ne, h.inj hlt hproper.end_lt]

theorem follows_rename_iff (hbuild : (Builder.ofCalls calls).build = .ok g)
    (hbuild' : (Builder.ofCalls calls').build = .ok g') (h : g.Renames g'.toGrammar π) {s x : Symbol}
    (hs : s < g.symbolCount) (hx : x < g.symbolCount) (hnonterminal : ¬ g.isTerminal s) :
    g'.Follows (π s) (π x) ↔ g.Follows s x := by
  have hproper := Builder.proper_of_build hbuild
  have hproper' := Builder.proper_of_build hbuild'
  refine ⟨fun hfollows => ?_, follows_rename hbuild hbuild' h hs hnonterminal⟩
  -- Back again, by the renaming that undoes this one.
  obtain ⟨ρ, hρ, hback⟩ := h.symm hproper
  have hnonterminal' : ¬ g'.isTerminal (π s) := by rwa [h.isTerminal_iff hproper hproper' hs]
  have hfollows' := follows_rename hbuild' hbuild hρ (h.lt hs) hnonterminal' hfollows
  rwa [hback s hs, hback x hx] at hfollows'

end AugmentedGrammar

/-- One proper grammar is another with its symbols renamed, and whatever the table construction may ask about them
has the same answer. -/
structure Grammar.Mirrors (g g' : Grammar) (π : Symbol → Symbol) : Prop extends g.Renames g' π where
  proper : ∃ u, g.Proper u
  proper' : ∃ u, g'.Proper u
  startRule : g.startRule = 0
  startRule' : g'.startRule = 0
  isTerminal_iff : ∀ {s}, s < g.symbolCount → (g'.isTerminal (π s) ↔ g.isTerminal s)
  follows_iff : ∀ {s x}, s < g.symbolCount → x < g.symbolCount → ¬ g.isTerminal s →
    (g'.Follows (π s) (π x) ↔ g.Follows s x)
  lt_of_follows : ∀ {s x}, s < g.symbolCount → ¬ g.isTerminal s → g.Follows s x → x < g.symbolCount

theorem Builder.mirrors_of_renames {g g' : AugmentedGrammar} {π : Symbol → Symbol} {calls calls' : List Builder.Call}
    (hbuild : (Builder.ofCalls calls).build = .ok g) (hbuild' : (Builder.ofCalls calls').build = .ok g')
    (h : g.Renames g'.toGrammar π) : g.Mirrors g'.toGrammar π where
  toRenames := h
  proper := ⟨_, Builder.proper_of_build hbuild⟩
  proper' := ⟨_, Builder.proper_of_build hbuild'⟩
  startRule := Builder.startRule_of_build hbuild
  startRule' := Builder.startRule_of_build hbuild'
  isTerminal_iff := h.isTerminal_iff (Builder.proper_of_build hbuild) (Builder.proper_of_build hbuild')
  follows_iff := AugmentedGrammar.follows_rename_iff hbuild hbuild' h
  lt_of_follows := AugmentedGrammar.lt_of_follows hbuild

end ShiftReduce
