import ShiftReduce.Proofs.SetPasses

/-! The nullable symbols are those that derive the empty string, and the FIRST set of a symbol holds the
terminals that can come first in what it derives. What the sets hold is justified step by step as it gets
there, by the rule that put it there. What they leave out cannot be derived: they are closed under the rules,
so they may be followed back along a derivation, from the form in which a terminal has come first, or nothing
is left, to the symbol that the derivation started from. So much also holds of the sets that passes over the rules
come to in the end, which are the same. -/

namespace ShiftReduce

/-! ### Following the sets back along a derivation -/

namespace Grammar.HasSets

variable {g : Grammar} {nullable : Symbol → Bool} {first : Symbol → SymbolSet} {l l' : List Symbol}

theorem all_nullable_of_derives (hsets : g.HasSets nullable first) (h : g.Derives l l') (hl' : l'.all nullable) :
    l.all nullable := by
  induction h using Relation.ReflTransGen.head_induction_on with
  | refl => exact hl'
  | head hstep _ ih => exact hsets.all_nullable_of_rewrites hstep ih

theorem exists_leading_of_derives (hsets : g.HasSets nullable first) (h : g.Derives l l') {x : Symbol}
    (hx : ∃ s ∈ Sets.leading nullable l', x ∈ first s) : ∃ s ∈ Sets.leading nullable l, x ∈ first s := by
  induction h using Relation.ReflTransGen.head_induction_on with
  | refl => exact hx
  | head hstep _ ih => exact hsets.exists_leading_of_rewrites hstep ih

end Grammar.HasSets

/-! ### What the sets of a grammar hold -/

namespace AugmentedGrammar

variable {g : AugmentedGrammar} {labels : Array String} {userRules : Array Rule} {u : Symbol}

theorem derives_nil_of_isNullable (hg : g = ofRules labels userRules u) {s : Symbol} (hs : g.isNullable s) :
    g.Derives [s] [] := by
  have hmem : s ∈ Sets.nullableFrom g.rules.toList .empty := by
    subst hg
    exact Numbering.contains_iff.mp hs
  have hnone : ∀ s ∈ (.empty : Numbering Symbol), g.Derives [s] [] := fun _ hs => absurd hs Numbering.not_mem_empty
  refine Sets.nullableFrom_induction (P := fun s => g.Derives [s] []) ?_ hnone hmem
  intro rule hrule hrhs
  obtain ⟨r, hrule⟩ := mem_rules_iff.mp hrule
  exact (Grammar.derives_of_rule hrule).trans (Grammar.derives_nil hrhs)

theorem derives_nil_of_all_nullable (hg : g = ofRules labels userRules u) {l : List Symbol} (hl : l.all g.isNullable) :
    g.Derives l [] :=
  Grammar.derives_nil fun s hs => derives_nil_of_isNullable hg (List.all_eq_true.mp hl s hs)

theorem isNullable_iff_derives (hg : g = ofRules labels userRules u) (hproper : g.Proper u) {s : Symbol} :
    g.isNullable s ↔ g.Derives [s] [] := by
  constructor
  · exact derives_nil_of_isNullable hg
  · intro h
    have hall := (hasSets hg hproper).all_nullable_of_derives h rfl
    rwa [List.all_cons, List.all_nil, Bool.and_true] at hall

/-- A step from a symbol to one that can come first in place of it is a derivation: the symbols in between
vanish. -/
theorem exists_derives_of_begins (hg : g = ofRules labels userRules u) {s x : Symbol} (h : x ∈ g.begins.get s) :
    ∃ β, g.Derives [s] (x :: β) := by
  have hlt : s < g.symbolCount := Grouping.lt_of_mem_get_ofPairs h
  obtain ⟨rule, hrule, rfl, hx⟩ := Sets.mem_begins_iff.mp ((Grouping.mem_get_ofPairs hlt).mp h)
  obtain ⟨r, hrule⟩ := mem_rules_iff.mp hrule
  obtain ⟨α, β, hrhs, hα⟩ := Sets.mem_leading_iff.mp hx
  refine ⟨β, (Grammar.derives_of_rule hrule).trans ?_⟩
  rw [hrhs]
  exact (derives_nil_of_all_nullable hg hα).context [] (x :: β)

theorem exists_derives_of_reaches (hg : g = ofRules labels userRules u) {s x : Symbol}
    (h : Sets.Reaches g.begins s x) : ∃ β, g.Derives [s] (x :: β) := by
  induction h with
  | refl => exact ⟨[], .refl⟩
  | tail _ hstep ih =>
      obtain ⟨β, hβ⟩ := ih
      obtain ⟨β', hβ'⟩ := exists_derives_of_begins hg hstep
      exact ⟨β' ++ β, hβ.trans (hβ'.context [] β)⟩

theorem mem_first_iff_derives (hg : g = ofRules labels userRules u) (hproper : g.Proper u) {s x : Symbol}
    (hs : s < g.symbolCount) : x ∈ g.first s ↔ g.isTerminal x ∧ ∃ β, g.Derives [s] (x :: β) := by
  constructor
  · intro h
    obtain ⟨hreach, hterminal⟩ := (mem_first_iff hg hs).mp h
    exact ⟨hterminal, exists_derives_of_reaches hg hreach⟩
  · rintro ⟨hterminal, β, hderives⟩
    have hsets := hasSets hg hproper
    obtain ⟨s', hs', hx⟩ := hsets.exists_leading_of_derives hderives
      ⟨x, List.mem_cons_self, hsets.first_self hterminal⟩
    rw [Sets.leading, Sets.leading, ite_self, List.mem_singleton] at hs'
    exact hs' ▸ hx

theorem first?_eq_some (hg : g = ofRules labels userRules u) {s : Symbol} (hs : s < g.symbolCount) :
    g.first? s = some (g.first s) := by
  have hsize : s < g.firstSets.size := by
    subst hg
    rw [symbolCount_ofRules] at hs
    simpa [ofRules] using hs
  rw [first, first?, Array.getElem?_eq_getElem hsize]
  rfl

end AugmentedGrammar

/-- The passes that work them out come to an end for every grammar that is built, and they leave what the grammar has:
a symbol is nullable if and only if it derives the empty string, and every symbol has a FIRST set, of the terminals
that stand first in something that it derives. -/
theorem nullable_and_first_exact {calls : List Builder.Call} {g : AugmentedGrammar}
    (hbuild : (Builder.ofCalls calls).build = .ok g) :
    (∃ d, Draft.firstSets? g.symbolCount g.isTerminal g.rules.toList = some d ∧ d.isNullable = g.isNullable ∧
      d.sets = g.firstSets) ∧
      ∀ s < g.symbolCount, (g.isNullable s ↔ g.Derives [s] []) ∧
        ∃ first, g.first? s = some first ∧ ∀ x, x ∈ first ↔ g.isTerminal x ∧ ∃ β, g.Derives [s] (x :: β) := by
  have hproper := Builder.proper_of_build hbuild
  have hg := Builder.eq_ofRules_of_build hbuild
  constructor
  · obtain ⟨d, hpasses, _, hnullable, hsets⟩ := AugmentedGrammar.exists_firstSets? hg hproper
    exact ⟨d, hpasses, hnullable, hsets⟩
  · intro s hs
    refine ⟨AugmentedGrammar.isNullable_iff_derives hg hproper, g.first s, AugmentedGrammar.first?_eq_some hg hs, ?_⟩
    intro x
    exact AugmentedGrammar.mem_first_iff_derives hg hproper hs

/-- Digits, each of which may bring a sign before all that stand in front of it. -/
def signCalls : List Builder.Call :=
  [.addToken "number", .addToken "sign", .addToken "-", .addToken "digit", .addRule 1 [2, 1, 4], .addRule 1 [4],
    .addRule 2 [3], .addRule 2 [], .setStart 1]

def signs : AugmentedGrammar :=
  .ofRules #["$end", "number", "sign", "-", "digit"] #[⟨1, [2, 1, 4]⟩, ⟨1, [4]⟩, ⟨2, [3]⟩, ⟨2, []⟩] 1

/-- A sign may be left out, so a number, which is left recursive behind it, may begin with a sign or a digit. -/
theorem nullable_and_first_exact_signs : (Builder.ofCalls signCalls).build = .ok signs ∧
    2 < signs.symbolCount ∧ signs.isNullable 2 ∧
      ∃ d first, Draft.firstSets? 6 signs.isTerminal signs.rules.toList = some d ∧ d.isNullable 2 ∧
        signs.first? 1 = some first ∧ 3 ∈ first ∧ 4 ∈ first ∧ 2 ∉ first := by
  have hbuild : (Builder.ofCalls signCalls).build = .ok signs := Builder.build_eq_ok (by cbv) (by cbv)
  have hcount : signs.symbolCount = 6 := AugmentedGrammar.symbolCount_ofRules
  have hsign : 2 < signs.symbolCount := by rw [hcount]; decide
  have hnumber : 1 < signs.symbolCount := by rw [hcount]; decide
  have hterminals : signs.isTerminal 3 ∧ signs.isTerminal 4 ∧ ¬ signs.isTerminal 2 := by decide
  have hnone : signs.Derives [2] [] := .single ⟨4, ⟨2, []⟩, [], [], rfl, rfl, rfl⟩
  have hminus : signs.Derives [1] [3, 1, 4] :=
    .head ⟨1, ⟨1, [2, 1, 4]⟩, [], [], rfl, rfl, rfl⟩ (.single ⟨3, ⟨2, [3]⟩, [], [1, 4], rfl, rfl, rfl⟩)
  have hdigit : signs.Derives [1] [4] := .single ⟨2, ⟨1, [4]⟩, [], [], rfl, rfl, rfl⟩
  obtain ⟨⟨d, hpasses, hsame, _⟩, hexact⟩ := nullable_and_first_exact hbuild
  have hnullable : signs.isNullable 2 := (hexact 2 hsign).1.mpr hnone
  obtain ⟨_, first, hfirst, hmem⟩ := hexact 1 hnumber
  refine ⟨hbuild, hsign, hnullable, d, first, hcount ▸ hpasses, hsame ▸ hnullable, hfirst, ?_, ?_, ?_⟩
  · exact (hmem 3).mpr ⟨hterminals.1, [1, 4], hminus⟩
  · exact (hmem 4).mpr ⟨hterminals.2.1, [], hdigit⟩
  · exact fun h => hterminals.2.2 ((hmem 2).mp h).1

end ShiftReduce
