import ShiftReduce.Proofs.Drafts

/-! The passes over the rules of a grammar end with its sets. A rule shows only what the sets of the grammar hold, since
these are closed under the rules. Where no rule has anything more to show, the sets of the draft are closed as well:
what can come first passes from symbol to symbol as the rules have it, and what follows passes down from the left-hand
sides. So they hold all that the grammar has found by going over the same steps. -/

namespace ShiftReduce

namespace AugmentedGrammar

open Draft

variable {g : AugmentedGrammar} {labels : Array String} {userRules : Array Rule} {u : Symbol}

theorem mem_set_ofTerminals {count : Nat} {isTerminal : Symbol → Bool} {s x : Symbol} :
    x ∈ (Draft.ofTerminals count isTerminal).set s ↔ s < count ∧ isTerminal s ∧ x = s := by
  rw [Draft.set, Draft.ofTerminals, Array.getElem?_map, Array.getElem?_range]
  by_cases hs : s < count <;> by_cases ht : isTerminal s <;> simp [hs, ht]

theorem mem_set_ofEnd {d : Draft} {start endSymbol s x : Symbol} (h : start < d.sets.size) :
    x ∈ (d.ofEnd start endSymbol).set s ↔ s = start ∧ x = endSymbol := by
  rw [Draft.set, Draft.ofEnd, Array.getElem?_modify, Array.getElem?_replicate]
  by_cases hs : start = s
  · subst hs
    simp [h]
  · have hs' : s ≠ start := Ne.symm hs
    by_cases hlt : s < d.sets.size <;> simp [hs, hs', hlt]

theorem size_firstSets (hg : g = ofRules labels userRules u) : g.firstSets.size = g.symbolCount := by
  subst hg
  rw [symbolCount_ofRules]
  simp [ofRules]

theorem mem_nullableFrom_of_isNullable (hg : g = ofRules labels userRules u) {s : Symbol} (hs : g.isNullable s) :
    s ∈ Sets.nullableFrom g.rules.toList .empty := by
  subst hg
  exact Numbering.contains_iff.mp hs

section First

variable (hg : g = ofRules labels userRules u) (hproper : g.Proper u)

include hg hproper

theorem under_ofTerminals :
    (Draft.ofTerminals g.symbolCount g.isTerminal).Under g.symbolCount g.isNullable g.first := by
  refine ⟨Array.size_replicate, by simp [Draft.ofTerminals], ?_⟩
  intro f hf
  cases f with
  | nullable s =>
      exfalso
      simp only [Tells, Finding.Holds, Draft.isNullable, Draft.ofTerminals, Array.getElem?_replicate] at hf
      split at hf <;> cases hf
  | member s x =>
      obtain ⟨_, hterminal, rfl⟩ := mem_set_ofTerminals.mp hf
      exact (hasSets hg hproper).first_self hterminal

/-- A rule puts in only what belongs there. Where it puts in nothing, all that it shows is there. -/
theorem firstStep_spec {r : Rule} (hr : r ∈ g.rules.toList) :
    Safe g.symbolCount g.isNullable g.first firstStep r ∧
      ∀ d : Draft, d.Under g.symbolCount g.isNullable g.first → (d.firstStep r).changed = false →
        (∀ t ∈ Sets.leading d.isNullable r.rhs, ∀ x ∈ d.set t, x ∈ d.set r.lhs) ∧
          (r.rhs.all d.isNullable → d.isNullable r.lhs) := by
  obtain ⟨i, hrule⟩ := mem_rules_iff.mp hr
  have hsets := hasSets hg hproper
  have hlhs := hproper.symbols_lt hrule r.lhs List.mem_cons_self
  have hfirst : ∀ d : Draft, d.Under g.symbolCount g.isNullable g.first →
      ∀ t ∈ Sets.leading g.isNullable r.rhs, ∀ x ∈ d.set t, x ∈ g.first r.lhs :=
    fun d hd t ht x hx => hsets.first_lhs hrule ht (hd.mem_of hx)
  have hdone : r.rhs.all g.isNullable → Safe g.symbolCount g.isNullable g.first markNullable r.lhs :=
    fun hall => safe_markNullable hlhs (hsets.nullable_lhs hrule hall)
  refine ⟨safe_enterFirst hlhs hfirst hdone, fun d hd hunchanged => ?_⟩
  obtain ⟨hleading, hmarked⟩ := settled_of_enterFirst hlhs hfirst hdone hd hunchanged
  refine ⟨hleading, fun hall => ?_⟩
  exact (adds_markNullable (hd.size_nullable.symm ▸ hlhs)).tells_of_unchanged (hmarked hall)

/-- The passes that work out the nullable symbols and the FIRST sets come to an end, with those of the grammar. -/
theorem exists_firstSets? : ∃ d, Draft.firstSets? g.symbolCount g.isTerminal g.rules.toList = some d ∧
    d.nullable.size = g.symbolCount ∧ d.isNullable = g.isNullable ∧ d.sets = g.firstSets := by
  obtain ⟨d, hloop, hunder, hkeeps, hunchanged⟩ :=
    exists_loop_turn (fun _ hr => (firstStep_spec hg hproper hr).1) (under_ofTerminals hg hproper)
  have hsettled := fun r hr => (firstStep_spec hg hproper hr).2 d hunder (hunchanged r hr)
  have hnullable : d.isNullable = g.isNullable := by
    funext s
    refine Bool.eq_iff_iff.mpr ⟨hunder.nullable_of, fun hs => ?_⟩
    refine Sets.nullableFrom_induction (P := fun s => d.isNullable s) ?_
      (fun _ hs => absurd hs Numbering.not_mem_empty) (mem_nullableFrom_of_isNullable hg hs)
    intro r hr hrhs
    exact (hsettled r hr).2 (List.all_eq_true.mpr hrhs)
  have hreaches : ∀ s x, Sets.Reaches g.begins s x → g.isTerminal x → x ∈ d.set s := by
    intro s x hreach hterminal
    induction hreach using Relation.ReflTransGen.head_induction_on with
    | refl =>
        have hlt := (hproper.isTerminal_iff.mp hterminal).1
        exact hkeeps (.member x x) (mem_set_ofTerminals.mpr ⟨hlt, hterminal, rfl⟩)
    | head hstep _ ih =>
        have hlt := Grouping.lt_of_mem_get_ofPairs hstep
        obtain ⟨r, hr, rfl, hleading⟩ := Sets.mem_begins_iff.mp ((Grouping.mem_get_ofPairs hlt).mp hstep)
        rw [← hnullable] at hleading
        exact (hsettled r hr).1 _ hleading x ih
  refine ⟨d, hloop, hunder.size_nullable, hnullable, ?_⟩
  refine Array.ext (hunder.size_sets.trans (size_firstSets hg).symm) fun s hs hs' => ?_
  have hlt : s < g.symbolCount := hunder.size_sets ▸ hs
  have hset : d.set s = g.first s := by
    apply OrderedSet.ext_mem
    intro x
    constructor
    · exact hunder.mem_of
    · intro hx
      obtain ⟨hreach, hterminal⟩ := (mem_first_iff hg hlt).mp hx
      exact hreaches s x hreach hterminal
  rw [Draft.set, first, first?, Array.getElem?_eq_getElem hs, Array.getElem?_eq_getElem hs'] at hset
  exact hset

end First

/-- What follows a symbol, which is nothing if the symbol has no FOLLOW set. -/
def follow (g : AugmentedGrammar) (s : Symbol) : SymbolSet := (g.follow? s).getD ∅

theorem mem_follow_iff {s x : Symbol} : x ∈ g.follow s ↔ g.Follows s x := by
  rw [follow, Grammar.Follows]
  cases g.follow? s with
  | none => simp
  | some set => simp

/-- Above a nonterminal there are left-hand sides only. -/
theorem not_isTerminal_of_reaches_ends (hproper : g.Proper u) {s above : Symbol} (h : Sets.Reaches g.ends s above)
    (hs : ¬ g.isTerminal s) : ¬ g.isTerminal above := by
  cases h with
  | refl => exact hs
  | tail _ hstep =>
      have hlt := Grouping.lt_of_mem_get_ofPairs hstep
      obtain ⟨r, hr, rfl, _⟩ := Sets.mem_ends_iff.mp ((Grouping.mem_get_ofPairs hlt).mp hstep)
      obtain ⟨i, hrule⟩ := mem_rules_iff.mp hr
      exact hproper.not_isTerminal_lhs hrule

section Follow

variable (hg : g = ofRules labels userRules u) (hproper : g.Proper u)

include hg hproper

/-- What can be said of one place in a rule: only what follows the symbol there is put in, and where nothing is put in
it is all there. A terminal is passed over. -/
theorem followAt_spec {r : Rule} (hr : r ∈ g.rules.toList) {s : Symbol} {β : List Symbol}
    (hp : (s, β) ∈ Sets.splits r.rhs) :
    Safe g.symbolCount g.isNullable g.follow (followAt g.first g.isTerminal r.lhs) (s, β) ∧
      ∀ d : Draft, d.Under g.symbolCount g.isNullable g.follow →
        (followAt g.first g.isTerminal r.lhs d (s, β)).changed = false → ¬ g.isTerminal s →
          (∀ t ∈ Sets.leading d.isNullable β, ∀ x ∈ g.first t, x ∈ d.set s) ∧
            (β.all d.isNullable → ∀ x ∈ d.set r.lhs, x ∈ d.set s) := by
  obtain ⟨i, hrule⟩ := mem_rules_iff.mp hr
  obtain ⟨α, hrhs⟩ := Sets.mem_splits_iff.mp hp
  have hsets := hasSets hg hproper
  have hs := hproper.rhs_lt hrule (hrhs ▸ List.mem_append_right α List.mem_cons_self)
  by_cases hterminal : g.isTerminal s
  · refine ⟨fun d hd => ?_, fun _ _ _ hnonterminal => absurd hterminal hnonterminal⟩
    rw [followAt, if_pos hterminal]
    exact ⟨.refl d, hd⟩
  · have hfirst : ∀ d : Draft, d.Under g.symbolCount g.isNullable g.follow →
        ∀ t ∈ Sets.leading g.isNullable β, ∀ x ∈ g.first t, x ∈ g.follow s :=
      fun _ _ t ht x hx => mem_follow_iff.mpr (hsets.follow_next hrule hrhs hterminal ht hx)
    have hset : β.all g.isNullable → ∀ d : Draft, d.Under g.symbolCount g.isNullable g.follow →
        ∀ x ∈ d.set r.lhs, x ∈ g.follow s :=
      fun hall d hd x hx =>
        mem_follow_iff.mpr (hsets.follow_end hrule hrhs hterminal hall (mem_follow_iff.mp (hd.mem_of hx)))
    have hdone : β.all g.isNullable → ∀ d : Draft, d.Under g.symbolCount g.isNullable g.follow →
        d.GrowsUnder g.symbolCount g.isNullable g.follow (d.enterAll s (d.set r.lhs)) :=
      fun hall d hd => safe_enterAll hs (hset hall d hd) d hd
    have hstep : ∀ d, followAt g.first g.isTerminal r.lhs d (s, β) =
        enterFirst (fun _ => g.first) s (fun next => next.enterAll s (next.set r.lhs)) d β :=
      fun d => if_neg hterminal
    refine ⟨fun d hd => hstep d ▸ safe_enterFirst hs hfirst hdone d hd, fun d hd hunchanged _ => ?_⟩
    rw [hstep] at hunchanged
    obtain ⟨hleading, hlast⟩ := settled_of_enterFirst hs hfirst hdone hd hunchanged
    exact ⟨hleading, fun hall => mem_of_enterAll hd hs (hset (hd.all_nullable_of hall) d hd) (hlast hall)⟩

theorem safe_followStep {r : Rule} (hr : r ∈ g.rules.toList) :
    Safe g.symbolCount g.isNullable g.follow (followStep g.first g.isTerminal) r :=
  fun _ hd => growsUnder_foldl (fun _ hp => (followAt_spec hg hproper hr hp).1) hd

/-- Where a rule puts in nothing, what it shows of each nonterminal in it is there. -/
theorem settled_of_followStep {r : Rule} (hr : r ∈ g.rules.toList) {d : Draft}
    (hd : d.Under g.symbolCount g.isNullable g.follow)
    (hunchanged : (followStep g.first g.isTerminal d r).changed = false) {α β : List Symbol} {s : Symbol}
    (hrhs : r.rhs = α ++ s :: β) (hs : ¬ g.isTerminal s) :
    (∀ t ∈ Sets.leading d.isNullable β, ∀ x ∈ g.first t, x ∈ d.set s) ∧
      (β.all d.isNullable → ∀ x ∈ d.set r.lhs, x ∈ d.set s) := by
  have hp : (s, β) ∈ Sets.splits r.rhs := Sets.mem_splits_iff.mpr ⟨α, hrhs⟩
  have hstep := unchanged_of_foldl (fun _ hp => (followAt_spec hg hproper hr hp).1) hd hunchanged _ hp
  exact (followAt_spec hg hproper hr hp).2 d hd hstep hs

/-- Sets to which no rule has anything to add, and which hold the end, hold all that follows. -/
theorem mem_of_follows {d : Draft} (hd : d.Under g.symbolCount g.isNullable g.follow)
    (hnullable : d.isNullable = g.isNullable) (hend : g.endSymbol ∈ d.set g.startSymbol)
    (hunchanged : ∀ r ∈ g.rules.toList, (followStep g.first g.isTerminal d r).changed = false) {s x : Symbol}
    (hlt : s < g.symbolCount) (hs : ¬ g.isTerminal s) (hx : g.Follows s x) : x ∈ d.set s := by
  have hreaches : ∀ above, Sets.Reaches g.ends s above → x ∈ d.set above → x ∈ d.set s := by
    intro above hreach habove
    clear hlt hx
    induction hreach using Relation.ReflTransGen.head_induction_on with
    | refl => exact habove
    | head hstep _ ih =>
        have hlt := Grouping.lt_of_mem_get_ofPairs hstep
        obtain ⟨r, hr, rfl, α, β, hrhs, hβ⟩ := Sets.mem_ends_iff.mp ((Grouping.mem_get_ofPairs hlt).mp hstep)
        obtain ⟨i, hrule⟩ := mem_rules_iff.mp hr
        rw [← hnullable] at hβ
        have hlhs := ih (hproper.not_isTerminal_lhs hrule)
        exact (settled_of_followStep hg hproper hr hd (hunchanged r hr) hrhs hs).2 hβ x hlhs
  rcases (follows_iff hg hlt hs).mp hx with ⟨rfl, hreach⟩ | ⟨above, next, hreach, hnext, hx⟩
  · exact hreaches _ hreach hend
  · refine hreaches above hreach ?_
    have hlt := Grouping.lt_of_mem_get_ofPairs hnext
    obtain ⟨r, hr, α, β, hrhs, hleading⟩ := Sets.mem_nexts_iff.mp ((Grouping.mem_get_ofPairs hlt).mp hnext)
    rw [← hnullable] at hleading
    have habove := not_isTerminal_of_reaches_ends hproper hreach hs
    exact (settled_of_followStep hg hproper hr hd (hunchanged r hr) hrhs habove).1 next hleading x hx

theorem under_ofEnd {d : Draft} (hsize : d.nullable.size = g.symbolCount) (hsets : d.sets.size = g.symbolCount)
    (hnullable : d.isNullable = g.isNullable) :
    (d.ofEnd g.startSymbol g.endSymbol).Under g.symbolCount g.isNullable g.follow := by
  have hstart := hproper.symbols_lt hproper.startRule g.startSymbol List.mem_cons_self
  refine ⟨hsize, by simpa [Draft.ofEnd] using hsets, ?_⟩
  intro f hf
  cases f with
  | nullable s => exact (congrFun hnullable s).symm.trans hf
  | member s x =>
      obtain ⟨rfl, rfl⟩ := (mem_set_ofEnd (hsets.symm ▸ hstart)).mp hf
      exact mem_follow_iff.mpr (hasSets hg hproper).follow_start

/-- The passes that work out the FOLLOW sets come to an end as well, with those of the grammar. -/
theorem exists_followSets? {d : Draft} (hsize : d.nullable.size = g.symbolCount)
    (hnullable : d.isNullable = g.isNullable) (hsets : d.sets = g.firstSets) :
    ∃ last, d.followSets? g.isTerminal g.startSymbol g.endSymbol g.rules.toList = some last ∧
      ∀ s < g.symbolCount, g.follow? s = last.sets[s]? := by
  have hstart := hproper.symbols_lt hproper.startRule g.startSymbol List.mem_cons_self
  have hcount : d.sets.size = g.symbolCount := hsets ▸ size_firstSets hg
  have hfirst : d.set = g.first := by
    funext s
    rw [Draft.set, hsets]
    rfl
  obtain ⟨last, hloop, hunder, hkeeps, hunchanged⟩ :=
    exists_loop_turn (fun _ hr => safe_followStep hg hproper hr) (under_ofEnd hg hproper hsize hcount hnullable)
  have hsame : last.isNullable = g.isNullable := by
    funext s
    refine Bool.eq_iff_iff.mpr ⟨hunder.nullable_of, fun hs => hkeeps (.nullable s) ?_⟩
    exact (congrFun hnullable s).trans hs
  have hend : g.endSymbol ∈ last.set g.startSymbol :=
    hkeeps (.member g.startSymbol g.endSymbol) ((mem_set_ofEnd (hcount.symm ▸ hstart)).mpr ⟨rfl, rfl⟩)
  refine ⟨last, by rw [followSets?, hfirst, hloop], fun s hs => ?_⟩
  have hfollow := follow?_eq_some hg hs
  have hset : g.follow s = last.set s := by
    apply OrderedSet.ext_mem
    intro x
    refine ⟨fun hx => ?_, hunder.mem_of⟩
    have hnonterminal : ¬ g.isTerminal s := by
      intro hterminal
      rw [follow, hfollow, if_pos hterminal] at hx
      exact OrderedSet.not_mem_empty hx
    exact mem_of_follows hg hproper hunder hsame hend hunchanged hs hnonterminal (mem_follow_iff.mp hx)
  rw [hunder.getElem?_sets hs, ← hset, follow, hfollow]
  rfl

end Follow

end AugmentedGrammar

end ShiftReduce
