import ShiftReduce.Grammar.Passes
import ShiftReduce.Proofs.Sets

/-! What passes do to a draft, whichever step they take for a rule, as long as a step only puts in what belongs to some
given sets. Drafts grow then, and they stay under these sets, so a pass that has changed anything leaves less to be
found, and the passes come to an end. The last one has changed nothing. So no step had anything to put in when it was
taken, and all of them were taken with the same draft, in which each rule has therefore shown all that it can. -/

namespace ShiftReduce

namespace Draft

/-- What the sets of the symbols can tell. -/
inductive Finding where
  | nullable (s : Symbol)
  | member (s x : Symbol)

def Finding.Holds (nullable : Symbol → Bool) (sets : Symbol → SymbolSet) : Finding → Prop
  | .nullable s => nullable s
  | .member s x => x ∈ sets s

instance (nullable : Symbol → Bool) (sets : Symbol → SymbolSet) : DecidablePred (Finding.Holds nullable sets)
  | .nullable s => inferInstanceAs (Decidable (nullable s = true))
  | .member s x => inferInstanceAs (Decidable (x ∈ sets s))

def Tells (d : Draft) (f : Finding) : Prop := f.Holds d.isNullable d.set

instance (d : Draft) : DecidablePred d.Tells := inferInstanceAs (DecidablePred (Finding.Holds d.isNullable d.set))

/-! ### Growing -/

/-- The second draft has come from the first one. It tells no less, and the flag shows whether it tells more. -/
structure Grows (d d' : Draft) : Prop where
  keeps : ∀ f, d.Tells f → d'.Tells f
  eq_of_unchanged : d'.changed = false → d' = d
  exists_new : d'.changed → d.changed ∨ ∃ f, d'.Tells f ∧ ¬ d.Tells f

theorem Grows.refl (d : Draft) : d.Grows d := ⟨fun _ h => h, fun _ => rfl, Or.inl⟩

/-- If the flag is raised at the end, one of the two changes has raised it, and what was new then is still there. -/
theorem Grows.trans {d d' d'' : Draft} (h : d.Grows d') (h' : d'.Grows d'') : d.Grows d'' where
  keeps := fun f hf => h'.keeps f (h.keeps f hf)
  eq_of_unchanged := by
    intro hunchanged
    obtain rfl := h'.eq_of_unchanged hunchanged
    exact h.eq_of_unchanged hunchanged
  exists_new := by
    intro hchanged
    rcases h'.exists_new hchanged with hchanged' | ⟨f, hf, hnew⟩
    · exact (h.exists_new hchanged').imp_right fun ⟨f, hf, hnew⟩ => ⟨f, h'.keeps f hf, hnew⟩
    · exact Or.inr ⟨f, hf, fun hold => hnew (h.keeps f hold)⟩

/-- A draft for `n` symbols that tells nothing but what holds of the given sets. -/
structure Under (n : Nat) (nullable : Symbol → Bool) (sets : Symbol → SymbolSet) (d : Draft) : Prop where
  size_nullable : d.nullable.size = n
  size_sets : d.sets.size = n
  holds : ∀ f, d.Tells f → f.Holds nullable sets

/-- The second draft tells one thing more than the first one, unless that one tells it as well. -/
structure Adds (f : Finding) (d d' : Draft) : Prop where
  size_nullable : d'.nullable.size = d.nullable.size
  size_sets : d'.sets.size = d.sets.size
  tells_iff : ∀ f', d'.Tells f' ↔ d.Tells f' ∨ f' = f
  eq_of_tells : d.Tells f → d' = d
  changed_of_new : ¬ d.Tells f → d'.changed

theorem Adds.grows {f : Finding} {d d' : Draft} (h : Adds f d d') : d.Grows d' where
  keeps := fun f' hf' => (h.tells_iff f').mpr (Or.inl hf')
  eq_of_unchanged := by
    intro hunchanged
    by_contra hne
    have hchanged := h.changed_of_new fun hold => hne (h.eq_of_tells hold)
    exact Bool.false_ne_true (hunchanged.symm.trans hchanged)
  exists_new := by
    intro hchanged
    by_cases hold : d.Tells f
    · exact Or.inl (h.eq_of_tells hold ▸ hchanged)
    · exact Or.inr ⟨f, (h.tells_iff f).mpr (Or.inr rfl), hold⟩

/-- If the flag is not raised, there was nothing to add. -/
theorem Adds.tells_of_unchanged {f : Finding} {d d' : Draft} (h : Adds f d d') (hunchanged : d'.changed = false) :
    d.Tells f := by
  by_contra hnew
  exact Bool.false_ne_true (hunchanged.symm.trans (h.changed_of_new hnew))

section Steps

variable {n : Nat} {nullable : Symbol → Bool} {sets : Symbol → SymbolSet} {α : Type} {step : Draft → α → Draft}

theorem Under.nullable_of {d : Draft} (hd : d.Under n nullable sets) {s : Symbol} (h : d.isNullable s) : nullable s :=
  hd.holds (.nullable s) h

theorem Under.all_nullable_of {d : Draft} (hd : d.Under n nullable sets) {l : List Symbol} (h : l.all d.isNullable) :
    l.all nullable :=
  List.all_eq_true.mpr fun s hs => hd.nullable_of (List.all_eq_true.mp h s hs)

/-- A draft sees no symbol lead a string that does not lead it. -/
theorem Under.mem_leading_of {d : Draft} (hd : d.Under n nullable sets) {l : List Symbol} {s : Symbol}
    (h : s ∈ Sets.leading d.isNullable l) : s ∈ Sets.leading nullable l := by
  obtain ⟨α, β, rfl, hα⟩ := Sets.mem_leading_iff.mp h
  exact Sets.mem_leading_iff.mpr ⟨α, β, rfl, hd.all_nullable_of hα⟩

theorem Under.mem_of {d : Draft} (hd : d.Under n nullable sets) {s x : Symbol} (h : x ∈ d.set s) : x ∈ sets s :=
  hd.holds (.member s x) h

/-- The second draft has come from the first one and is still under the given sets. -/
structure GrowsUnder (n : Nat) (nullable : Symbol → Bool) (sets : Symbol → SymbolSet) (d d' : Draft) : Prop where
  grows : d.Grows d'
  under : d'.Under n nullable sets

theorem GrowsUnder.trans {d d' d'' : Draft} (h : d.GrowsUnder n nullable sets d')
    (h' : d'.GrowsUnder n nullable sets d'') : d.GrowsUnder n nullable sets d'' :=
  ⟨h.grows.trans h'.grows, h'.under⟩

/-- The step for `a` makes a draft grow, but not beyond the given sets. -/
def Safe (n : Nat) (nullable : Symbol → Bool) (sets : Symbol → SymbolSet) (step : Draft → α → Draft) (a : α) : Prop :=
  ∀ d : Draft, d.Under n nullable sets → d.GrowsUnder n nullable sets (step d a)

theorem Adds.growsUnder {f : Finding} {d d' : Draft} (h : Adds f d d') (hf : f.Holds nullable sets)
    (hd : d.Under n nullable sets) : d.GrowsUnder n nullable sets d' := by
  refine ⟨h.grows, h.size_nullable.trans hd.size_nullable, h.size_sets.trans hd.size_sets, ?_⟩
  intro f' hf'
  rcases (h.tells_iff f').mp hf' with hf' | rfl
  · exact hd.holds f' hf'
  · exact hf

/-- Safe steps may be taken in any number. -/
theorem growsUnder_foldl {l : List α} (h : ∀ a ∈ l, Safe n nullable sets step a) {d : Draft}
    (hd : d.Under n nullable sets) : d.GrowsUnder n nullable sets (l.foldl step d) := by
  induction l generalizing d with
  | nil => exact ⟨.refl d, hd⟩
  | cons a l ih =>
      have hfirst := h a List.mem_cons_self d hd
      exact hfirst.trans (ih (fun b hb => h b (List.mem_cons_of_mem a hb)) hfirst.under)

/-- If some steps have changed nothing, none of them would have if it had been the first. -/
theorem unchanged_of_foldl {l : List α} (h : ∀ a ∈ l, Safe n nullable sets step a) {d : Draft}
    (hd : d.Under n nullable sets) (hunchanged : (l.foldl step d).changed = false) :
    ∀ a ∈ l, (step d a).changed = false := by
  induction l with
  | nil => exact fun _ ha => absurd ha List.not_mem_nil
  | cons a l ih =>
      have hrest : ∀ b ∈ l, Safe n nullable sets step b := fun b hb => h b (List.mem_cons_of_mem a hb)
      have hstep := h a List.mem_cons_self d hd
      have hlater := (growsUnder_foldl hrest hstep.under).grows.eq_of_unchanged hunchanged
      have hfirst : (step d a).changed = false := hlater ▸ hunchanged
      rw [List.foldl_cons, hstep.grows.eq_of_unchanged hfirst] at hunchanged
      exact List.forall_mem_cons.mpr ⟨hfirst, ih hrest hunchanged⟩

end Steps

/-! ### Putting something in -/

section Entering

variable {n : Nat} {nullable : Symbol → Bool} {sets : Symbol → SymbolSet} {s : Symbol}

theorem adds_enter {d : Draft} (hs : s < d.sets.size) (x : Symbol) : Adds (.member s x) d (d.enter s x) := by
  unfold enter
  split
  · rename_i hold
    refine ⟨rfl, rfl, fun f => (or_iff_left_of_imp ?_).symm, fun _ => rfl, fun hnew => absurd hold hnew⟩
    rintro rfl
    exact hold
  · rename_i hnew
    refine ⟨rfl, Array.size_modify, ?_, fun hold => absurd hold hnew, fun _ => rfl⟩
    intro f
    cases f with
    | nullable t => simp [Tells, Finding.Holds, isNullable]
    | member t y =>
        simp only [Tells, Finding.Holds, set, Array.getElem?_modify, Finding.member.injEq]
        split
        · rename_i heq
          subst heq
          rw [Array.getElem?_eq_getElem hs]
          simp only [Option.map_some, Option.getD_some, OrderedSet.mem_ofList, List.mem_cons, ← OrderedSet.mem_def,
            true_and, or_comm]
        · rename_i hne
          simp only [Ne.symm hne, false_and, or_false]

theorem adds_markNullable {d : Draft} (hs : s < d.nullable.size) : Adds (.nullable s) d (d.markNullable s) := by
  unfold markNullable
  split
  · rename_i hold
    refine ⟨rfl, rfl, fun f => (or_iff_left_of_imp ?_).symm, fun _ => rfl, fun hnew => absurd hold hnew⟩
    rintro rfl
    exact hold
  · rename_i hnew
    refine ⟨Array.size_setIfInBounds, rfl, ?_, fun hold => absurd hold hnew, fun _ => rfl⟩
    intro f
    cases f with
    | member t y => simp [Tells, Finding.Holds, set]
    | nullable t =>
        simp only [Tells, Finding.Holds, isNullable, Array.getElem?_setIfInBounds, Finding.nullable.injEq]
        split
        · rename_i heq
          subst heq
          simp [hs]
        · rename_i hne
          simp only [Ne.symm hne, or_false]

theorem safe_enter (hs : s < n) {x : Symbol} (hx : x ∈ sets s) : Safe n nullable sets (enter s) x :=
  fun _ hd => (adds_enter (hd.size_sets.symm ▸ hs) x).growsUnder hx hd

theorem safe_markNullable (hs : s < n) (h : nullable s) : Safe n nullable sets markNullable s :=
  fun _ hd => (adds_markNullable (hd.size_nullable.symm ▸ hs)).growsUnder h hd

theorem safe_enterAll (hs : s < n) {set : SymbolSet} (hset : ∀ x ∈ set, x ∈ sets s) :
    Safe n nullable sets (enterAll s) set :=
  fun _ hd => growsUnder_foldl (fun x hx => safe_enter hs (hset x hx)) hd

/-- Where nothing has been put in, the whole set is there. -/
theorem mem_of_enterAll {d : Draft} (hd : d.Under n nullable sets) (hs : s < n) {set : SymbolSet}
    (hset : ∀ x ∈ set, x ∈ sets s) (hunchanged : (d.enterAll s set).changed = false) : ∀ x ∈ set, x ∈ d.set s := by
  intro x hx
  have hstep := unchanged_of_foldl (fun y hy => safe_enter hs (hset y hy)) hd hunchanged x hx
  exact (adds_enter (hd.size_sets.symm ▸ hs) x).tells_of_unchanged hstep

theorem nullable_enter (d : Draft) (x : Symbol) : (d.enter s x).nullable = d.nullable := by
  unfold enter
  split <;> rfl

theorem nullable_enterAll (d : Draft) (set : SymbolSet) : (d.enterAll s set).nullable = d.nullable := by
  unfold enterAll
  induction set.toList generalizing d with
  | nil => rfl
  | cons x l ih => rw [List.foldl_cons, ih, nullable_enter]

/-- Going from symbol to symbol is putting in what can come first in each of the leading symbols. -/
theorem enterFirst_eq (first : Draft → Symbol → SymbolSet) (done : Draft → Draft) (d : Draft) (l : List Symbol) :
    enterFirst first s done d l =
      if l.all d.isNullable then done ((Sets.leading d.isNullable l).foldl (fun d t => d.enterAll s (first d t)) d)
      else (Sets.leading d.isNullable l).foldl (fun d t => d.enterAll s (first d t)) d := by
  induction l generalizing d with
  | nil => rfl
  | cons t l ih =>
      have hnullable : (d.enterAll s (first d t)).isNullable = d.isNullable := by
        unfold isNullable
        rw [nullable_enterAll]
      rw [enterFirst, ih, hnullable, Sets.leading, List.all_cons, List.foldl_cons]
      by_cases ht : d.isNullable t
      · rw [if_pos ht, if_pos ht, ht, Bool.true_and]
      · rw [if_neg ht, if_neg ht, Bool.eq_false_iff.mpr ht, Bool.false_and, List.foldl_nil]
        rfl

variable {first : Draft → Symbol → SymbolSet} {done : Draft → Draft} {l : List Symbol}

section

variable (hs : s < n)
  (hfirst : ∀ d : Draft, d.Under n nullable sets → ∀ t ∈ Sets.leading nullable l, ∀ x ∈ first d t, x ∈ sets s)

include hs hfirst

theorem safe_of_mem_leading {d : Draft} (hd : d.Under n nullable sets) :
    ∀ t ∈ Sets.leading d.isNullable l, Safe n nullable sets (fun d t => d.enterAll s (first d t)) t := by
  intro t ht d' hd'
  exact safe_enterAll hs (hfirst d' hd' t (hd.mem_leading_of ht)) d' hd'

variable (hdone : l.all nullable → ∀ d : Draft, d.Under n nullable sets → d.GrowsUnder n nullable sets (done d))

include hdone

/-- As far as a draft sees it, a string does not reach beyond what can come first in it. -/
theorem safe_enterFirst : Safe n nullable sets (enterFirst first s done) l := by
  intro d hd
  have hleading := growsUnder_foldl (safe_of_mem_leading hs hfirst hd) hd
  rw [enterFirst_eq]
  split
  · rename_i hall
    exact hleading.trans (hdone (hd.all_nullable_of hall) _ hleading.under)
  · exact hleading

/-- Where nothing has been put in, all that can come first is there. -/
theorem settled_of_enterFirst {d : Draft} (hd : d.Under n nullable sets)
    (hunchanged : (enterFirst first s done d l).changed = false) :
    (∀ t ∈ Sets.leading d.isNullable l, ∀ x ∈ first d t, x ∈ d.set s) ∧
      (l.all d.isNullable → (done d).changed = false) := by
  have hsafe := safe_of_mem_leading hs hfirst hd
  have hleading := growsUnder_foldl hsafe hd
  rw [enterFirst_eq] at hunchanged
  have hfold : ((Sets.leading d.isNullable l).foldl (fun d t => d.enterAll s (first d t)) d).changed = false := by
    split at hunchanged
    · rename_i hall
      have hgrows := (hdone (hd.all_nullable_of hall) _ hleading.under).grows
      exact hgrows.eq_of_unchanged hunchanged ▸ hunchanged
    · exact hunchanged
  constructor
  · intro t ht
    exact mem_of_enterAll hd hs (hfirst d hd t (hd.mem_leading_of ht)) (unchanged_of_foldl hsafe hd hfold t ht)
  · intro hall
    rwa [if_pos hall, hleading.grows.eq_of_unchanged hfold] at hunchanged

end

end Entering

/-! ### Passes -/

section Passes

variable {n : Nat} {nullable : Symbol → Bool} {sets : Symbol → SymbolSet} {step : Draft → Rule → Draft}
  {rules : List Rule}

/-- What a draft for `n` symbols may tell under the given sets. -/
def findings (n : Nat) (sets : Symbol → SymbolSet) : List Finding :=
  (List.range n).flatMap fun s => .nullable s :: (sets s).toList.map (.member s)

/-- A draft tells nothing of symbols that it is not for. -/
theorem Under.mem_findings {d : Draft} (hd : d.Under n nullable sets) {f : Finding} (hf : d.Tells f) :
    f ∈ findings n sets := by
  cases f with
  | nullable s =>
      have hs : s < n := by
        by_contra hle
        have hnone : d.nullable[s]? = none := Array.getElem?_eq_none (hd.size_nullable.symm ▸ Nat.not_lt.mp hle)
        simp [Tells, Finding.Holds, isNullable, hnone] at hf
      exact List.mem_flatMap.mpr ⟨s, List.mem_range.mpr hs, List.mem_cons_self⟩
  | member s x =>
      have hs : s < n := by
        by_contra hle
        have hnone : d.sets[s]? = none := Array.getElem?_eq_none (hd.size_sets.symm ▸ Nat.not_lt.mp hle)
        simp [Tells, Finding.Holds, set, hnone] at hf
      refine List.mem_flatMap.mpr ⟨s, List.mem_range.mpr hs, List.mem_cons_of_mem _ ?_⟩
      exact List.mem_map.mpr ⟨x, hd.mem_of hf, rfl⟩

/-- How much may still be found. -/
def remaining (n : Nat) (sets : Symbol → SymbolSet) (d : Draft) : Nat :=
  (findings n sets).countP fun f => ¬ d.Tells f

/-- Whatever is new is no longer left to be found. -/
theorem remaining_lt {d d' : Draft} (h : d.Grows d') (hd' : d'.Under n nullable sets)
    (hnew : ∃ f, d'.Tells f ∧ ¬ d.Tells f) : remaining n sets d' < remaining n sets d := by
  obtain ⟨f, hf, hnew⟩ := hnew
  refine countP_lt_countP ?_ (hd'.mem_findings hf) (decide_eq_true hnew) (by simpa using hf)
  intro f' _ hf'
  exact decide_eq_true fun hold => of_decide_eq_true hf' (h.keeps f' hold)

variable (hstep : ∀ r ∈ rules, Safe n nullable sets step r)

include hstep

/-- The passes come to an end. What is there at first is there at last, nothing is there that does not belong there,
and no rule has anything more to show. -/
theorem exists_loop_turn {d : Draft} (hd : d.Under n nullable sets) :
    ∃ last, loop (turn step rules) d = some last ∧ last.Under n nullable sets ∧ (∀ f, d.Tells f → last.Tells f) ∧
      ∀ r ∈ rules, (step last r).changed = false := by
  induction hsize : remaining n sets d using Nat.strong_induction_on generalizing d with
  | h size ih =>
      have hfresh : Under n nullable sets { d with changed := false } := ⟨hd.size_nullable, hd.size_sets, hd.holds⟩
      have hpass : GrowsUnder n nullable sets { d with changed := false } (d.pass step rules) :=
        growsUnder_foldl hstep hfresh
      by_cases hchanged : (d.pass step rules).changed
      · have hnew := (hpass.grows.exists_new hchanged).resolve_left Bool.false_ne_true
        have hless := remaining_lt hpass.grows hpass.under hnew
        obtain ⟨last, hlast, hunder, hkeeps, hsettled⟩ := ih _ (Nat.lt_of_lt_of_eq hless hsize) hpass.under rfl
        refine ⟨last, ?_, hunder, fun f hf => hkeeps f (hpass.grows.keeps f hf), hsettled⟩
        rw [loop, turn]
        simp only [hchanged, if_true]
        exact hlast
      · have hunchanged := Bool.eq_false_iff.mpr hchanged
        have hsame := hpass.grows.eq_of_unchanged hunchanged
        refine ⟨d.pass step rules, ?_, hpass.under, hpass.grows.keeps, ?_⟩
        · rw [loop, turn]
          simp only [hchanged, if_false, Bool.false_eq_true]
        · rw [hsame]
          exact unchanged_of_foldl hstep hfresh hunchanged

end Passes

theorem Under.getElem?_sets {n : Nat} {nullable : Symbol → Bool} {sets : Symbol → SymbolSet} {d : Draft}
    (hd : d.Under n nullable sets) {s : Symbol} (hs : s < n) : d.sets[s]? = some (d.set s) := by
  have hsize : s < d.sets.size := hd.size_sets.symm ▸ hs
  rw [set, Array.getElem?_eq_getElem hsize, Option.getD_some]

end Draft

end ShiftReduce
