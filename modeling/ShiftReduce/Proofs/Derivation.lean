import Mathlib.Data.List.DropRight
import Mathlib.Logic.Relation
import ShiftReduce.Proofs.Builder

/-! Derivations. A form is a string of symbols, and a symbol of it may be replaced by the right-hand
side of one of its rules. If only the rightmost symbol that is no terminal may be replaced, the rules
that are applied tell the whole derivation, and every string of terminals that can be derived at all
can be derived in this way as well. -/

namespace ShiftReduce

namespace Grammar

/-- One form comes from another by applying a rule somewhere. -/
def Rewrites (g : Grammar) (form form' : List Symbol) : Prop :=
  ∃ r rule α β, g.rule? r = some rule ∧ form = α ++ rule.lhs :: β ∧ form' = α ++ rule.rhs ++ β

def Derives (g : Grammar) : List Symbol → List Symbol → Prop := Relation.ReflTransGen g.Rewrites

def IsSentence (g : Grammar) (s : Symbol) (w : List Symbol) : Prop :=
  (∀ t ∈ w, g.isTerminal t) ∧ g.Derives [s] w

/-- The form after a rule has been applied to its rightmost symbol that is no terminal. That symbol
must be the left-hand side of the rule. -/
def rewriteRightmost (g : Grammar) (r : RuleId) (form : List Symbol) : Option (List Symbol) :=
  match g.rule? r with
  | none => none
  | some rule =>
    let before := form.rdropWhile g.isTerminal
    if before.getLast? = some rule.lhs then
      some (before.dropLast ++ rule.rhs ++ form.rtakeWhile g.isTerminal)
    else none

/-- The form after rules have been applied to it in turn, always to the rightmost symbol that is no
terminal. -/
def deriveRightmost (g : Grammar) : List RuleId → List Symbol → Option (List Symbol)
  | [], form => some form
  | r :: l, form => (g.rewriteRightmost r form).bind (g.deriveRightmost l)

variable {g : Grammar} {u : Symbol}

/-! ### Derivations in a context -/

theorem Rewrites.context {l l' : List Symbol} (h : g.Rewrites l l') (δ ρ : List Symbol) :
    g.Rewrites (δ ++ l ++ ρ) (δ ++ l' ++ ρ) := by
  obtain ⟨r, rule, α, β, hrule, rfl, rfl⟩ := h
  exact ⟨r, rule, δ ++ α, β ++ ρ, hrule, by simp, by simp⟩

/-- What stands around a form does not keep it from being derived further. -/
theorem Derives.context {l l' : List Symbol} (h : g.Derives l l') (δ ρ : List Symbol) :
    g.Derives (δ ++ l ++ ρ) (δ ++ l' ++ ρ) := by
  induction h with
  | refl => exact .refl
  | tail _ hstep ih => exact ih.tail (hstep.context δ ρ)

theorem derives_of_rule {r : RuleId} {rule : Rule} (hrule : g.rule? r = some rule) :
    g.Derives [rule.lhs] rule.rhs :=
  .single ⟨r, rule, [], [], hrule, rfl, (List.append_nil _).symm⟩

/-- A form derives the empty string if each of its symbols does. -/
theorem derives_nil {l : List Symbol} (h : ∀ s ∈ l, g.Derives [s] []) : g.Derives l [] := by
  induction l with
  | nil => exact .refl
  | cons s l ih =>
      have hs : g.Derives (s :: l) l := (h s List.mem_cons_self).context [] l
      exact hs.trans (ih fun s' hs' => h s' (List.mem_cons_of_mem s hs'))

/-! ### Rightmost steps -/

theorem rightmost_append {p : Symbol → Bool} {s : Symbol} (hs : ¬ p s) (α : List Symbol) {z : List Symbol}
    (hz : ∀ t ∈ z, p t) :
    (α ++ s :: z).rdropWhile p = α ++ [s] ∧ (α ++ s :: z).rtakeWhile p = z := by
  induction z using List.reverseRecOn with
  | nil => exact ⟨List.rdropWhile_concat_neg p α s hs, List.rtakeWhile_concat_neg p α s hs⟩
  | append_singleton z t ih =>
      have ht : p t := hz t (List.mem_append_right _ (List.mem_singleton_self t))
      obtain ⟨hdrop, htake⟩ := ih fun t' ht' => hz t' (List.mem_append_left _ ht')
      rw [← List.cons_append, ← List.append_assoc, List.rdropWhile_concat_pos p _ t ht,
        List.rtakeWhile_concat_pos p _ t ht, hdrop, htake]
      exact ⟨rfl, rfl⟩

theorem rewriteRightmost_append {r : RuleId} {rule : Rule} (hrule : g.rule? r = some rule)
    (hlhs : ¬ g.isTerminal rule.lhs) (α : List Symbol) {z : List Symbol} (hz : ∀ t ∈ z, g.isTerminal t) :
    g.rewriteRightmost r (α ++ rule.lhs :: z) = some (α ++ rule.rhs ++ z) := by
  obtain ⟨hdrop, htake⟩ := rightmost_append hlhs α hz
  rw [rewriteRightmost, hrule]
  dsimp only
  rw [hdrop, htake, if_pos List.getLast?_concat, List.dropLast_concat]

theorem rewriteRightmost_eq_some_iff {r : RuleId} {form form' : List Symbol} :
    g.rewriteRightmost r form = some form' ↔
      ∃ rule α z, g.rule? r = some rule ∧ ¬ g.isTerminal rule.lhs ∧ (∀ t ∈ z, g.isTerminal t) ∧
        form = α ++ rule.lhs :: z ∧ form' = α ++ rule.rhs ++ z := by
  constructor
  · intro h
    unfold rewriteRightmost at h
    split at h
    · cases h
    · rename_i rule hrule
      dsimp only at h
      split at h
      · rename_i hlast
        obtain ⟨α, hα⟩ := List.getLast?_eq_some_iff.mp hlast
        have hne : form.rdropWhile g.isTerminal ≠ [] := by
          rw [hα]
          exact List.append_ne_nil_of_right_ne_nil α (List.cons_ne_nil _ _)
        have hnonterminal := List.rdropWhile_last_not g.isTerminal form hne
        have hform := @List.rdropWhile_append_rtakeWhile _ g.isTerminal form
        simp only [hα, List.getLast_concat] at hnonterminal
        rw [hα, List.append_assoc] at hform
        rw [hα, List.dropLast_concat] at h
        exact ⟨rule, α, _, hrule, hnonterminal, fun t ht => List.mem_rtakeWhile_imp ht, hform.symm,
          (Option.some.inj h).symm⟩
      · cases h
  · rintro ⟨rule, α, z, hrule, hlhs, hz, rfl, rfl⟩
    exact rewriteRightmost_append hrule hlhs α hz

theorem deriveRightmost_cons {r : RuleId} {l : List RuleId} {form form' : List Symbol}
    (h : g.rewriteRightmost r form = some form') : g.deriveRightmost (r :: l) form = g.deriveRightmost l form' := by
  rw [deriveRightmost, h, Option.bind_some]

theorem deriveRightmost_append (l l' : List RuleId) (form : List Symbol) :
    g.deriveRightmost (l ++ l') form = (g.deriveRightmost l form).bind (g.deriveRightmost l') := by
  induction l generalizing form with
  | nil => rfl
  | cons r l ih =>
      rw [List.cons_append, deriveRightmost, deriveRightmost, Option.bind_assoc]
      exact congrArg _ (funext ih)

theorem deriveRightmost_concat_eq_some_iff {l : List RuleId} {r : RuleId} {form form' : List Symbol} :
    g.deriveRightmost (l ++ [r]) form = some form' ↔
      ∃ form₁, g.deriveRightmost l form = some form₁ ∧ g.rewriteRightmost r form₁ = some form' := by
  rw [deriveRightmost_append, Option.bind_eq_some_iff]
  simp only [deriveRightmost, Option.bind_fun_some]

theorem derives_of_deriveRightmost {l : List RuleId} {form form' : List Symbol}
    (h : g.deriveRightmost l form = some form') : g.Derives form form' := by
  induction l generalizing form with
  | nil =>
      obtain rfl := Option.some.inj h
      exact .refl
  | cons r l ih =>
      obtain ⟨form₁, hstep, hrest⟩ := Option.bind_eq_some_iff.mp h
      obtain ⟨rule, α, z, hrule, _, _, rfl, rfl⟩ := rewriteRightmost_eq_some_iff.mp hstep
      exact .head ⟨r, rule, α, z, hrule, rfl, rfl⟩ (ih hrest)

/-! ### Rightmost derivations of sentences -/

/-- A string of terminals is derived from a form symbol by symbol. -/
inductive Yields (g : Grammar) : List Symbol → List Symbol → Prop
  | nil : Yields g [] []
  | terminal {s l w} : g.isTerminal s → Yields g l w → Yields g (s :: l) (s :: w)
  | rule {r rule l v w} : g.rule? r = some rule → Yields g rule.rhs v → Yields g l w →
      Yields g (rule.lhs :: l) (v ++ w)

theorem yields_of_terminals {w : List Symbol} (hw : ∀ t ∈ w, g.isTerminal t) : g.Yields w w := by
  induction w with
  | nil => exact .nil
  | cons s w ih => exact .terminal (hw s List.mem_cons_self) (ih fun t ht => hw t (List.mem_cons_of_mem s ht))

theorem Yields.terminals {l w : List Symbol} (h : g.Yields l w) : ∀ t ∈ w, g.isTerminal t := by
  induction h with
  | nil => exact fun _ ht => absurd ht List.not_mem_nil
  | terminal hs _ ih => exact List.forall_mem_cons.mpr ⟨hs, ih⟩
  | rule _ _ _ ih ih' => exact List.forall_mem_append.mpr ⟨ih, ih'⟩

theorem Yields.append {l l' w w' : List Symbol} (h : g.Yields l w) (h' : g.Yields l' w') :
    g.Yields (l ++ l') (w ++ w') := by
  induction h with
  | nil => exact h'
  | terminal hs _ ih => exact .terminal hs ih
  | rule hrule hrhs _ _ ih =>
      rw [List.append_assoc]
      exact .rule hrule hrhs ih

theorem Yields.of_append {l l' w : List Symbol} (h : g.Yields (l ++ l') w) :
    ∃ v v', w = v ++ v' ∧ g.Yields l v ∧ g.Yields l' v' := by
  induction l generalizing w with
  | nil => exact ⟨[], w, rfl, .nil, h⟩
  | cons s l ih =>
      cases h with
      | terminal hs hl =>
          obtain ⟨v, v', rfl, hv, hv'⟩ := ih hl
          exact ⟨s :: v, v', rfl, .terminal hs hv, hv'⟩
      | rule hrule hrhs hl =>
          obtain ⟨v, v', rfl, hv, hv'⟩ := ih hl
          exact ⟨_ ++ v, v', (List.append_assoc _ v v').symm, .rule hrule hrhs hv, hv'⟩

theorem Yields.of_rewrites {form form' w : List Symbol} (hstep : g.Rewrites form form') (h : g.Yields form' w) :
    g.Yields form w := by
  obtain ⟨r, rule, α, β, hrule, rfl, rfl⟩ := hstep
  obtain ⟨v, v₃, rfl, hv, h₃⟩ := h.of_append
  obtain ⟨v₁, v₂, rfl, h₁, h₂⟩ := hv.of_append
  rw [List.append_assoc]
  exact h₁.append (.rule hrule h₂ h₃)

theorem yields_of_derives {form w : List Symbol} (h : g.Derives form w) (hw : ∀ t ∈ w, g.isTerminal t) :
    g.Yields form w := by
  induction h using Relation.ReflTransGen.head_induction_on with
  | refl => exact yields_of_terminals hw
  | head hstep _ ih => exact ih.of_rewrites hstep

/-- What a form yields can be derived from it by rightmost steps, and terminals to the right of it as
well as any symbols to the left of it do no harm. -/
theorem Yields.exists_deriveRightmost (hg : g.Proper u) {l w : List Symbol} (h : g.Yields l w) :
    ∃ d, ∀ α z, (∀ t ∈ z, g.isTerminal t) → g.deriveRightmost d (α ++ l ++ z) = some (α ++ w ++ z) := by
  induction h with
  | nil => exact ⟨[], fun α z _ => rfl⟩
  | @terminal s l w _ _ ih =>
      obtain ⟨d, hd⟩ := ih
      refine ⟨d, ?_⟩
      intro α z hz
      have hlater := hd (α ++ [s]) z hz
      simp only [List.append_assoc, List.cons_append, List.nil_append] at hlater ⊢
      exact hlater
  | @rule r rule l v w hrule _ hl ih ih' =>
      obtain ⟨d, hd⟩ := ih
      obtain ⟨d', hd'⟩ := ih'
      refine ⟨d' ++ r :: d, ?_⟩
      intro α z hz
      -- What stands to the right of the rule is derived first, so only terminals are left there.
      have hright := hd' (α ++ [rule.lhs]) z hz
      have hwz : ∀ t ∈ w ++ z, g.isTerminal t := List.forall_mem_append.mpr ⟨hl.terminals, hz⟩
      have hrewrite := rewriteRightmost_append hrule (hg.not_isTerminal_lhs hrule) α hwz
      simp only [List.append_assoc, List.cons_append, List.nil_append] at hright
      calc g.deriveRightmost (d' ++ r :: d) (α ++ rule.lhs :: l ++ z)
          _ = g.deriveRightmost (r :: d) (α ++ rule.lhs :: (w ++ z)) := by
            rw [deriveRightmost_append, List.append_assoc, List.cons_append, hright, Option.bind_some]
          _ = g.deriveRightmost d (α ++ rule.rhs ++ (w ++ z)) := deriveRightmost_cons hrewrite
          _ = some (α ++ v ++ (w ++ z)) := hd α (w ++ z) hwz
          _ = some (α ++ (v ++ w) ++ z) := by simp only [List.append_assoc]

theorem Proper.exists_deriveRightmost (hg : g.Proper u) {s : Symbol} {w : List Symbol} (h : g.IsSentence s w) :
    ∃ d, g.deriveRightmost d [s] = some w := by
  obtain ⟨d, hd⟩ := (yields_of_derives h.2 h.1).exists_deriveRightmost hg
  have := hd [] [] fun _ ht => absurd ht List.not_mem_nil
  simp only [List.nil_append, List.append_nil] at this
  exact ⟨d, this⟩

/-! ### What may come next to the right of a prefix -/

theorem append_eq_append_cons_iff {l l' δ ρ : List Symbol} {s : Symbol} : l ++ l' = δ ++ s :: ρ ↔
    (∃ ρ', l = δ ++ s :: ρ' ∧ ρ = ρ' ++ l') ∨ ∃ δ', δ = l ++ δ' ∧ l' = δ' ++ s :: ρ := by
  rw [List.append_eq_append_iff]
  constructor
  · rintro (⟨δ', rfl, rfl⟩ | ⟨m, rfl, hm⟩)
    · exact Or.inr ⟨δ', rfl, rfl⟩
    · rcases List.cons_eq_append_iff.mp hm with ⟨rfl, rfl⟩ | ⟨ρ', rfl, rfl⟩
      · exact Or.inr ⟨[], by simp, rfl⟩
      · exact Or.inl ⟨ρ', rfl, rfl⟩
  · rintro (⟨ρ', rfl, rfl⟩ | ⟨δ', rfl, rfl⟩)
    · exact Or.inr ⟨s :: ρ', rfl, rfl⟩
    · exact Or.inl ⟨δ', rfl, rfl⟩

/-- A rule may be applied right after a prefix: the prefix is that of a rule that has been entered,
up to a place where the left-hand side is expected. -/
inductive Entered (g : Grammar) : List Symbol → RuleId → Prop
  | start : Entered g [] g.startRule
  | step {δ r rule α β r' rule'} : Entered g δ r → g.rule? r = some rule → rule.rhs = α ++ rule'.lhs :: β →
      g.rule? r' = some rule' → Entered g (δ ++ α) r'

/-- A symbol may come right after a prefix. -/
def Expected (g : Grammar) (δ : List Symbol) (s : Symbol) : Prop :=
  ∃ δ' r rule α β, g.Entered δ' r ∧ g.rule? r = some rule ∧ rule.rhs = α ++ s :: β ∧ δ = δ' ++ α

theorem Entered.expected {δ α β : List Symbol} {r : RuleId} {rule : Rule} {s : Symbol} (h : g.Entered δ r)
    (hrule : g.rule? r = some rule) (hrhs : rule.rhs = α ++ s :: β) : g.Expected (δ ++ α) s :=
  ⟨δ, r, rule, α, β, h, hrule, hrhs, rfl⟩

theorem Expected.entered {δ : List Symbol} {r : RuleId} {rule : Rule} (h : g.Expected δ rule.lhs)
    (hrule : g.rule? r = some rule) : g.Entered δ r := by
  obtain ⟨δ', r', rule', α, β, hentered, hrule', hrhs, rfl⟩ := h
  exact hentered.step hrule' hrhs hrule

/-- In the form of a derivation, each symbol is expected unless it stands among the terminals at the
right end. -/
def Viable (g : Grammar) (form : List Symbol) : Prop :=
  ∀ δ s ρ, form = δ ++ s :: ρ → ¬ (∀ t ∈ s :: ρ, g.isTerminal t) → g.Expected δ s

theorem Viable.expected {α z : List Symbol} {s : Symbol} (h : g.Viable (α ++ s :: z)) (hs : ¬ g.isTerminal s) :
    g.Expected α s :=
  h α s z rfl fun hall => hs (hall s List.mem_cons_self)

/-- Where a rule is about to be applied, each symbol of the right-hand side and each one before it is
expected. -/
theorem Viable.expected_of_rule {α z : List Symbol} {r : RuleId} {rule : Rule} (h : g.Viable (α ++ rule.lhs :: z))
    (hrule : g.rule? r = some rule) (hlhs : ¬ g.isTerminal rule.lhs) {δ ρ : List Symbol} {s : Symbol}
    (hform : α ++ rule.rhs = δ ++ s :: ρ) : g.Expected δ s := by
  rcases append_eq_append_cons_iff.mp hform with ⟨ρ', rfl, rfl⟩ | ⟨δ', rfl, hrhs⟩
  · refine h δ s (ρ' ++ rule.lhs :: z) (by simp) fun hall => hlhs (hall rule.lhs ?_)
    exact List.mem_cons_of_mem s (List.mem_append_right ρ' List.mem_cons_self)
  · exact ((h.expected hlhs).entered hrule).expected hrule hrhs

theorem Proper.viable_of_deriveRightmost (hg : g.Proper u) {d : List RuleId} {form : List Symbol}
    (h : g.deriveRightmost d [u] = some form) : g.Viable form := by
  induction d using List.reverseRecOn generalizing form with
  | nil =>
      obtain rfl := Option.some.inj h
      intro δ s ρ hform _
      rcases List.singleton_eq_append_iff.mp hform with ⟨rfl, hu⟩ | ⟨_, hnil⟩
      · obtain ⟨rfl, rfl⟩ := List.cons_eq_cons.mp hu
        exact Entered.start.expected hg.startRule rfl
      · cases hnil
  | append_singleton d r ih =>
      obtain ⟨form', hd, hstep⟩ := deriveRightmost_concat_eq_some_iff.mp h
      obtain ⟨rule, α, z, hrule, hlhs, hz, rfl, rfl⟩ := rewriteRightmost_eq_some_iff.mp hstep
      intro δ s ρ hform hs
      rcases append_eq_append_cons_iff.mp hform with ⟨ρ', hleft, _⟩ | ⟨δ', rfl, rfl⟩
      · exact (ih hd).expected_of_rule hrule hlhs hleft
      · exact absurd (fun t ht => hz t (List.mem_append_right _ ht)) hs

theorem Expected.exists_rule {δ : List Symbol} {s : Symbol} (h : g.Expected δ s) :
    ∃ r rule, g.rule? r = some rule ∧ s ∈ rule.rhs := by
  obtain ⟨_, r, rule, α, β, _, hrule, hrhs, _⟩ := h
  exact ⟨r, rule, hrule, hrhs ▸ List.mem_append_right α List.mem_cons_self⟩

theorem Proper.end_ne (hg : g.Proper u) : g.endSymbol ≠ u := by
  obtain ⟨r, rule, hrule, rfl⟩ := hg.exists_rule
  exact fun heq => hg.end_not_mem hrule (heq ▸ List.mem_cons_self)

theorem Proper.end_not_mem_of_derives (hg : g.Proper u) {s : Symbol} (hs : g.endSymbol ≠ s) {form : List Symbol}
    (h : g.Derives [s] form) : g.endSymbol ∉ form := by
  induction h with
  | refl => exact fun hmem => hs (List.mem_singleton.mp hmem)
  | tail _ hstep ih =>
      obtain ⟨r, rule, α, β, hrule, rfl, rfl⟩ := hstep
      have hrhs := hg.end_not_mem hrule
      simp only [List.mem_append, List.mem_cons, not_or] at ih hrhs ⊢
      exact ⟨⟨ih.1, hrhs.2⟩, ih.2.2⟩

end Grammar

end ShiftReduce
