import ShiftReduce.Command.Basic
import ShiftReduce.Proofs.Augmentation
import ShiftReduce.Proofs.ErrorPosition
import ShiftReduce.Proofs.Termination

/-! What parsing an input comes to. Labels lead to symbols and symbols back to labels, since the labels of a grammar
differ, so whatever is said about a symbol of the input can be said about the label that was given for it. A token that
is not expected stands as far into the input as the machine has read, and tokens are counted from `1`. The machine
reduces by rules of the grammar only, so each reduction of an accepted input can be shown. -/

namespace ShiftReduce

/-! ### The labels of an input -/

namespace AugmentedGrammar

variable {g : AugmentedGrammar}

/-- A label stands for a terminal that can be part of an input. -/
def Denotes (g : AugmentedGrammar) (label : String) (s : Symbol) : Prop :=
  g.labels[s]? = some label ∧ g.isTerminal s ∧ s ≠ g.endSymbol

theorem label_endSymbol_of_build {calls : List Builder.Call} (h : (Builder.ofCalls calls).build = .ok g) :
    g.label g.endSymbol = Builder.endLabel := by
  have hfirst : (Builder.ofCalls calls).labels[0]? = some Builder.endLabel :=
    Builder.getElem?_foldl_perform calls rfl
  obtain ⟨hzero, hget⟩ := Array.getElem?_eq_some_iff.mp hfirst
  rw [Builder.eq_ofRules_of_build h]
  change ((Builder.ofCalls calls).labels.push _)[0]?.getD _ = _
  rw [Array.getElem?_push, if_neg (Nat.ne_of_lt hzero), hfirst, Option.getD_some]

theorem filter_symbol?_eq_some_iff (h : g.labels.toList.Nodup) {label : String} {s : Symbol} :
    ((g.symbol? label).filter fun s => g.isTerminal s && s != g.endSymbol) = some s ↔ g.Denotes label s := by
  rw [Option.filter_eq_some_iff, symbol?_eq_some_iff h, Denotes, Bool.and_eq_true, bne_iff_ne]

theorem filter_symbol?_eq_none_iff (h : g.labels.toList.Nodup) {label : String} :
    ((g.symbol? label).filter fun s => g.isTerminal s && s != g.endSymbol) = none ↔ ∀ s, ¬ g.Denotes label s := by
  rw [Option.eq_none_iff_forall_ne_some]
  exact forall_congr' fun s => not_congr (filter_symbol?_eq_some_iff h)

end AugmentedGrammar

namespace Command

variable {g : AugmentedGrammar}

theorem terminals_eq_ok_iff (h : g.labels.toList.Nodup) {labels : List String} {w : List Symbol} :
    terminals g labels = .ok w ↔ List.Forall₂ g.Denotes labels w := by
  induction labels generalizing w with
  | nil => simp [terminals, eq_comm]
  | cons label labels ih =>
      rw [terminals, List.forall₂_cons_left_iff]
      split
      · rename_i hnone
        rw [AugmentedGrammar.filter_symbol?_eq_none_iff h] at hnone
        simp [hnone]
      · rename_i s hsome
        have hs := (AugmentedGrammar.filter_symbol?_eq_some_iff h).mp hsome
        constructor
        · intro hmap
          obtain ⟨rest, hrest, rfl⟩ := exists_of_map_eq_ok hmap
          exact ⟨s, rest, hs, ih.mp hrest, rfl⟩
        · rintro ⟨s', rest, hs', hrest, rfl⟩
          obtain rfl := Option.some.inj (hsome.symm.trans ((AugmentedGrammar.filter_symbol?_eq_some_iff h).mpr hs'))
          rw [ih.mpr hrest]
          rfl

/-- The error is about the first label that stands for no terminal. -/
theorem terminals_eq_error_iff (h : g.labels.toList.Nodup) {labels : List String} {e : CommandError} :
    terminals g labels = .error e ↔ ∃ before label after, labels = before ++ label :: after ∧
      (∀ l ∈ before, ∃ s, g.Denotes l s) ∧ (∀ s, ¬ g.Denotes label s) ∧ e = .unknownTerminal label := by
  induction labels with
  | nil => simp [terminals]
  | cons label labels ih =>
      rw [terminals]
      split
      · rename_i hnone
        rw [AugmentedGrammar.filter_symbol?_eq_none_iff h] at hnone
        constructor
        · intro herror
          obtain rfl := Except.error.inj herror
          exact ⟨[], label, labels, rfl, by simp, hnone, rfl⟩
        · rintro ⟨before, label', after, heq, hbefore, -, rfl⟩
          cases before with
          | nil => rw [(List.cons.inj heq).1]
          | cons l before =>
              obtain ⟨s, hs⟩ := hbefore l List.mem_cons_self
              exact absurd ((List.cons.inj heq).1 ▸ hs) (hnone s)
      · rename_i s hsome
        have hs := (AugmentedGrammar.filter_symbol?_eq_some_iff h).mp hsome
        have hmap : (terminals g labels).map (s :: ·) = .error e ↔ terminals g labels = .error e := by
          cases terminals g labels <;> simp [Except.map]
        rw [hmap, ih]
        constructor
        · rintro ⟨before, label', after, rfl, hbefore, hlabel, rfl⟩
          exact ⟨label :: before, label', after, rfl, List.forall_mem_cons.mpr ⟨⟨s, hs⟩, hbefore⟩, hlabel, rfl⟩
        · rintro ⟨before, label', after, heq, hbefore, hlabel, rfl⟩
          cases before with
          | nil => exact absurd ((List.cons.inj heq).1 ▸ hs) (hlabel s)
          | cons l before =>
              exact ⟨before, label', after, (List.cons.inj heq).2, (List.forall_mem_cons.mp hbefore).2, hlabel, rfl⟩

theorem exists_terminals_eq_error_iff (h : g.labels.toList.Nodup) {labels : List String} :
    (∃ e, terminals g labels = .error e) ↔ ∃ label ∈ labels, ∀ s, ¬ g.Denotes label s := by
  constructor
  · rintro ⟨e, he⟩
    obtain ⟨before, label, after, rfl, -, hlabel, -⟩ := (terminals_eq_error_iff h).mp he
    exact ⟨label, by simp, hlabel⟩
  · rintro ⟨label, hmem, hlabel⟩
    cases hresult : terminals g labels with
    | error e => exact ⟨e, rfl⟩
    | ok w =>
        obtain ⟨i, hi, rfl⟩ := List.mem_iff_getElem.mp hmem
        have hdenotes := (terminals_eq_ok_iff h).mp hresult
        exact absurd (hdenotes.get hi (hdenotes.length_eq ▸ hi)) (hlabel _)

end Command

/-! ### The reductions of a run -/

section Reductions

variable {g : Grammar} {t : ParseTable}

theorem Configuration.rule?_apply {c : Configuration} {m : Move} (hturn : c.turn g t = .move m)
    (hc : ∀ r ∈ c.reductions, ∃ rule, g.rule? r = some rule) :
    ∀ r ∈ (c.apply m).reductions, ∃ rule, g.rule? r = some rule := by
  cases m with
  | shift q => exact hc
  | reduce r popped q =>
      obtain ⟨-, rule, -, hrule, -⟩ := turn_eq_reduce_iff.mp hturn
      exact List.forall_mem_cons.mpr ⟨⟨rule, hrule⟩, hc⟩

theorem Round.Reaches.rule? {r r' : Round} (h : r.Reaches g t r')
    (hr : ∀ k ∈ r.config.reductions, ∃ rule, g.rule? k = some rule) :
    ∀ k ∈ r'.config.reductions, ∃ rule, g.rule? k = some rule := by
  induction h with
  | refl => exact hr
  | tail _ hstep ih =>
      obtain ⟨m, hturn, -, hconfig⟩ := Round.step_eq_inl_iff.mp hstep
      rw [hconfig]
      exact Configuration.rule?_apply hturn ih

/-- A run reduces by rules of the grammar only, whatever the table says. -/
theorem rule?_of_recognize {input : TokenStream} {l : List RuleId} (h : recognize g t input = .ok l) :
    ∀ r ∈ l, ∃ rule, g.rule? r = some rule := by
  obtain ⟨last, hreach, hlast⟩ := halts_of_recognize_eq_ok h
  obtain ⟨-, rfl⟩ := Configuration.turn_eq_accept_iff.mp (Round.turn_eq_of_step_eq_ok hlast)
  intro r hr
  exact hreach.rule? (fun _ hk => absurd hk List.not_mem_nil) r (List.mem_reverse.mp hr)

/-- A line for each reduction, if there are such rules. -/
theorem Command.forall₂_reductionLines {l : List RuleId} (h : ∀ r ∈ l, ∃ rule, g.rule? r = some rule) :
    List.Forall₂ (fun r line => ∃ rule, g.rule? r = some rule ∧ line = s!"reduce ({r}) {g.ruleText rule}") l
      (reductionLines g l) := by
  induction l with
  | nil => exact .nil
  | cons r l ih =>
      obtain ⟨⟨rule, hrule⟩, hl⟩ := List.forall_mem_cons.mp h
      have hcons : reductionLines g (r :: l) = s!"reduce ({r}) {g.ruleText rule}" :: reductionLines g l := by
        rw [reductionLines, List.filterMap_cons, hrule]
        rfl
      rw [hcons]
      exact .cons ⟨rule, hrule, rfl⟩ (ih hl)

end Reductions

/-! ### The answer -/

/-- What is said to be unexpected is the token at the given place as its label was given, or the end of the input in
the place after all tokens. -/
theorem rejected_at_label {calls : List Builder.Call} {g : AugmentedGrammar}
    (hbuild : (Builder.ofCalls calls).build = .ok g) {t : ParseTable} (ht : t.Fits g.toGrammar) {labels : List String}
    {w : List Symbol} (hw : List.Forall₂ g.Denotes labels w) {e : ParseError}
    (hrun : recognize g.toGrammar t (Command.inputStream g.toGrammar w) = .error e) {state : StateId} {label : String}
    {position : Nat} (he : Command.describeError g.toGrammar e = .rejected state label position) :
    1 ≤ position ∧ position ≤ labels.length ∧ labels[position - 1]? = some label ∨
      position = labels.length + 1 ∧ label = Builder.endLabel := by
  have hend : g.endSymbol ∉ w := by
    intro hmem
    obtain ⟨i, hi, heq⟩ := List.mem_iff_getElem.mp hmem
    exact (hw.get (hw.length_eq ▸ hi) hi).2.2 heq
  cases e with
  | malformedTable s x => cases he
  | endless => cases he
  | unexpected token s =>
      obtain ⟨n, c, γ, hn, -, -, -, htoken⟩ := exists_passes_of_unexpected (Builder.proper_of_build hbuild) ht hend hrun
      simp only [Command.describeError, CommandError.rejected.injEq] at he
      obtain ⟨-, rfl, rfl⟩ := he
      rcases Nat.lt_or_eq_of_le hn with hlt | rfl
      · have hlt' : n < labels.length := hw.length_eq ▸ hlt
        have hdenotes : g.Denotes labels[n] w[n] := hw.get hlt' hlt
        rw [htoken, TokenStream.head_drop_of_getElem? (List.getElem?_eq_getElem hlt)]
        refine .inl ⟨Nat.le_add_left 1 n, hlt', ?_⟩
        rw [Nat.add_sub_cancel, List.getElem?_eq_getElem hlt', Grammar.label, hdenotes.1, Option.getD_some]
      · rw [htoken, TokenStream.head_drop_length]
        exact .inr ⟨by rw [hw.length_eq], AugmentedGrammar.label_endSymbol_of_build hbuild⟩

/-- What comes of an input for a grammar that is described by a text. If some label is not that of a terminal other
than the end symbol, the first such label is the error. Otherwise the labels lead to an input and back, and the machine
comes to a verdict on it. An error is told with labels. If it is a rejection, then either the position is that of a
token, counted from `1`, and the label is the one that was given there, or the end is unexpected and its place comes
after all tokens. If the input is accepted, there is one line for each reduction, in order. -/
theorem parse_answers {source : String} {g : AugmentedGrammar}
    (hsource : AugmentedGrammar.ofDescription source = .ok g) :
    ∃ t, ParseTable.ofGrammar g.toGrammar = .ok t ∧ ∀ labels : List String,
      ((∃ e, Command.terminals g labels = .error e) ↔ ∃ label ∈ labels, ∀ s, ¬ g.Denotes label s) ∧
      (∀ e, Command.terminals g labels = .error e →
        Command.run (.ok source) (.parse labels) = .fail e ∧
        ∃ before label after, labels = before ++ label :: after ∧ (∀ l ∈ before, ∃ s, g.Denotes l s) ∧
          (∀ s, ¬ g.Denotes label s) ∧ e = .unknownTerminal label) ∧
      ∀ w, Command.terminals g labels = .ok w → List.Forall₂ g.Denotes labels w ∧
        (∃ v, (Round.ofInput (Command.inputStream g.toGrammar w)).Halts g.toGrammar t v) ∧
        (∀ e, recognize g.toGrammar t (Command.inputStream g.toGrammar w) = .error e →
          Command.run (.ok source) (.parse labels) = .fail (Command.describeError g.toGrammar e) ∧
          ∀ state label position, Command.describeError g.toGrammar e = .rejected state label position →
            1 ≤ position ∧ position ≤ labels.length ∧ labels[position - 1]? = some label ∨
              position = labels.length + 1 ∧ label = Builder.endLabel) ∧
        ∀ rules, recognize g.toGrammar t (Command.inputStream g.toGrammar w) = .ok rules →
          Command.run (.ok source) (.parse labels) =
            .printLines (Command.reductionLines g.toGrammar rules ++ ["Accepted"]) ∧
          List.Forall₂ (fun r line => ∃ rule, g.rule? r = some rule ∧ line = s!"reduce ({r}) {g.ruleText rule}") rules
            (Command.reductionLines g.toGrammar rules) := by
  obtain ⟨calls, hbuild⟩ := AugmentedGrammar.exists_calls_of_ofDescription hsource
  have hnodup := AugmentedGrammar.nodup_labels_of_build hbuild
  obtain ⟨t, htable, ht, -⟩ := ParseTable.exists_table (Builder.proper_of_build hbuild)
  have hanswer : ∀ labels, Command.run (.ok source) (.parse labels) = Command.parseInput g t labels := by
    intro labels
    rw [Command.run, hsource]
    dsimp only
    rw [Command.answer, Command.withTable, htable]
  refine ⟨t, htable, fun labels => ⟨Command.exists_terminals_eq_error_iff hnodup, fun e he => ⟨?_, ?_⟩, fun w hw => ?_⟩⟩
  · rw [hanswer, Command.parseInput, he]
  · exact (Command.terminals_eq_error_iff hnodup).mp he
  · have hdenotes := (Command.terminals_eq_ok_iff hnodup).mp hw
    refine ⟨hdenotes, ht.exists_halts (Builder.proper_of_build hbuild) w,
      fun e hrun => ⟨?_, fun state label position => rejected_at_label hbuild ht hdenotes hrun⟩,
      fun rules hrun => ⟨?_, Command.forall₂_reductionLines (rule?_of_recognize hrun)⟩⟩
    · rw [hanswer, Command.parseInput, hw]
      dsimp only
      rw [hrun]
    · rw [hanswer, Command.parseInput, hw]
      dsimp only
      rw [hrun]

/-- A token too many, which is the third, a token that is missing, and a label that is that of no terminal. -/
theorem parse_answers_nested : AugmentedGrammar.ofDescription "pairs -> ( pairs ) |" = .ok nested ∧
    Command.run (.ok "pairs -> ( pairs ) |") (.parse ["(", ")", ")"]) = .fail (.rejected 1 ")" 3) ∧
    Command.run (.ok "pairs -> ( pairs ) |") (.parse ["(", "("]) = .fail (.rejected 3 "$end" 3) ∧
    Command.run (.ok "pairs -> ( pairs ) |") (.parse ["(", "pairs", "$end"]) = .fail (.unknownTerminal "pairs") ∧
    Command.run (.ok "pairs -> ( pairs ) |") (.parse ["(", ")"]) =
      .printLines ["reduce (2) pairs → ε", "reduce (1) pairs → ( pairs )", "Accepted"] := by
  have hsource : AugmentedGrammar.ofDescription "pairs -> ( pairs ) |" = .ok nested := by cbv
  have hruns : (ParseTable.ofGrammar nested.toGrammar).toOption.map (fun t =>
      (recognize nested.toGrammar t (Command.inputStream nested.toGrammar [2, 3, 3]),
        recognize nested.toGrammar t (Command.inputStream nested.toGrammar [2, 2]),
        recognize nested.toGrammar t (Command.inputStream nested.toGrammar [2, 3]))) =
      some (.error (.unexpected ⟨3, 2, 3⟩ 1), .error (.unexpected ⟨0, 2, 2⟩ 3), .ok [2, 1]) := by
    simp only [nested, AugmentedGrammar.ofRules, ← Bool.cond_eq_ite]
    cbv
  obtain ⟨t, htable, hanswers⟩ := parse_answers hsource
  rw [htable] at hruns
  simp only [Except.toOption, Option.map_some, Option.some.injEq, Prod.mk.injEq] at hruns
  obtain ⟨hmany, hfew, haccepted⟩ := hruns
  refine ⟨hsource, ?_, ?_, ?_, ?_⟩
  · exact (((hanswers _).2.2 [2, 3, 3] (by cbv)).2.2.1 _ hmany).1
  · exact (((hanswers _).2.2 [2, 2] (by cbv)).2.2.1 _ hfew).1
  · exact ((hanswers _).2.1 _ (by cbv)).1
  · exact (((hanswers _).2.2 [2, 3] (by cbv)).2.2.2 _ haccepted).1

end ShiftReduce
