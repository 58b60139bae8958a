import Mathlib.Computability.TuringMachine.StackTuringMachine
import Mathlib.Data.List.Forall2
import ShiftReduce.Description.Reader
import ShiftReduce.Proofs.Builder

-- `cbv` takes arrows off by the equations of `List.tail` in `StackTuringMachine`.

/-! What the reader makes of rules that are given by labels. It registers the labels as they come and looks them
up when they come again, so the builder holds each of them once, in the order in which they came first, and its
rules, spelled by its labels, are the rules that were given. A symbol that is registered keeps its label, whatever
comes later. The grammar in the end has one label more, which is the start label with primes at its end. Whatever a
description says, all that the reader does with it is to call its builder. -/

namespace ShiftReduce

theorem exists_of_map_eq_ok {ε α β : Type} {x : Except ε α} {f : α → β} {b : β} (h : x.map f = .ok b) :
    ∃ a, x = .ok a ∧ f a = b := by
  cases x with
  | error e => cases h
  | ok a => exact ⟨a, rfl, Except.ok.inj h⟩

theorem exists_of_bind_eq_ok {ε α β : Type} {x : Except ε α} {f : α → Except ε β} {b : β} (h : x.bind f = .ok b) :
    ∃ a, x = .ok a ∧ f a = .ok b := by
  cases x with
  | error e => cases h
  | ok a => exact ⟨a, rfl, h⟩

theorem eq_ok_of_mapError {ε ε' α : Type} {x : Except ε α} {f : ε → ε'} {a : α} (h : x.mapError f = .ok a) :
    x = .ok a := by
  cases x with
  | error e => cases h
  | ok a' => exact congrArg _ (Except.ok.inj h)

/-- A rule that is written by the labels of its symbols. -/
abbrev SpelledRule := String × List String

/-- The labels of the left-hand side and of the right-hand side are those of the spelled rule. -/
def Rule.Spells (labels : Array String) (rule : Rule) (text : SpelledRule) : Prop :=
  labels[rule.lhs]? = some text.1 ∧ List.Forall₂ (fun (s : Symbol) label => labels[s]? = some label) rule.rhs text.2

theorem Rule.Spells.mono {labels labels' : Array String}
    (hlabels : ∀ (s : Symbol) (label : String), labels[s]? = some label → labels'[s]? = some label) {rule : Rule}
    {text : SpelledRule} (h : rule.Spells labels text) : rule.Spells labels' text :=
  ⟨hlabels _ _ h.1, h.2.imp hlabels⟩

namespace RuleLine

/-- The names of a line in the order in which they stand there. -/
def names (line : RuleLine) : List String := line.lhs :: line.alternatives.flatten

/-- The rules of a line, one for each alternative. -/
def spelledRules (line : RuleLine) : List SpelledRule := line.alternatives.map (line.lhs, ·)

end RuleLine

namespace Builder

/-! ### Registering labels -/

theorem eraseDups_concat (l : List String) (a : String) :
    (l ++ [a]).eraseDups = if a ∈ l then l.eraseDups else l.eraseDups ++ [a] := by
  rw [List.eraseDups_append, List.removeAll]
  split <;> simp [*, List.eraseDups_cons]

theorem Indexed.symbol?_eq_none_iff {b : Builder} (h : b.Indexed) {label : String} :
    b.symbol? label = none ↔ label ∉ b.labels := by
  rw [Option.eq_none_iff_forall_ne_some, Array.mem_iff_getElem?, not_exists]
  exact forall_congr' fun s => not_congr (h label s)

theorem addToken_of_mem {b : Builder} (h : b.Indexed) {label : String} (hlabel : label ∈ b.labels) :
    (b.addToken label).2 = b := by
  rw [addToken]
  split
  · rfl
  · rename_i hnone
    exact absurd hlabel (h.symbol?_eq_none_iff.mp hnone)

theorem labels_addToken {b : Builder} (h : b.Indexed) (label : String) :
    (b.addToken label).2.labels = if label ∈ b.labels then b.labels else b.labels.push label := by
  split
  · rw [addToken_of_mem h ‹_›]
  · rw [addToken, h.symbol?_eq_none_iff.mpr ‹_›]

theorem rules_addToken (b : Builder) (label : String) : (b.addToken label).2.rules = b.rules := by
  rw [addToken]
  split <;> rfl

/-- The symbol that is given for a label has this label. -/
theorem label_addToken {b : Builder} (h : b.Indexed) (label : String) :
    (b.addToken label).2.labels[(b.addToken label).1]? = some label := by
  rw [addToken]
  split
  · exact (h _ _).mp ‹_›
  · exact Array.getElem?_push_size

/-- Symbols keep their labels. -/
theorem getElem?_addToken {b : Builder} {s : Symbol} {label : String} (label' : String)
    (h : b.labels[s]? = some label) : (b.addToken label').2.labels[s]? = some label := by
  rw [addToken]
  split
  · exact h
  · rw [Array.getElem?_push, if_neg (Nat.ne_of_lt (Array.getElem?_eq_some_iff.mp h).1)]
    exact h

theorem getElem?_addTokens {b : Builder} {s : Symbol} {label : String} (labels : List String)
    (h : b.labels[s]? = some label) : (b.addTokens labels).2.labels[s]? = some label := by
  induction labels generalizing b with
  | nil => exact h
  | cons label' labels ih => exact ih (getElem?_addToken label' h)

theorem labels_addTokens {b : Builder} (h : b.Indexed) (labels : List String) :
    List.Forall₂ (fun (s : Symbol) label => (b.addTokens labels).2.labels[s]? = some label) (b.addTokens labels).1
      labels := by
  induction labels generalizing b with
  | nil => exact .nil
  | cons label labels ih =>
      exact .cons (getElem?_addTokens labels (label_addToken h label)) (ih (h.addToken label))

/-! ### What a builder holds -/

/-- A builder holds the labels that were seen, once each and in the order in which they came first, and these
rules. -/
structure Holds (b : Builder) (seen : List String) (rules : List SpelledRule) : Prop where
  indexed : b.Indexed
  labels : b.labels.toList = (endLabel :: seen).eraseDups
  rules : List.Forall₂ (Rule.Spells b.labels) b.rules.toList rules

namespace Holds

variable {b : Builder} {seen : List String} {rules : List SpelledRule}

theorem empty : Builder.empty.Holds [] [] where
  indexed := indexed_empty
  labels := rfl
  rules := .nil

theorem mem_labels (h : b.Holds seen rules) {label : String} : label ∈ b.labels ↔ label ∈ endLabel :: seen := by
  rw [← Array.mem_toList_iff, h.labels, List.mem_eraseDups]

theorem addToken (h : b.Holds seen rules) (label : String) : (b.addToken label).2.Holds (seen ++ [label]) rules where
  indexed := h.indexed.addToken label
  labels := by
    rw [← List.cons_append, eraseDups_concat, ← h.labels, labels_addToken h.indexed]
    by_cases hlabel : label ∈ b.labels
    · rw [if_pos hlabel, if_pos (h.mem_labels.mp hlabel)]
    · rw [if_neg hlabel, if_neg fun hmem => hlabel (h.mem_labels.mpr hmem), Array.toList_push]
  rules := by
    rw [rules_addToken]
    exact h.rules.imp fun _ _ => Rule.Spells.mono fun s l => getElem?_addToken label

theorem addTokens (h : b.Holds seen rules) (labels : List String) :
    (b.addTokens labels).2.Holds (seen ++ labels) rules := by
  induction labels generalizing b seen with
  | nil => rwa [List.append_nil]
  | cons label labels ih =>
      have hrest := ih (h.addToken label)
      rwa [List.append_assoc, List.singleton_append] at hrest

theorem exists_rule (h : b.Holds seen rules) {text : SpelledRule} (htext : text ∈ rules) :
    ∃ rule ∈ b.rules, rule.Spells b.labels text := by
  obtain ⟨i, hi, rfl⟩ := List.mem_iff_getElem.mp htext
  have hi' : i < b.rules.toList.length := h.rules.length_eq ▸ hi
  exact ⟨b.rules.toList[i], Array.mem_toList_iff.mp (List.getElem_mem hi'), h.rules.get hi' hi⟩

/-- A symbol whose label is not the end label can stand in a rule. -/
theorem symbolError?_eq_none (h : b.Holds seen rules) {s : Symbol} {label : String} (hs : b.labels[s]? = some label)
    (hlabel : label ≠ endLabel) : b.symbolError? s = none := by
  refine symbolError?_eq_none_iff.mpr ⟨(Array.getElem?_eq_some_iff.mp hs).1, ?_⟩
  rintro rfl
  have hfirst : b.labels[0]? = some endLabel := by
    rw [← Array.getElem?_toList, h.labels, List.eraseDups_cons]
    rfl
  exact hlabel (Option.some.inj (hs.symm.trans hfirst))

theorem addRule (h : b.Holds seen rules) {rule : Rule} {text : SpelledRule} (hrule : rule.Spells b.labels text)
    (hlabels : ∀ label ∈ text.1 :: text.2, label ≠ endLabel) :
    b.addRule rule.lhs rule.rhs = .ok (b.rules.size + 1, { b with rules := b.rules.push rule }) ∧
      { b with rules := b.rules.push rule }.Holds seen (rules ++ [text]) := by
  have hsymbols : ∀ s ∈ rule.lhs :: rule.rhs, b.symbolError? s = none := by
    have hall : List.Forall₂ (fun (s : Symbol) label => b.labels[s]? = some label) (rule.lhs :: rule.rhs)
        (text.1 :: text.2) := .cons hrule.1 hrule.2
    intro s hs
    obtain ⟨i, hi, rfl⟩ := List.mem_iff_getElem.mp hs
    have hi' : i < (text.1 :: text.2).length := hall.length_eq ▸ hi
    exact h.symbolError?_eq_none (hall.get hi hi') (hlabels _ (List.getElem_mem hi'))
  refine ⟨by rw [Builder.addRule, insertRule_of_forall hsymbols, goOn], h.indexed, h.labels, ?_⟩
  rw [Array.toList_push]
  exact List.rel_append h.rules (.cons hrule .nil)

end Holds

end Builder

namespace Reader

open Builder

/-- The alternatives of a left-hand side are added as rules, one after the other. -/
theorem addAlternatives_eq_ok {b : Builder} {seen : List String} {rules : List SpelledRule} (h : b.Holds seen rules)
    {lhs : Symbol} {label : String} (hlhs : b.labels[lhs]? = some label) (hlabel : label ≠ endLabel)
    {alternatives : List (List String)} (hnames : ∀ name ∈ alternatives.flatten, name ≠ endLabel) :
    ∃ b', addAlternatives lhs b alternatives = .ok b' ∧
      b'.Holds (seen ++ alternatives.flatten) (rules ++ alternatives.map (label, ·)) := by
  induction alternatives generalizing b seen rules with
  | nil => exact ⟨b, rfl, by simpa using h⟩
  | cons names alternatives ih =>
      rw [List.flatten_cons] at hnames ⊢
      have hlhs' := getElem?_addTokens names hlhs
      have hspells : (⟨lhs, (b.addTokens names).1⟩ : Rule).Spells (b.addTokens names).2.labels (label, names) :=
        ⟨hlhs', labels_addTokens h.indexed names⟩
      obtain ⟨hadd, hholds⟩ := (h.addTokens names).addRule hspells
        (List.forall_mem_cons.mpr ⟨hlabel, fun name hname => hnames name (List.mem_append_left _ hname)⟩)
      obtain ⟨b', hb', hholds'⟩ := ih hholds hlhs' fun name hname => hnames name (List.mem_append_right _ hname)
      refine ⟨b', ?_, by simpa using hholds'⟩
      rw [addAlternatives]
      dsimp only at hadd ⊢
      rw [hadd]
      exact hb'

/-- What a reader holds that has read nothing but these rule lines. -/
structure Holds (r : Reader) (lines : List RuleLine) : Prop where
  builder : r.builder.Holds (lines.flatMap RuleLine.names) (lines.flatMap RuleLine.spelledRules)
  start? : r.start? = none
  firstLhs? : r.firstLhs? = lines.head?.map (·.lhs)

theorem holds_empty : empty.Holds [] where
  builder := Builder.Holds.empty
  start? := rfl
  firstLhs? := rfl

theorem Holds.addRules {r : Reader} {lines : List RuleLine} (h : r.Holds lines) {line : RuleLine}
    (hnames : ∀ name ∈ line.names, name ≠ endLabel) :
    ∃ r', r.addRules line = .ok r' ∧ r'.Holds (lines ++ [line]) := by
  obtain ⟨hlhs, halternatives⟩ := List.forall_mem_cons.mp hnames
  obtain ⟨b', hb', hholds⟩ := addAlternatives_eq_ok (h.builder.addToken line.lhs)
    (label_addToken h.builder.indexed line.lhs) hlhs halternatives
  refine ⟨⟨b', r.start?, some (r.firstLhs?.getD line.lhs)⟩, ?_, ?_, h.start?, ?_⟩
  · rw [Reader.addRules]
    dsimp only
    rw [hb']
    rfl
  · simpa [RuleLine.names, RuleLine.spelledRules] using hholds
  · rw [h.firstLhs?]
    cases lines <;> rfl

theorem Holds.readLine {r : Reader} {lines : List RuleLine} (h : r.Holds lines) (n : Nat) {line : RuleLine}
    (hnames : ∀ name ∈ line.names, name ≠ endLabel) :
    ∃ r', r.readLine n (.rules line) = .ok r' ∧ r'.Holds (lines ++ [line]) := by
  obtain ⟨r', hr', hholds⟩ := h.addRules hnames
  refine ⟨r', ?_, hholds⟩
  rw [Reader.readLine, hr']
  rfl

/-- Reading the texts of rule lines one after the other. -/
theorem Holds.readLines {r : Reader} {before : List RuleLine} (h : r.Holds before) (n : Nat)
    {texts : List (List Char)} {lines : List RuleLine}
    (htexts : List.Forall₂ (fun text line => DescriptionLine.ofChars text = .rules line) texts lines)
    (hnames : ∀ line ∈ lines, ∀ name ∈ line.names, name ≠ endLabel) :
    ∃ r', r.readLines n texts = .ok r' ∧ r'.Holds (before ++ lines) := by
  induction htexts generalizing r before n with
  | nil => exact ⟨r, rfl, by simpa using h⟩
  | @cons text line texts lines htext _ ih =>
      obtain ⟨hline, hlines⟩ := List.forall_mem_cons.mp hnames
      obtain ⟨r', hr', hholds⟩ := h.readLine n hline
      obtain ⟨r'', hr'', hholds'⟩ := ih hholds (n + 1) hlines
      refine ⟨r'', ?_, by simpa using hholds'⟩
      rw [Reader.readLines, htext, hr']
      exact hr''

/-- The grammar is built, from the left-hand side of the first line. -/
theorem Holds.finish {r : Reader} {lines : List RuleLine} (h : r.Holds lines) (hne : lines ≠ [])
    (halternatives : ∀ line ∈ lines, line.alternatives ≠ []) :
    ∃ start, r.finish = .ok (.ofRules r.builder.labels r.builder.rules start) ∧
      r.builder.labels[start]? = some (lines.head hne).lhs := by
  obtain ⟨line, lines, rfl⟩ := List.exists_cons_of_ne_nil hne
  have hfirst : (r.start? <|> r.firstLhs?) = some line.lhs := by
    rw [h.start?, h.firstLhs?]
    rfl
  have hmem : line.lhs ∈ r.builder.labels := h.builder.mem_labels.mpr (by simp [RuleLine.names])
  have hbuilder := addToken_of_mem h.builder.indexed hmem
  have hstart : r.builder.labels[(r.builder.addToken line.lhs).1]? = some line.lhs := by
    have hlabel := label_addToken h.builder.indexed line.lhs
    rwa [hbuilder] at hlabel
  refine ⟨(r.builder.addToken line.lhs).1, ?_, hstart⟩
  have hset : r.builder.setStart (r.builder.addToken line.lhs).1 =
      .ok { r.builder with start := some (r.builder.addToken line.lhs).1 } := by
    rw [setStart, chooseStart, if_neg (Nat.not_le_of_lt (Array.getElem?_eq_some_iff.mp hstart).1)]
    rfl
  have hany : r.builder.rules.any (·.lhs == (r.builder.addToken line.lhs).1) := by
    obtain ⟨alternative, alternatives, heq⟩ := List.exists_cons_of_ne_nil (halternatives line List.mem_cons_self)
    have htext : (line.lhs, alternative) ∈ (line :: lines).flatMap RuleLine.spelledRules := by
      simp [RuleLine.spelledRules, heq]
    obtain ⟨rule, hrule, hspells⟩ := h.builder.exists_rule htext
    exact Array.any_eq_true'.mpr ⟨rule, hrule, beq_iff_eq.mpr (h.builder.indexed.unique hspells.1 hstart)⟩
  rw [Reader.finish, hfirst]
  dsimp only
  rw [hbuilder, hset, Except.bind, build_eq_ok rfl hany]
  rfl

/-! ### What a reader asks of its builder -/

theorem called_addAlternatives {b b' : Builder} (h : b.Called) {lhs : Symbol} {alternatives : List (List String)}
    (hadd : addAlternatives lhs b alternatives = .ok b') : b'.Called := by
  induction alternatives generalizing b with
  | nil =>
      obtain rfl := Except.ok.inj hadd
      exact h
  | cons names alternatives ih =>
      rw [addAlternatives] at hadd
      dsimp only at hadd
      split at hadd
      · cases hadd
      · rename_i hrule
        exact ih ((h.addTokens names).addRule hrule) hadd

variable {r r' : Reader} {n : Nat}

theorem called_addRules (h : r.builder.Called) {line : RuleLine} (hadd : r.addRules line = .ok r') :
    r'.builder.Called := by
  obtain ⟨b', hb', rfl⟩ := exists_of_map_eq_ok hadd
  exact called_addAlternatives (h.perform (.addToken line.lhs)) hb'

theorem called_direct (h : r.builder.Called) {name : String} {arguments : List String}
    (hdirect : r.direct n name arguments = .ok r') : r'.builder.Called := by
  unfold direct at hdirect
  split at hdirect
  · split at hdirect
    · cases hdirect
    · obtain rfl := Except.ok.inj hdirect
      exact h.addTokens arguments
  · split at hdirect
    · split at hdirect
      · obtain rfl := Except.ok.inj hdirect
        exact h
      · cases hdirect
    · cases hdirect

theorem called_readLine (h : r.builder.Called) {line : DescriptionLine} (hread : r.readLine n line = .ok r') :
    r'.builder.Called := by
  cases line with
  | silent =>
      obtain rfl := Except.ok.inj hread
      exact h
  | directive name arguments => exact called_direct h hread
  | rules line => exact called_addRules h (eq_ok_of_mapError hread)
  | malformed => cases hread

theorem called_readLines (h : r.builder.Called) {texts : List (List Char)} (hread : r.readLines n texts = .ok r') :
    r'.builder.Called := by
  induction texts generalizing r n with
  | nil =>
      obtain rfl := Except.ok.inj hread
      exact h
  | cons text texts ih =>
      rw [readLines] at hread
      split at hread
      · cases hread
      · rename_i hline
        exact ih (called_readLine h hline) hread

theorem exists_calls_of_finish (h : r.builder.Called) {g : AugmentedGrammar} (hfinish : r.finish = .ok g) :
    ∃ calls, (ofCalls calls).build = .ok g := by
  unfold finish at hfinish
  split at hfinish
  · cases hfinish
  · rename_i label _
    obtain ⟨b, hset, hbuild⟩ := exists_of_bind_eq_ok (eq_ok_of_mapError hfinish)
    obtain ⟨calls, rfl⟩ := (h.perform (.addToken label)).setStart hset
    exact ⟨calls, hbuild⟩

end Reader

namespace AugmentedGrammar

/-- The grammar of a description comes out of a builder. -/
theorem exists_calls_of_ofDescription {source : String} {g : AugmentedGrammar}
    (h : ofDescription source = .ok g) : ∃ calls, (Builder.ofCalls calls).build = .ok g := by
  obtain ⟨r, hread, hfinish⟩ := exists_of_bind_eq_ok h
  exact Reader.exists_calls_of_finish (Reader.called_readLines Builder.Called.empty hread) hfinish

/-! ### The label of the new start symbol -/

/-- A label with primes at its end. -/
def primed (label : String) (n : Nat) : String := label ++ String.ofList (List.replicate n '\'')

theorem push_primed (label : String) (n : Nat) : (primed label n).push '\'' = primed label (n + 1) := by
  rw [primed, primed, List.replicate_succ', String.ofList_append, ← String.append_assoc]
  rfl

/-- The label that is found has the least number of primes, from the given one on, that makes it new. -/
theorem exists_freshLabel_eq (labels : Array String) (label : String) (k : Nat) :
    ∃ n, freshLabel labels (primed label k) = primed label n ∧ k ≤ n ∧ primed label n ∉ labels.toList ∧
      ∀ m, k ≤ m → m < n → primed label m ∈ labels.toList := by
  generalize hstart : primed label k = start
  fun_induction freshLabel labels start generalizing k with
  | case1 start hmem ih =>
      subst hstart
      obtain ⟨n, heq, hle, hnew, hleast⟩ := ih (k + 1) (push_primed label k).symm
      refine ⟨n, heq, Nat.le_of_succ_le hle, hnew, fun m hm hlt => ?_⟩
      rcases Nat.eq_or_lt_of_le hm with rfl | hm
      · exact hmem
      · exact hleast m hm hlt
  | case2 start hmem =>
      subst hstart
      exact ⟨k, rfl, Nat.le_refl k, hmem, fun m hm hlt => absurd hm (Nat.not_le_of_lt hlt)⟩

end AugmentedGrammar

end ShiftReduce
