import ShiftReduce.Description.Combinators
import ShiftReduce.Proofs.RuleSyntax

/-! The parser for rule lines tells the rules that the reader makes out of the lexemes. The parser takes its names and
bars off the characters themselves, and it stops where it cannot go on, whereas the reader has all lexemes before it
looks at the first one. So each part of the parser comes with the lexemes that it has taken off and with what is known
of the place where it has stopped: no name can go on there and no gap. If something is left at the end, its first
lexeme is an arrow, or it has none. -/

namespace ShiftReduce

namespace Reply

variable {α β : Type}

@[simp] theorem value?_map (f : α → β) (r : Reply α) : (r.map f).value? = r.value?.map f := by
  cases r <;> rfl

@[simp] theorem value?_after (a : α) (consumed : Bool) (r : Reply β) :
    (r.after a consumed).value? = r.value?.map (a, ·) := by
  cases r <;> rfl

end Reply

namespace RuleLine

/-! ### Where a parser stops -/

/-- Neither a space nor a tab comes next. -/
def Unspaced (cs : List Char) : Prop := cs.takeWhile (IsGapChar ·) = []

/-- Neither a name nor a gap comes next. -/
structure Stops (cs : List Char) : Prop where
  unspaced : Unspaced cs
  nameLength : nameLength cs = 0

/-- The rest of a line behind the gap at its beginning. -/
def afterGap (cs : List Char) : List Char := cs.dropWhile (IsGapChar ·)

section Lexemes

variable {cs : List Char} {l : List Lexeme}

theorem unspaced_afterGap (cs : List Char) : Unspaced (afterGap cs) :=
  List.takeWhile_eq_nil_iff.mpr fun hpos => List.dropWhile_get_zero_not _ cs hpos

/-- Gaps have no lexemes. -/
theorem lexemes_afterGap (cs : List Char) : lexemes (afterGap cs) = lexemes cs := by
  have hgap : IsGap (cs.takeWhile (IsGapChar ·)) := by
    intro x hx
    simpa using List.mem_takeWhile_imp hx
  rw [← lexemes_gap hgap, afterGap, List.takeWhile_append_dropWhile]

theorem length_afterGap_le (cs : List Char) : (afterGap cs).length ≤ cs.length :=
  List.length_dropWhile_le _ cs

theorem IsGap.eq_nil {gap rest : List Char} (h : IsGap gap) (hunspaced : Unspaced (gap ++ rest)) : gap = [] := by
  rw [Unspaced, takeWhile_gap h] at hunspaced
  exact (List.append_eq_nil_iff.mp hunspaced).1

/-- Where no gap comes first, the first lexeme stands at the beginning. -/
theorem nameLength_pos_of_lexemes {s : String} (hunspaced : Unspaced cs) (h : lexemes cs = some (.name s :: l)) :
    0 < nameLength cs := by
  obtain ⟨margin, text, rest, rfl, hmargin, htext, -, -⟩ := (fallsInto_of_lexemes h).exists_name
  obtain rfl := hmargin.eq_nil hunspaced
  exact htext.nameLength_pos

theorem startsArrow_of_lexemes (hunspaced : Unspaced cs) (h : lexemes cs = some (.arrow :: l)) :
    startsArrow cs := by
  obtain ⟨gap, rest, rfl, hgap, -⟩ := (fallsInto_of_lexemes h).exists_arrow
  obtain rfl := hgap.eq_nil hunspaced
  rfl

/-- What comes where a parser stops, if it is neither the end nor a bar, is an arrow. -/
theorem Stops.exists_arrow (hstops : Stops cs) (hne : cs ≠ []) (hbar : cs.head? ≠ some '|')
    (h : lexemes cs = some l) : ∃ l', l = .arrow :: l' := by
  cases fallsInto_of_lexemes h with
  | nil => exact absurd rfl hne
  | @gap x cs _ hx _ =>
      have hgap : IsGap [x] := List.forall_mem_singleton.mpr hx
      cases hgap.eq_nil hstops.unspaced
  | arrow => exact ⟨_, rfl⟩
  | bar => exact absurd rfl hbar
  | name hname _ _ => exact absurd hstops.nameLength (Nat.ne_of_gt hname.nameLength_pos)

/-- There is no arrow among the alternatives. -/
theorem readAlternatives_arrow (l l' : List Lexeme) : readAlternatives (l ++ .arrow :: l') = none := by
  induction l with
  | nil => rfl
  | cons x l ih =>
      cases x with
      | name s => rw [List.cons_append, readAlternatives, ih]
      | arrow => rfl
      | bar => rw [List.cons_append, readAlternatives, ih, Option.map_none]

end Lexemes

end RuleLine

namespace Combinators

open RuleLine

variable (c : Combinators) (cs : List Char)

/-! ### One step at a time -/

section Steps

variable {c cs} {α β : Type} {p : c.Parser α} {q : c.Parser β} {a : α} {rest : List Char} {consumed : Bool}

theorem run_seq_of_value (h : c.run p cs = .value a rest consumed) :
    c.run (c.seq p q) cs = (c.run q rest).after a consumed := by
  rw [c.run_seq, h]

theorem run_seq_of_error (h : c.run p cs = .error consumed) : c.run (c.seq p q) cs = .error consumed := by
  rw [c.run_seq, h]

theorem run_skip_of_error (h : c.run p cs = .error consumed) : c.run (c.skip p q) cs = .error consumed := by
  rw [c.run_skip, c.run_map, run_seq_of_error h]
  rfl

theorem run_next_of_error (h : c.run p cs = .error consumed) : c.run (c.next p q) cs = .error consumed := by
  rw [c.run_next, c.run_map, run_seq_of_error h]
  rfl

/-- A parser that has consumed something is tried again on the rest. -/
theorem run_many_of_value (h : c.run p cs = .value a rest true) :
    c.run (c.many p) cs = ((c.run (c.many p) rest).after a true).map fun (a, l) => a :: l := by
  rw [c.run_many p cs (by simp [h]), h]

theorem run_many_of_error (h : c.run p cs = .error false) : c.run (c.many p) cs = .value [] cs false := by
  rw [c.run_many p cs (by simp [h]), h]

end Steps

/-! ### What the combinators make of a character -/

theorem run_satisfy_of_pos {p : Char → Bool} {x : Char} (hx : p x) :
    c.run (c.satisfy p) (x :: cs) = .value x cs true := by
  simp only [c.run_satisfy, if_pos hx]

theorem run_satisfy_of_neg {p : Char → Bool} {x : Char} (hx : ¬ p x) :
    c.run (c.satisfy p) (x :: cs) = .error false := by
  simp only [c.run_satisfy, if_neg hx]

theorem run_token_self (x : Char) : c.run (c.token x) (x :: cs) = .value x cs true := by
  rw [c.run_token]
  exact c.run_satisfy_of_pos cs (beq_self_eq_true x)

theorem run_token_of_head? {x : Char} (hx : cs.head? ≠ some x) : c.run (c.token x) cs = .error false := by
  rw [c.run_token]
  cases cs with
  | nil => rw [c.run_satisfy]
  | cons y cs => exact c.run_satisfy_of_neg cs fun h => hx (congrArg some (beq_iff_eq.mp h))

/-- As many characters of a kind as there are. -/
theorem exists_run_many_satisfy (p : Char → Bool) :
    ∃ consumed, c.run (c.many (c.satisfy p)) cs = .value (cs.takeWhile p) (cs.dropWhile p) consumed := by
  induction cs with
  | nil => exact ⟨false, run_many_of_error (c.run_satisfy p [])⟩
  | cons x cs ih =>
      obtain ⟨consumed, ih⟩ := ih
      by_cases hx : p x
      · refine ⟨true || consumed, ?_⟩
        rw [run_many_of_value (c.run_satisfy_of_pos cs hx), ih, List.takeWhile_cons_of_pos hx,
          List.dropWhile_cons_of_pos hx]
        rfl
      · refine ⟨false, ?_⟩
        rw [run_many_of_error (c.run_satisfy_of_neg cs hx), List.takeWhile_cons_of_neg hx,
          List.dropWhile_cons_of_neg hx]

/-! ### Blanks -/

/-- Blanks are taken as far as they go. -/
theorem exists_run_blanks : ∃ consumed, c.run c.blanks cs = .value () (afterGap cs) consumed := by
  have hgap : (fun x : Char => x == ' ' || x == '\t') = fun x => decide (IsGapChar x) := by
    funext x
    rw [Bool.eq_iff_iff, decide_eq_true_eq, Bool.or_eq_true, beq_iff_eq, beq_iff_eq]
    rfl
  obtain ⟨consumed, hrun⟩ := c.exists_run_many_satisfy cs fun x => decide (IsGapChar x)
  refine ⟨consumed, ?_⟩
  rw [blanks, c.run_skipMany, c.run_map, hgap, hrun]
  rfl

/-- A parser with blanks behind it, after it has consumed something. -/
theorem run_skip_blanks {α : Type} {p : c.Parser α} {a : α} {rest : List Char}
    (h : c.run p cs = .value a rest true) : c.run (c.skip p c.blanks) cs = .value a (afterGap rest) true := by
  obtain ⟨consumed, hblanks⟩ := c.exists_run_blanks rest
  rw [c.run_skip, c.run_map, run_seq_of_value h, hblanks]
  rfl

/-! ### Names -/

/-- A dash is taken as a character of a name, but not the one of an arrow. -/
theorem run_dash : c.run (c.attempt (c.skip (c.token '-') (c.notFollowedBy (c.map (fun _ => "->") (c.token '>')))))
    ('-' :: cs) = if startsArrow ('-' :: cs) then .error false else .value '-' cs true := by
  rw [c.run_attempt, c.run_skip, c.run_map, run_seq_of_value (c.run_token_self cs '-'), c.run_notFollowedBy, c.run_map]
  by_cases harrow : startsArrow ('-' :: cs)
  · obtain ⟨rest, heq⟩ := startsArrow_iff.mp harrow
    obtain rfl := (List.cons.inj heq).2
    rw [c.run_token_self, if_pos harrow]
    rfl
  · have hhead : cs.head? ≠ some '>' := by
      intro h
      obtain ⟨rest, rfl⟩ := List.head?_eq_some_iff.mp h
      exact harrow rfl
    rw [c.run_token_of_head? cs hhead, if_neg harrow]
    rfl

theorem run_symbolChar_nil : c.run c.symbolChar [] = .error false := by
  have hdash : c.run (c.token '-') [] = .error false := c.run_token_of_head? [] (by simp)
  rw [symbolChar, c.run_either, c.run_satisfy]
  simp only [c.run_attempt, run_skip_of_error hdash]

/-- The parser goes on with a name under the conditions under which the reader does. -/
theorem run_symbolChar_cons (x : Char) : c.run c.symbolChar (x :: cs) =
    if startsArrow (x :: cs) || !isNameChar x then .error false else .value x cs true := by
  rw [symbolChar, c.run_either]
  by_cases hx : x = '-'
  · subst hx
    have hname : isNameChar '-' := by decide
    rw [c.run_satisfy_of_neg cs (by decide)]
    simp only [c.run_dash, hname, Bool.not_true, Bool.or_false]
  · have hdash : c.run (c.token '-') (x :: cs) = .error false := c.run_token_of_head? _ (by simpa using hx)
    have harrow : startsArrow (x :: cs) = false := by simpa using not_startsArrow hx
    rw [harrow, Bool.false_or]
    by_cases hname : isNameChar x
    · rw [c.run_satisfy_of_pos cs (by simpa [isNameChar, hx] using hname), hname]
      rfl
    · rw [c.run_satisfy_of_neg cs (by simpa [isNameChar, hx] using hname)]
      simp only [c.run_attempt, run_skip_of_error hdash, hname]
      rfl

theorem run_symbolChar_of_zero (h : nameLength cs = 0) : c.run c.symbolChar cs = .error false := by
  cases cs with
  | nil => exact c.run_symbolChar_nil
  | cons x cs =>
      rw [c.run_symbolChar_cons, if_pos]
      by_contra hname
      rw [nameLength, if_neg hname] at h
      cases h

theorem exists_run_symbolChar_of_pos (h : 0 < nameLength cs) : ∃ x rest, cs = x :: rest ∧
    nameLength cs = nameLength rest + 1 ∧ c.run c.symbolChar cs = .value x rest true := by
  cases cs with
  | nil => cases h
  | cons x cs =>
      rw [nameLength] at h
      split at h
      · cases h
      · rename_i hname
        refine ⟨x, cs, rfl, ?_, ?_⟩
        · rw [nameLength, if_neg hname]
        · rw [c.run_symbolChar_cons, if_neg hname]

/-- The characters of a name are taken as far as it goes. -/
theorem exists_run_many_symbolChar : ∃ consumed,
    c.run (c.many c.symbolChar) cs = .value (cs.take (nameLength cs)) (cs.drop (nameLength cs)) consumed := by
  induction cs with
  | nil => exact ⟨false, run_many_of_error c.run_symbolChar_nil⟩
  | cons x cs ih =>
      rcases Nat.eq_zero_or_pos (nameLength (x :: cs)) with hzero | hpos
      · refine ⟨false, ?_⟩
        rw [run_many_of_error (c.run_symbolChar_of_zero _ hzero), hzero]
        rfl
      · obtain ⟨consumed, ih⟩ := ih
        obtain ⟨_, _, heq, hlength, hrun⟩ := c.exists_run_symbolChar_of_pos _ hpos
        obtain ⟨rfl, rfl⟩ := List.cons.inj heq
        refine ⟨true || consumed, ?_⟩
        rw [run_many_of_value hrun, ih, hlength]
        rfl

theorem run_symbolName_of_zero (h : nameLength cs = 0) : c.run c.symbolName cs = .error false := by
  refine run_skip_of_error ?_
  rw [c.run_map, c.run_many1, c.run_map, run_seq_of_error (c.run_symbolChar_of_zero cs h)]
  rfl

/-- A name is taken with the gap behind it. -/
theorem run_symbolName_of_pos (h : 0 < nameLength cs) : c.run c.symbolName cs =
    .value (String.ofList (cs.take (nameLength cs))) (afterGap (cs.drop (nameLength cs))) true := by
  obtain ⟨x, rest, rfl, hlength, hrun⟩ := c.exists_run_symbolChar_of_pos cs h
  obtain ⟨consumed, hmany⟩ := c.exists_run_many_symbolChar rest
  refine c.run_skip_blanks _ ?_
  rw [c.run_map, c.run_many1, c.run_map, run_seq_of_value hrun, hmany, hlength]
  rfl

/-! ### Alternatives -/

/-- An alternative takes all names up to where it stops. -/
theorem exists_run_alternative (hcs : Unspaced cs) :
    ∃ words rest consumed, c.run c.alternative cs = .value words rest consumed ∧ Stops rest ∧
      rest.length ≤ cs.length ∧ lexemes cs = (lexemes rest).map (words.map .name ++ ·) := by
  induction hn : cs.length using Nat.strongRecOn generalizing cs with
  | ind n ih =>
    rcases Nat.eq_zero_or_pos (nameLength cs) with hzero | hpos
    · have hrun := run_many_of_error (c.run_symbolName_of_zero cs hzero)
      exact ⟨[], cs, false, hrun, ⟨hcs, hzero⟩, Nat.le_of_eq hn, by simp⟩
    · have hlength : (afterGap (cs.drop (nameLength cs))).length < n := by
        have hdrop := length_afterGap_le (cs.drop (nameLength cs))
        have hle := nameLength_le cs
        rw [List.length_drop] at hdrop
        omega
      obtain ⟨words, rest, consumed, hrun, hstops, hle, hlexemes⟩ := ih _ hlength _ (unspaced_afterGap _) rfl
      refine ⟨String.ofList (cs.take (nameLength cs)) :: words, rest, true || consumed, ?_, hstops, by omega, ?_⟩
      · rw [alternative] at hrun ⊢
        rw [run_many_of_value (c.run_symbolName_of_pos cs hpos), hrun]
        rfl
      · rw [lexemes_of_nameLength_pos hpos, ← lexemes_afterGap, hlexemes, Option.map_map]
        rfl

/-- A bar and the alternative behind it. -/
theorem exists_run_barred : ∃ words rest,
    c.run (c.next c.bar c.alternative) ('|' :: cs) = .value words rest true ∧ Stops rest ∧
      rest.length ≤ cs.length ∧ lexemes ('|' :: cs) = (lexemes rest).map ((.bar :: words.map .name) ++ ·) := by
  obtain ⟨words, rest, consumed, hrun, hstops, hle, hlexemes⟩ :=
    c.exists_run_alternative (afterGap cs) (unspaced_afterGap cs)
  have hbar : c.run c.bar ('|' :: cs) = .value '|' (afterGap cs) true :=
    c.run_skip_blanks ('|' :: cs) (c.run_token_self cs '|')
  refine ⟨words, rest, ?_, hstops, Nat.le_trans hle (length_afterGap_le cs), ?_⟩
  · rw [c.run_next, c.run_map, run_seq_of_value hbar, hrun]
    rfl
  · rw [lexemes_bar, ← lexemes_afterGap, hlexemes, Option.map_map]
    rfl

/-- Nothing is consumed where no bar comes, so the repetition can end there. -/
theorem run_barred_of_head? (h : cs.head? ≠ some '|') : c.run (c.next c.bar c.alternative) cs = .error false :=
  run_next_of_error (run_skip_of_error (c.run_token_of_head? cs h))

/-- The alternatives with a bar before them are taken until no other bar comes. -/
theorem exists_run_many_barred (hcs : Stops cs) : ∃ others rest consumed,
    c.run (c.many (c.next c.bar c.alternative)) cs = .value others rest consumed ∧ Stops rest ∧
      rest.head? ≠ some '|' ∧
      lexemes cs = (lexemes rest).map ((others.flatMap fun words => .bar :: words.map .name) ++ ·) := by
  induction hn : cs.length using Nat.strongRecOn generalizing cs with
  | ind n ih =>
    by_cases hhead : cs.head? = some '|'
    · obtain ⟨cs, rfl⟩ := List.head?_eq_some_iff.mp hhead
      obtain ⟨words, rest, hrun, hstops, hle, hlexemes⟩ := c.exists_run_barred cs
      have hlength : rest.length < n := by
        rw [← hn, List.length_cons]
        exact Nat.lt_succ_of_le hle
      obtain ⟨others, rest', consumed, hrun', hstops', hbar, hlexemes'⟩ := ih _ hlength rest hstops rfl
      refine ⟨words :: others, rest', true || consumed, ?_, hstops', hbar, ?_⟩
      · rw [run_many_of_value hrun, hrun']
        rfl
      · rw [hlexemes, hlexemes', Option.map_map, List.flatMap_cons]
        refine congrArg (Option.map · (lexemes rest')) (funext fun l => ?_)
        exact (List.append_assoc _ _ _).symm
    · exact ⟨[], cs, false, run_many_of_error (c.run_barred_of_head? cs hhead), hcs, hhead, by simp⟩

/-- What stands behind the arrow is taken up to the first place that no alternative can go over. -/
theorem exists_run_alternatives (hcs : Unspaced cs) : ∃ first others rest consumed,
    c.run (c.sepBy1 c.alternative c.bar) cs = .value (first :: others) rest consumed ∧ Stops rest ∧
      rest.head? ≠ some '|' ∧ lexemes cs = (lexemes rest).map
        ((first.map .name ++ others.flatMap fun words => .bar :: words.map .name) ++ ·) := by
  obtain ⟨first, rest, consumed, hrun, hstops, -, hlexemes⟩ := c.exists_run_alternative cs hcs
  obtain ⟨others, rest', consumed', hrun', hstops', hbar, hlexemes'⟩ := c.exists_run_many_barred rest hstops
  refine ⟨first, others, rest', consumed || consumed', ?_, hstops', hbar, ?_⟩
  · rw [c.run_sepBy1, c.run_map, run_seq_of_value hrun, hrun']
    rfl
  · rw [hlexemes, hlexemes', Option.map_map]
    refine congrArg (Option.map · (lexemes rest')) (funext fun l => ?_)
    exact (List.append_assoc _ _ _).symm

/-- The alternatives up to the end of the line are those that the reader makes out of their lexemes. -/
theorem value?_run_alternatives (hcs : Unspaced cs) :
    (c.run (c.seq (c.sepBy1 c.alternative c.bar) c.eof) cs).value?.map Prod.fst =
      (lexemes cs).bind readAlternatives := by
  obtain ⟨first, others, rest, consumed, hrun, hstops, hbar, hlexemes⟩ := c.exists_run_alternatives cs hcs
  rw [run_seq_of_value hrun, hlexemes, c.run_eof]
  by_cases hrest : rest = []
  · have hread := readAlternatives_written first others
    subst hrest
    rw [if_pos rfl, lexemes, Option.map_some, List.append_nil, Option.bind_some, hread]
    rfl
  · rw [if_neg hrest]
    -- Something is left: if it has lexemes at all, the first of them is an arrow.
    cases hleft : lexemes rest with
    | none => rfl
    | some l =>
        obtain ⟨l', rfl⟩ := hstops.exists_arrow hrest hbar hleft
        exact (readAlternatives_arrow _ l').symm

/-! ### The line -/

theorem run_separator_of_arrow : c.run c.separator ('-' :: '>' :: cs) = .value () (afterGap cs) true := by
  have hrun : c.run (c.seq (c.token '-') (c.token '>')) ('-' :: '>' :: cs) = .value ('-', '>') cs true := by
    rw [run_seq_of_value (c.run_token_self _ '-'), c.run_token_self]
    rfl
  rw [separator, c.run_map, c.run_skip_blanks _ hrun]
  rfl

/-- A dash may have been consumed before the parser sees that it does not begin an arrow. -/
theorem exists_run_separator_eq_error (h : ¬ startsArrow cs) :
    ∃ consumed, c.run c.separator cs = .error consumed := by
  have hrun : ∃ consumed, c.run (c.seq (c.token '-') (c.token '>')) cs = .error consumed := by
    by_cases hdash : cs.head? = some '-'
    · obtain ⟨cs, rfl⟩ := List.head?_eq_some_iff.mp hdash
      have hhead : cs.head? ≠ some '>' := by
        intro hhead
        obtain ⟨rest, rfl⟩ := List.head?_eq_some_iff.mp hhead
        exact h rfl
      refine ⟨true || false, ?_⟩
      rw [run_seq_of_value (c.run_token_self cs '-'), c.run_token_of_head? cs hhead]
      rfl
    · exact ⟨false, run_seq_of_error (c.run_token_of_head? cs hdash)⟩
  obtain ⟨consumed, hrun⟩ := hrun
  refine ⟨consumed, ?_⟩
  rw [separator, c.run_map, run_skip_of_error hrun]
  rfl

/-- The arrow and what stands behind it. -/
theorem value?_run_right (hcs : Unspaced cs) :
    (c.run (c.seq c.separator (c.seq (c.sepBy1 c.alternative c.bar) c.eof)) cs).value?.map (·.2.1) =
      match lexemes cs with
      | some (.arrow :: l) => readAlternatives l
      | _ => none := by
  by_cases harrow : startsArrow cs
  · obtain ⟨rest, rfl⟩ := startsArrow_iff.mp harrow
    have hright := c.value?_run_alternatives (afterGap rest) (unspaced_afterGap rest)
    rw [run_seq_of_value (c.run_separator_of_arrow rest), Reply.value?_after, Option.map_map, lexemes_arrow,
      ← lexemes_afterGap]
    refine Eq.trans hright ?_
    cases lexemes (afterGap rest) <;> rfl
  · obtain ⟨consumed, hrun⟩ := c.exists_run_separator_eq_error cs harrow
    rw [run_seq_of_error hrun]
    refine Eq.symm ?_
    split
    · rename_i l hlexemes
      exact absurd (startsArrow_of_lexemes hcs hlexemes) harrow
    · rfl

theorem exists_run_lhs_eq_error (h : nameLength (afterGap cs) = 0) :
    ∃ consumed, c.run (c.next c.blanks c.symbolName) cs = .error consumed := by
  obtain ⟨consumed, hblanks⟩ := c.exists_run_blanks cs
  refine ⟨consumed || false, ?_⟩
  rw [c.run_next, c.run_map, run_seq_of_value hblanks, c.run_symbolName_of_zero _ h]
  rfl

theorem run_lhs_of_pos (h : 0 < nameLength (afterGap cs)) : c.run (c.next c.blanks c.symbolName) cs =
    .value (String.ofList ((afterGap cs).take (nameLength (afterGap cs))))
      (afterGap ((afterGap cs).drop (nameLength (afterGap cs)))) true := by
  obtain ⟨consumed, hblanks⟩ := c.exists_run_blanks cs
  rw [c.run_next, c.run_map, run_seq_of_value hblanks, c.run_symbolName_of_pos _ h]
  simp only [Reply.after, Reply.map, Bool.or_true]

/-- Whichever combinators are taken, the parser tells exactly the rules that the reader makes out of the lexemes. -/
theorem value?_run_ruleLine (line : List Char) : (c.run c.ruleLine line).value? = ofChars? line := by
  rw [ruleLine, c.run_map, Reply.value?_map, ofChars?, ← lexemes_afterGap line]
  rcases Nat.eq_zero_or_pos (nameLength (afterGap line)) with hzero | hpos
  · obtain ⟨consumed, hrun⟩ := c.exists_run_lhs_eq_error line hzero
    rw [run_seq_of_error hrun]
    refine Eq.symm ?_
    split
    · rename_i hlexemes
      exact absurd hzero (Nat.ne_of_gt (nameLength_pos_of_lexemes (unspaced_afterGap line) hlexemes))
    · rfl
  · have hright := c.value?_run_right _ (unspaced_afterGap ((afterGap line).drop (nameLength (afterGap line))))
    rw [run_seq_of_value (c.run_lhs_of_pos line hpos), lexemes_of_nameLength_pos hpos,
      ← lexemes_afterGap (List.drop _ _)]
    generalize String.ofList _ = lhs
    generalize afterGap ((afterGap line).drop _) = rest at hright ⊢
    calc ((c.run (c.seq c.separator (c.seq (c.sepBy1 c.alternative c.bar) c.eof)) rest).after
          lhs true).value?.map (fun r => (⟨r.1, r.2.2.1⟩ : RuleLine))
      _ = ((c.run (c.seq c.separator (c.seq (c.sepBy1 c.alternative c.bar) c.eof))
            rest).value?.map (·.2.1)).map (⟨lhs, ·⟩) := by
        rw [Reply.value?_after, Option.map_map, Option.map_map]
        rfl
      _ = _ := by
        rw [hright]
        rcases lexemes rest with _ | _ | ⟨_ | _ | _, _⟩ <;> rfl

end Combinators

end ShiftReduce
