import Mathlib.Data.List.DropRight
import Mathlib.Data.List.Infix
import ShiftReduce.Proofs.Registration
import ShiftReduce.Proofs.RuleSyntax

/-! Rules that are written down and read again. Names may be written down that are free of white space, bars and
arrows. Between them stands one space, so the reader finds the names where they were put, and the white space that
it takes off at the end of a line, after an empty alternative, means nothing to it. What comes back is the grammar
of the rules, with its labels in the order in which the names came first. -/

namespace ShiftReduce

/-! ### Lines of a text -/

namespace Text

theorem lines_of_not_mem {cs : List Char} (h : '\n' ∉ cs) : lines cs = [cs] := by
  induction cs with
  | nil => rfl
  | cons c cs ih =>
      rw [List.mem_cons, not_or] at h
      rw [lines, ih h.2]
      exact fun hc => h.1 hc.symm

theorem lines_ne_nil (cs : List Char) : lines cs ≠ [] := by
  fun_cases lines cs <;> simp

/-- A line feed cuts a text in two. -/
theorem lines_append_lineFeed (cs rest : List Char) : lines (cs ++ '\n' :: rest) = lines cs ++ lines rest := by
  fun_induction lines cs with
  | case1 => rfl
  | case2 cs ih => rw [List.cons_append, lines, ih, List.cons_append]
  | case3 c cs hc hnil ih => exact absurd hnil (lines_ne_nil cs)
  | case4 c cs hc l ls hlines ih => simp [lines, ih, hlines]

theorem lines_append {cs : List Char} (h : '\n' ∉ cs) (rest : List Char) :
    lines (cs ++ '\n' :: rest) = cs :: lines rest := by
  rw [lines_append_lineFeed, lines_of_not_mem h, List.singleton_append]

/-- The lines of a text are the pieces that it was put together from. -/
theorem lines_intercalate {texts : List (List Char)} (hne : texts ≠ []) (h : ∀ text ∈ texts, '\n' ∉ text) :
    lines (['\n'].intercalate texts) = texts := by
  induction texts with
  | nil => exact absurd rfl hne
  | cons text texts ih =>
      obtain ⟨htext, htexts⟩ := List.forall_mem_cons.mp h
      cases texts with
      | nil => rw [List.intercalate_singleton, lines_of_not_mem htext]
      | cons text' texts =>
          rw [List.intercalate_cons_cons, List.append_assoc, List.singleton_append, lines_append htext,
            ih (List.cons_ne_nil _ _) htexts]

/-- A text that begins with no blank only loses blanks at its end. -/
theorem exists_trim_eq {c : Char} (hc : ¬ isBlank c) (cs : List Char) :
    ∃ kept gap, trim (c :: cs) = c :: kept ∧ cs = kept ++ gap ∧ ∀ d ∈ gap, isBlank d := by
  have htrim : trim (c :: cs) = (c :: cs).rdropWhile isBlank := by
    rw [trim, List.dropWhile_cons_of_neg hc]
    rfl
  have hsplit : (c :: cs).rdropWhile isBlank ++ (c :: cs).rtakeWhile isBlank = c :: cs :=
    List.rdropWhile_append_rtakeWhile
  have hne : (c :: cs).rdropWhile isBlank ≠ [] := by
    intro hnil
    exact hc (List.rdropWhile_eq_nil_iff.mp hnil c List.mem_cons_self)
  obtain ⟨d, kept, hkept⟩ := List.exists_cons_of_ne_nil hne
  rw [hkept] at hsplit
  obtain ⟨rfl, hcs⟩ := List.cons.inj hsplit
  exact ⟨kept, (d :: cs).rtakeWhile isBlank, htrim.trans hkept, hcs.symm, fun e he => List.mem_rtakeWhile_imp he⟩

end Text

namespace RuleLine

/-! ### Cuts in a line -/

/-- A text into which no name goes on, and which is not the other half of an arrow. -/
structure Breaks (rest : List Char) : Prop where
  nameLength : nameLength rest = 0
  head : rest.head? ≠ some '>'

theorem breaks_gap {gap : List Char} (h : IsGap gap) (hne : gap ≠ []) (rest : List Char) : Breaks (gap ++ rest) where
  nameLength := nameLength_of_gap h hne
  head := by
    obtain ⟨c, gap, rfl⟩ := List.exists_cons_of_ne_nil hne
    rcases h c List.mem_cons_self with rfl | rfl <;> simp

theorem startsArrow_append {rest : List Char} (h : Breaks rest) (c : Char) (cs : List Char) :
    startsArrow (c :: cs ++ rest) = startsArrow (c :: cs) := by
  match cs, rest with
  | _ :: _, _ => rfl
  | [], [] => rfl
  | [], d :: rest =>
      have hd : d ≠ '>' := fun heq => h.head (congrArg some heq)
      simp [startsArrow, hd]

theorem nameLength_append_of_breaks {rest : List Char} (h : Breaks rest) (cs : List Char) :
    nameLength (cs ++ rest) = nameLength cs := by
  induction cs with
  | nil => exact h.nameLength
  | cons c cs ih => rw [List.cons_append, nameLength, nameLength, ← List.cons_append, startsArrow_append h, ih]

theorem map_cons_bind (a : Lexeme) (x y : Option (List Lexeme)) :
    (x.bind fun l => y.map (l ++ ·)).map (a :: ·) = (x.map (a :: ·)).bind fun l => y.map (l ++ ·) := by
  cases x <;> cases y <;> rfl

/-- The parts on both sides of a cut can be read on their own. -/
theorem lexemes_append {rest : List Char} (h : Breaks rest) (cs : List Char) :
    lexemes (cs ++ rest) = (lexemes cs).bind fun l => (lexemes rest).map (l ++ ·) := by
  fun_induction lexemes cs with
  | case1 => simp
  | case2 c cs harrow ih =>
      obtain ⟨cs, heq⟩ := startsArrow_iff.mp harrow
      obtain ⟨rfl, rfl⟩ := List.cons.inj heq
      rw [List.tail_cons] at ih ⊢
      rw [List.cons_append, List.cons_append, lexemes_arrow, ih, map_cons_bind]
  | case3 c cs _ hgap ih => rw [List.cons_append, lexemes_gapChar hgap, ih]
  | case4 cs _ _ ih => rw [List.cons_append, lexemes_bar, ih, map_cons_bind]
  | case5 c cs harrow hgap hbar hblank =>
      rw [List.cons_append, lexemes, if_neg, if_neg hgap, if_neg hbar, if_pos hblank, Option.bind_none]
      rwa [← List.cons_append, startsArrow_append h]
  | case6 c cs harrow hgap hbar hblank =>
      rename_i ih
      have hcons := nameLength_cons_of_pos harrow (isNameChar_iff.mpr ⟨hblank, hbar⟩)
      have hlength := nameLength_append_of_breaks h (c :: cs)
      rw [lexemes_of_nameLength_pos (hlength ▸ hcons ▸ Nat.succ_pos _), hlength,
        List.take_append_of_le_length (nameLength_le _), List.drop_append_of_le_length (nameLength_le _), hcons,
        List.drop_succ_cons, ih, List.take_succ_cons]
      exact map_cons_bind _ _ _

/-- Blanks at the end of a line mean nothing. -/
theorem lexemes_append_gap {gap : List Char} (h : IsGap gap) (cs : List Char) :
    lexemes (cs ++ gap) = lexemes cs := by
  by_cases hnil : gap = []
  · rw [hnil, List.append_nil]
  · have hgap : lexemes (gap ++ []) = some [] := by rw [lexemes_gap h, lexemes]
    have hbreaks := breaks_gap h hnil []
    rw [List.append_nil] at hgap hbreaks
    rw [lexemes_append hbreaks, hgap]
    simp

theorem ofChars?_append_gap {gap : List Char} (h : IsGap gap) (cs : List Char) :
    ofChars? (cs ++ gap) = ofChars? cs := by
  rw [ofChars?, ofChars?, lexemes_append_gap h]

/-! ### Writing a line -/

/-- A name that can be written down and registered. -/
structure IsPlain (name : String) : Prop where
  ne_empty : name ≠ ""
  chars : ∀ c ∈ name.toList, ¬ Text.isBlank c ∧ c ≠ '|'
  no_arrow : ¬ ['-', '>'] <:+: name.toList
  ne_end : name ≠ Builder.endLabel

instance (name : String) : Decidable (IsPlain name) :=
  -- The characters of the name are tried, not all characters that there are.
  letI : Decidable (∀ c ∈ name.toList, ¬ Text.isBlank c ∧ c ≠ '|') := List.decidableBAll _ _
  decidable_of_iff (name ≠ "" ∧ (∀ c ∈ name.toList, ¬ Text.isBlank c ∧ c ≠ '|') ∧ ¬ ['-', '>'] <:+: name.toList ∧
      name ≠ Builder.endLabel)
    ⟨fun ⟨hne, hchars, harrow, hend⟩ => ⟨hne, hchars, harrow, hend⟩, fun h => ⟨h.1, h.2, h.3, h.4⟩⟩

def alternativeText (names : List String) : String := " ".intercalate names

/-- The line as it is written: an arrow, bars between the alternatives and spaces between the names. -/
def text (line : RuleLine) : String :=
  line.lhs ++ " -> " ++ " | ".intercalate (line.alternatives.map alternativeText)

/-- A line that can be written down. It does not begin like a comment or a directive. -/
structure Writable (line : RuleLine) : Prop where
  alternatives : line.alternatives ≠ []
  names : ∀ name ∈ line.names, IsPlain name
  comment : line.lhs.toList.head? ≠ some '#'
  directive : line.lhs.toList.head? ≠ some '%'

instance (line : RuleLine) : Decidable line.Writable :=
  decidable_of_iff (line.alternatives ≠ [] ∧ (∀ name ∈ line.names, IsPlain name) ∧
      line.lhs.toList.head? ≠ some '#' ∧ line.lhs.toList.head? ≠ some '%')
    ⟨fun ⟨hne, hnames, hcomment, hdirective⟩ => ⟨hne, hnames, hcomment, hdirective⟩, fun h => ⟨h.1, h.2, h.3, h.4⟩⟩

/-- A plain name is a name wherever it stands, but right before a `>`. -/
theorem IsPlain.isName {name : String} (h : IsPlain name) {rest : List Char} (hrest : rest.head? ≠ some '>') :
    IsName name.toList rest where
  ne_nil := fun hnil => h.ne_empty (String.toList_inj.mp hnil)
  chars := h.chars
  dash := by
    intro before after heq
    rcases List.append_eq_append_iff.mp heq with ⟨mid, rfl, -⟩ | ⟨mid, hname, hmid⟩
    · rw [List.length_append]
      exact Nat.le_add_right _ _
    · match mid with
      | [] => rw [hname, List.append_nil]
      | [c] =>
          obtain ⟨-, rfl⟩ := List.cons.inj hmid
          exact absurd rfl hrest
      | c :: d :: mid =>
          simp only [List.cons_append, List.cons.injEq] at hmid
          obtain ⟨rfl, rfl, -⟩ := hmid
          exact absurd ⟨before, mid, by rw [hname, List.append_assoc]; rfl⟩ h.no_arrow

/-- A plain name ends at a space, or where the line ends. -/
theorem IsPlain.lexemes_append {name : String} (h : IsPlain name) {rest : List Char}
    (hrest : rest = [] ∨ ∃ rest', rest = ' ' :: rest') :
    lexemes (name.toList ++ rest) = (lexemes rest).map (.name name :: ·) := by
  have hends : rest.head? ≠ some '>' ∧ nameLength rest = 0 := by
    rcases hrest with rfl | ⟨rest', rfl⟩
    · exact ⟨by simp, rfl⟩
    · exact ⟨by simp, nameLength_cons_of_neg (Or.inr (by decide))⟩
  rw [lexemes_name (h.isName hends.1) hends.2, String.ofList_toList]

/-- Names with single spaces between them, and nothing else or one more space behind them. -/
theorem lexemes_alternativeText {names : List String} (h : ∀ name ∈ names, IsPlain name) {rest : List Char}
    (hrest : rest = [] ∨ ∃ rest', rest = ' ' :: rest') :
    lexemes ((alternativeText names).toList ++ rest) = (lexemes rest).map (names.map .name ++ ·) := by
  induction names with
  | nil => simp [alternativeText]
  | cons name names ih =>
      obtain ⟨hname, hnames⟩ := List.forall_mem_cons.mp h
      cases names with
      | nil =>
          rw [alternativeText, String.intercalate_singleton, hname.lexemes_append hrest]
          rfl
      | cons name' names =>
          have htext : (alternativeText (name :: name' :: names)).toList ++ rest =
              name.toList ++ ' ' :: ((alternativeText (name' :: names)).toList ++ rest) := by
            simp [alternativeText]
          rw [htext, hname.lexemes_append (Or.inr ⟨_, rfl⟩), lexemes_gapChar (Or.inl rfl), ih hnames, Option.map_map]
          rfl

theorem lexemes_alternatives {first : List String} {others : List (List String)}
    (hfirst : ∀ name ∈ first, IsPlain name) (hothers : ∀ name ∈ others.flatten, IsPlain name) :
    lexemes (" | ".intercalate ((first :: others).map alternativeText)).toList =
      some (first.map .name ++ others.flatMap fun words => .bar :: words.map .name) := by
  induction others generalizing first with
  | nil =>
      have hend := lexemes_alternativeText hfirst (Or.inl rfl)
      rw [List.append_nil, lexemes] at hend
      exact hend
  | cons second others ih =>
      rw [List.flatten_cons, List.forall_mem_append] at hothers
      have htext : (" | ".intercalate ((first :: second :: others).map alternativeText)).toList =
          (alternativeText first).toList ++
            ' ' :: '|' :: ' ' :: (" | ".intercalate ((second :: others).map alternativeText)).toList := by
        simp
      rw [htext, lexemes_alternativeText hfirst (Or.inr ⟨_, rfl⟩), lexemes_gapChar (Or.inl rfl), lexemes_bar,
        lexemes_gapChar (Or.inl rfl), ih hothers.1 hothers.2]
      rfl

theorem ofChars?_text {line : RuleLine} (h : line.Writable) : ofChars? line.text.toList = some line := by
  obtain ⟨lhs, alternatives⟩ := line
  obtain ⟨first, others, rfl⟩ := List.exists_cons_of_ne_nil h.alternatives
  obtain ⟨hlhs, hnames⟩ := List.forall_mem_cons.mp h.names
  rw [List.flatten_cons, List.forall_mem_append] at hnames
  have htext : (RuleLine.mk lhs (first :: others)).text.toList =
      lhs.toList ++ ' ' :: '-' :: '>' :: ' ' :: (" | ".intercalate ((first :: others).map alternativeText)).toList := by
    simp [text]
  rw [ofChars?, htext, hlhs.lexemes_append (Or.inr ⟨_, rfl⟩), lexemes_gapChar (Or.inl rfl), lexemes_arrow,
    lexemes_gapChar (Or.inl rfl), lexemes_alternatives hnames.1 hnames.2]
  simp only [Option.map_some, readAlternatives_written]

theorem mem_intercalate {sep : String} {texts : List String} {c : Char} (h : c ∈ (sep.intercalate texts).toList) :
    c ∈ sep.toList ∨ ∃ text ∈ texts, c ∈ text.toList := by
  induction texts with
  | nil => simp at h
  | cons text texts ih =>
      cases texts with
      | nil => exact Or.inr ⟨text, List.mem_cons_self, by simpa using h⟩
      | cons text' texts =>
          rw [String.intercalate_cons_cons, String.toList_append, String.toList_append, List.mem_append,
            List.mem_append] at h
          rcases h with (h | h) | h
          · exact Or.inr ⟨text, List.mem_cons_self, h⟩
          · exact Or.inl h
          · exact (ih h).imp_right fun ⟨t, ht, hc⟩ => ⟨t, List.mem_cons_of_mem _ ht, hc⟩

/-- The only blanks in a written line are spaces. -/
theorem eq_space_of_isBlank {line : RuleLine} (h : line.Writable) {c : Char} (hc : c ∈ line.text.toList)
    (hblank : Text.isBlank c) : c = ' ' := by
  have hname {name : String} (hmem : name ∈ line.names) (hc : c ∈ name.toList) : c = ' ' :=
    absurd hblank ((h.names name hmem).chars c hc).1
  have harrow : ∀ d ∈ " -> ".toList, Text.isBlank d → d = ' ' := by simp [Text.isBlank]
  have hbar : ∀ d ∈ " | ".toList, Text.isBlank d → d = ' ' := by simp [Text.isBlank]
  have hspace : ∀ d ∈ " ".toList, Text.isBlank d → d = ' ' := by simp [Text.isBlank]
  rw [text, String.toList_append, String.toList_append, List.mem_append, List.mem_append] at hc
  rcases hc with (hc | hc) | hc
  · exact hname List.mem_cons_self hc
  · exact harrow c hc hblank
  · rcases mem_intercalate hc with hc | ⟨_, hmem, hc⟩
    · exact hbar c hc hblank
    · obtain ⟨names, hnames, rfl⟩ := List.mem_map.mp hmem
      rcases mem_intercalate hc with hc | ⟨name, hmem, hc⟩
      · exact hspace c hc hblank
      · exact hname (List.mem_cons_of_mem _ (List.mem_flatten.mpr ⟨names, hnames, hmem⟩)) hc

end RuleLine

/-! ### Reading it back -/

theorem DescriptionLine.ofTrimmed_cons {c : Char} {cs : List Char} (hcomment : c ≠ '#') (hdirective : c ≠ '%')
    {line : RuleLine} (h : RuleLine.ofChars? (c :: cs) = some line) : ofTrimmed (c :: cs) = .rules line := by
  unfold ofTrimmed
  split <;> simp_all

theorem DescriptionLine.ofChars_text {line : RuleLine} (h : line.Writable) :
    ofChars line.text.toList = .rules line := by
  have hlhs := h.names line.lhs List.mem_cons_self
  obtain ⟨c, cs, hcs⟩ := List.exists_cons_of_ne_nil fun hnil => hlhs.ne_empty (String.toList_inj.mp hnil)
  have hhead : line.lhs.toList.head? = some c := by rw [hcs]; rfl
  obtain ⟨rest, htext⟩ : ∃ rest, line.text.toList = c :: rest := by simp [RuleLine.text, hcs]
  obtain ⟨kept, gap, htrim, rfl, hgap⟩ :=
    Text.exists_trim_eq (hlhs.chars c (by rw [hcs]; exact List.mem_cons_self)).1 rest
  -- A line ends with a space if its last alternative is empty. This space is taken off before the line is read.
  have hspaces : RuleLine.IsGap gap := by
    intro d hd
    refine Or.inl (RuleLine.eq_space_of_isBlank h ?_ (hgap d hd))
    rw [htext]
    exact List.mem_cons_of_mem _ (List.mem_append_right _ hd)
  have hread := RuleLine.ofChars?_text h
  rw [htext, ← List.cons_append, RuleLine.ofChars?_append_gap hspaces] at hread
  rw [ofChars, htext, htrim]
  refine ofTrimmed_cons ?_ ?_ hread
  · rintro rfl
    exact h.comment hhead
  · rintro rfl
    exact h.directive hhead

namespace AugmentedGrammar

/-- The description that these lines make. -/
def descriptionOf (lines : List RuleLine) : String := "\n".intercalate (lines.map RuleLine.text)

theorem lines_descriptionOf {lines : List RuleLine} (hne : lines ≠ []) (h : ∀ line ∈ lines, line.Writable) :
    Text.lines (descriptionOf lines).toList = lines.map (·.text.toList) := by
  have hfeed : ∀ text ∈ lines.map (·.text.toList), '\n' ∉ text := by
    intro _ htext hmem
    obtain ⟨line, hline, rfl⟩ := List.mem_map.mp htext
    exact absurd (RuleLine.eq_space_of_isBlank (h line hline) hmem rfl) (by decide)
  rw [descriptionOf, String.toList_intercalate, List.map_map]
  exact Text.lines_intercalate (by simpa using hne) hfeed

/-- Of the labels of the grammar that is built, all but the last are those that the builder holds. -/
theorem exists_labels_ofRules {labels : Array String} {start : Symbol} {label : String}
    (hstart : labels[start]? = some label) (rules : Array Rule) :
    ∃ n, (ofRules labels rules start).labels = labels.push (primed label n) ∧ 0 < n ∧
      primed label n ∉ labels.toList ∧ ∀ m, 0 < m → m < n → primed label m ∈ labels.toList := by
  obtain ⟨n, heq, hn, hnew, hleast⟩ := exists_freshLabel_eq labels label 1
  refine ⟨n, ?_, hn, hnew, hleast⟩
  have hprime : (labels[start]?.getD "").push '\'' = primed label 1 := by
    rw [hstart]
    rfl
  rw [← heq, ← hprime]
  rfl

/-- The grammar of rules that have been written down has just these rules after its start rule. Its labels are the
end label, then the names in the order in which they first occur, then the first left-hand side with primes at its
end, as few as make it new but at least one. -/
theorem ofDescription_descriptionOf {lines : List RuleLine} (hne : lines ≠ []) (h : ∀ line ∈ lines, line.Writable) :
    ∃ g n, ofDescription (descriptionOf lines) = .ok g ∧
      List.Forall₂ (Rule.Spells g.labels) g.rules.toList.tail (lines.flatMap RuleLine.spelledRules) ∧
      g.labels[g.userStart]? = some (lines.head hne).lhs ∧
      g.labels.toList =
        Builder.endLabel :: (lines.flatMap RuleLine.names).eraseDups ++ [primed (lines.head hne).lhs n] ∧
      0 < n ∧ primed (lines.head hne).lhs n ∉ Builder.endLabel :: lines.flatMap RuleLine.names ∧
      ∀ m, 0 < m → m < n → primed (lines.head hne).lhs m ∈ Builder.endLabel :: lines.flatMap RuleLine.names := by
  have hread : List.Forall₂ (fun text line => DescriptionLine.ofChars text = .rules line) (lines.map (·.text.toList))
      lines :=
    List.forall₂_map_left_iff.mpr (List.forall₂_same.mpr fun line hline => DescriptionLine.ofChars_text (h line hline))
  have hend : ∀ line ∈ lines, ∀ name ∈ line.names, name ≠ Builder.endLabel :=
    fun line hline name hname => ((h line hline).names name hname).ne_end
  obtain ⟨r, hr, hholds⟩ := Reader.holds_empty.readLines 1 hread hend
  rw [List.nil_append] at hholds
  obtain ⟨start, hfinish, hstart⟩ := hholds.finish hne fun line hline => (h line hline).alternatives
  have hlabels : r.builder.labels.toList = Builder.endLabel :: (lines.flatMap RuleLine.names).eraseDups := by
    have hnames : (lines.flatMap RuleLine.names).filter (fun name => !name == Builder.endLabel) =
        lines.flatMap RuleLine.names := by
      refine List.filter_eq_self.mpr fun name hname => ?_
      obtain ⟨line, hline, hname⟩ := List.mem_flatMap.mp hname
      simpa using hend line hline name hname
    rw [hholds.builder.labels, List.eraseDups_cons, hnames]
  have hmem (label : String) :
      label ∈ r.builder.labels.toList ↔ label ∈ Builder.endLabel :: lines.flatMap RuleLine.names :=
    Array.mem_toList_iff.trans hholds.builder.mem_labels
  obtain ⟨n, hfresh, hn, hnew, hleast⟩ := exists_labels_ofRules hstart r.builder.rules
  have hkeep (s : Symbol) (label : String) (hs : r.builder.labels[s]? = some label) :
      (ofRules r.builder.labels r.builder.rules start).labels[s]? = some label := by
    rw [hfresh, Array.getElem?_push, if_neg (Nat.ne_of_lt (Array.getElem?_eq_some_iff.mp hs).1)]
    exact hs
  refine ⟨.ofRules r.builder.labels r.builder.rules start, n, ?_, ?_, hkeep start _ hstart, ?_, hn, ?_, ?_⟩
  · rw [ofDescription, lines_descriptionOf hne h, hr]
    exact hfinish
  · rw [rules_ofRules, Array.toList_append, List.singleton_append, List.tail_cons]
    exact hholds.builder.rules.imp fun _ _ => Rule.Spells.mono hkeep
  · rw [hfresh, Array.toList_push, hlabels]
  · rwa [← hmem]
  · intro m hm hlt
    exact (hmem _).mp (hleast m hm hlt)

/-- Rules in which dashes, signs of comments and directives and a label with a prime are names. -/
def primedLines : List RuleLine := [⟨"a", [["a'", "-", "a"], []]⟩, ⟨"a'", [["%", "#"]]⟩]

theorem ofDescription_descriptionOf_primedLines :
    (primedLines ≠ [] ∧ ∀ line ∈ primedLines, line.Writable) ∧
      ∃ g, ofDescription "a -> a' - a | \na' -> % #" = .ok g ∧
        List.Forall₂ (Rule.Spells g.labels) g.rules.toList.tail
          [("a", ["a'", "-", "a"]), ("a", []), ("a'", ["%", "#"])] ∧
        g.labels[g.userStart]? = some "a" ∧ g.labels.toList = ["$end", "a", "a'", "-", "%", "#", "a''"] := by
  have hne : primedLines ≠ [] := by decide
  have hwritable : ∀ line ∈ primedLines, line.Writable := by decide
  obtain ⟨g, n, hg, hrules, hstart, hlabels, hn, hnew, hleast⟩ := ofDescription_descriptionOf hne hwritable
  have htext : descriptionOf primedLines = "a -> a' - a | \na' -> % #" := by decide
  have hhead : (primedLines.head hne).lhs = "a" := rfl
  simp only [hhead] at hlabels hnew hleast
  have htwo : n = 2 := by
    rcases Nat.lt_trichotomy n 2 with hlt | heq | hlt
    · obtain rfl : n = 1 := by omega
      exact absurd (show primed "a" 1 ∈ _ by decide) hnew
    · exact heq
    · exact absurd (hleast 2 (by decide) hlt) (by decide)
  subst htwo
  refine ⟨⟨hne, hwritable⟩, g, htext ▸ hg, hrules, hstart, hlabels.trans ?_⟩
  decide

end AugmentedGrammar

end ShiftReduce
