import ShiftReduce.Proofs.LineNumbers
import ShiftReduce.Proofs.Writing

/-! Layout means nothing. White space at the ends of a line is taken off before anything else is done, and with it the
carriage return of a line feed. What is left of a rule line is read lexeme by lexeme, and no lexeme reaches across a
gap, an arrow or a bar, so the parts on both sides are read as if they stood alone. Hence a line says the same with
other gaps. Blank lines and comments say nothing and only move the lines behind them down. -/

namespace ShiftReduce

namespace Text

/-! ### White space at the ends of a line -/

theorem trim_append_of_blank_left {left : List Char} (h : left.dropWhile isBlank = []) (cs : List Char) :
    trim (left ++ cs) = trim cs := by
  rw [trim, trim, List.dropWhile_append, h]
  rfl

theorem rdropWhile_append {p : Char → Bool} (cs cs' : List Char) :
    (cs ++ cs').rdropWhile p = if (cs'.rdropWhile p).isEmpty then cs.rdropWhile p else cs ++ cs'.rdropWhile p := by
  unfold List.rdropWhile
  rw [List.reverse_append, List.dropWhile_append, List.isEmpty_reverse]
  split
  · rfl
  · rw [List.reverse_append, List.reverse_reverse]

theorem trim_append_of_blank_right {right : List Char} (h : ∀ c ∈ right, isBlank c) (cs : List Char) :
    trim (cs ++ right) = trim cs := by
  change ((cs ++ right).dropWhile isBlank).rdropWhile isBlank = (cs.dropWhile isBlank).rdropWhile isBlank
  have hright : right.rdropWhile isBlank = [] := List.rdropWhile_eq_nil_iff.mpr h
  rw [List.dropWhile_append]
  split
  · rename_i hempty
    rw [List.isEmpty_iff.mp hempty, List.dropWhile_eq_nil_iff.mpr h]
  · rw [rdropWhile_append, hright]
    rfl

/-- Between two texts that are not blank, white space stays. -/
theorem trim_append {left right : List Char} (hleft : left.dropWhile isBlank ≠ [])
    (hright : right.rdropWhile isBlank ≠ []) (cs : List Char) :
    trim (left ++ (cs ++ right)) = left.dropWhile isBlank ++ (cs ++ right.rdropWhile isBlank) := by
  change ((left ++ (cs ++ right)).dropWhile isBlank).rdropWhile isBlank = _
  rw [List.dropWhile_append, if_neg (by simpa using hleft), ← List.append_assoc, rdropWhile_append,
    if_neg (by simpa using hright), List.append_assoc]

/-! ### Places in a text -/

/-- A line begins behind this text. -/
def AtStart (before : List Char) : Prop := before = [] ∨ ∃ cs, before = cs ++ ['\n']

/-- A line ends before this text. -/
def AtEnd (after : List Char) : Prop := after = [] ∨ ∃ cs, after = '\n' :: cs

theorem length_lines (cs : List Char) : (lines cs).length = cs.count '\n' + 1 := by
  fun_induction lines cs with
  | case1 => rfl
  | case2 cs ih => simp [ih]
  | case3 c cs hc hnil ih => exact absurd hnil (lines_ne_nil cs)
  | case4 c cs hc l ls hlines ih =>
      have hne : c ≠ '\n' := hc
      rw [hlines] at ih
      rw [List.count_cons_of_ne hne, ← ih]
      rfl

theorem AtStart.exists_lines {before : List Char} (h : AtStart before) : ∃ texts : List (List Char),
    texts.length = before.count '\n' ∧ ∀ rest, lines (before ++ rest) = texts ++ lines rest := by
  rcases h with rfl | ⟨cs, rfl⟩
  · exact ⟨[], rfl, fun rest => rfl⟩
  · refine ⟨lines cs, ?_, fun rest => ?_⟩
    · rw [length_lines, List.count_append]
      rfl
    · rw [List.append_assoc, List.singleton_append, lines_append_lineFeed]

theorem AtEnd.exists_lines {after : List Char} (h : AtEnd after) : ∃ texts : List (List Char),
    ∀ line, '\n' ∉ line → lines (line ++ after) = line :: texts := by
  rcases h with rfl | ⟨cs, rfl⟩
  · exact ⟨[], fun line hline => by rw [List.append_nil, lines_of_not_mem hline]⟩
  · exact ⟨lines cs, fun line hline => lines_append hline cs⟩

theorem exists_lastLine (cs : List Char) : ∃ before line, cs = before ++ line ∧ AtStart before ∧ '\n' ∉ line := by
  induction cs with
  | nil => exact ⟨[], [], rfl, .inl rfl, List.not_mem_nil⟩
  | cons c cs ih =>
      obtain ⟨before, line, rfl, hbefore, hline⟩ := ih
      rcases hbefore with rfl | ⟨before, rfl⟩
      · by_cases hc : c = '\n'
        · exact ⟨[c], line, rfl, .inr ⟨[], by rw [hc]; rfl⟩, hline⟩
        · exact ⟨[], c :: line, rfl, .inl rfl, List.not_mem_cons_of_ne_of_not_mem (Ne.symm hc) hline⟩
      · exact ⟨c :: (before ++ ['\n']), line, rfl, .inr ⟨c :: before, rfl⟩, hline⟩

end Text

/-! ### Edits -/

namespace Layout

open RuleLine (IsGap lexemes)

/-- A line that is blank, or a comment. -/
def IsSilent (line : List Char) : Prop := Text.trim line = [] ∨ (Text.trim line).head? = some '#'

/-- A line that is neither blank nor a comment nor a directive. It need not be well formed. -/
structure IsRule (line : List Char) : Prop where
  ne_nil : Text.trim line ≠ []
  comment : (Text.trim line).head? ≠ some '#'
  directive : (Text.trim line).head? ≠ some '%'

/-- An arrow or a bar. -/
def IsSign (sign : List Char) : Prop := sign = ['-', '>'] ∨ sign = ['|']

/-- A line with other white space: any at its ends, and spaces and tabs inside of it if it is a rule line. -/
inductive Respaced : List Char → List Char → Prop
  | margin {line left right : List Char} : (∀ c ∈ left, Text.isBlank c ∧ c ≠ '\n') →
      (∀ c ∈ right, Text.isBlank c ∧ c ≠ '\n') → Respaced line (left ++ line ++ right)
  | gap {left gap gap' right : List Char} : IsRule (left ++ gap ++ right) → IsGap gap → gap ≠ [] → IsGap gap' →
      gap' ≠ [] → Respaced (left ++ gap ++ right) (left ++ gap' ++ right)
  | beforeSign {left gap sign right : List Char} : IsRule (left ++ sign ++ right) → IsSign sign → IsGap gap →
      Respaced (left ++ sign ++ right) (left ++ gap ++ sign ++ right)
  | afterSign {left sign gap right : List Char} : IsRule (left ++ sign ++ right) → IsSign sign → IsGap gap →
      Respaced (left ++ sign ++ right) (left ++ sign ++ gap ++ right)

/-- A text with another layout, and how many lines have been inserted before the line of a given number. -/
inductive Edit : List Char → List Char → (Nat → Nat) → Prop
  /-- A line, with a line feed behind it. The lines of `before` keep their numbers. -/
  | insert {before line after : List Char} : Text.AtStart before → '\n' ∉ line → IsSilent line →
      Edit (before ++ after) (before ++ line ++ '\n' :: after) fun n => if before.count '\n' < n then 1 else 0
  /-- A last line, with a line feed before it. -/
  | append {text line : List Char} : '\n' ∉ line → IsSilent line → Edit text (text ++ '\n' :: line) fun _ => 0
  /-- A last line of a text that ends in a line feed, or of an empty one. -/
  | extend {text line : List Char} : Text.AtStart text → '\n' ∉ line → IsSilent line →
      Edit text (text ++ line) fun _ => 0
  | carriageReturn {before after : List Char} :
      Edit (before ++ '\n' :: after) (before ++ '\r' :: '\n' :: after) fun _ => 0
  | respace {before line line' after : List Char} : Text.AtStart before → '\n' ∉ line → Text.AtEnd after →
      Respaced line line' → Edit (before ++ line ++ after) (before ++ line' ++ after) fun _ => 0

/-- A text that some edits make of another one, with the number of inserted lines. -/
inductive Relaid (text : List Char) : List Char → (Nat → Nat) → Prop
  | refl : Relaid text text fun _ => 0
  | edit {text' text'' : List Char} {inserted inserted' : Nat → Nat} : Relaid text text' inserted →
      Edit text' text'' inserted' → Relaid text text'' fun n => inserted n + inserted' (n + inserted n)

/-! ### What a line says -/

theorem ofChars_of_isSilent {line : List Char} (h : IsSilent line) : DescriptionLine.ofChars line = .silent := by
  rcases h with hnil | hcomment
  · rw [DescriptionLine.ofChars, hnil]
    rfl
  · obtain ⟨cs, hcs⟩ := List.head?_eq_some_iff.mp hcomment
    rw [DescriptionLine.ofChars, hcs]
    rfl

/-- Of a rule line, only the lexemes matter. -/
theorem ofTrimmed_congr {cs cs' : List Char} (hne : cs ≠ []) (hcomment : cs.head? ≠ some '#')
    (hdirective : cs.head? ≠ some '%') (hhead : cs'.head? = cs.head?) (h : lexemes cs = lexemes cs') :
    DescriptionLine.ofTrimmed cs = DescriptionLine.ofTrimmed cs' := by
  have hread : RuleLine.ofChars? cs = RuleLine.ofChars? cs' := by rw [RuleLine.ofChars?, h, RuleLine.ofChars?]
  obtain ⟨c, cs, rfl⟩ := List.exists_cons_of_ne_nil hne
  obtain ⟨cs', rfl⟩ := List.head?_eq_some_iff.mp hhead
  unfold DescriptionLine.ofTrimmed
  split <;> simp_all

theorem isBlank_of_isGap {gap : List Char} (h : IsGap gap) : ∀ c ∈ gap, Text.isBlank c := by
  intro c hc
  rcases h c hc with rfl | rfl <;> rfl

/-- A gap in a rule line may be exchanged for another one if that leaves the lexemes. At the ends of the line, gaps do
not count at all. -/
theorem ofChars_exchange {left gap gap' right : List Char} (hline : IsRule (left ++ (gap ++ right))) (hgap : IsGap gap)
    (hgap' : IsGap gap')
    (hlexemes : lexemes (left.dropWhile Text.isBlank ++ (gap ++ right.rdropWhile Text.isBlank)) =
      lexemes (left.dropWhile Text.isBlank ++ (gap' ++ right.rdropWhile Text.isBlank))) :
    DescriptionLine.ofChars (left ++ (gap ++ right)) = DescriptionLine.ofChars (left ++ (gap' ++ right)) := by
  have hblank := isBlank_of_isGap hgap
  have hblank' := isBlank_of_isGap hgap'
  unfold DescriptionLine.ofChars
  by_cases hleft : left.dropWhile Text.isBlank = []
  · rw [Text.trim_append_of_blank_left hleft, Text.trim_append_of_blank_left hleft,
      Text.trim_append_of_blank_left (List.dropWhile_eq_nil_iff.mpr hblank),
      Text.trim_append_of_blank_left (List.dropWhile_eq_nil_iff.mpr hblank')]
  · by_cases hright : right.rdropWhile Text.isBlank = []
    · have hblanks := List.rdropWhile_eq_nil_iff.mp hright
      rw [← List.append_assoc, ← List.append_assoc, Text.trim_append_of_blank_right hblanks,
        Text.trim_append_of_blank_right hblanks, Text.trim_append_of_blank_right hblank,
        Text.trim_append_of_blank_right hblank']
    · obtain ⟨hne, hcomment, hdirective⟩ := hline
      rw [Text.trim_append hleft hright] at hne hcomment hdirective
      rw [Text.trim_append hleft hright, Text.trim_append hleft hright]
      refine ofTrimmed_congr hne hcomment hdirective ?_ hlexemes
      rw [List.head?_append_of_ne_nil _ hleft, List.head?_append_of_ne_nil _ hleft]

section Sign

variable {sign : List Char} (h : IsSign sign)

include h

theorem breaks_sign (rest : List Char) : RuleLine.Breaks (sign ++ rest) := by
  rcases h with rfl | rfl
  · exact ⟨RuleLine.nameLength_cons_of_neg (.inl rfl), by simp⟩
  · exact ⟨RuleLine.nameLength_cons_of_neg (.inr (by decide)), by simp⟩

theorem lexemes_sign_gap {gap : List Char} (hgap : IsGap gap) (rest : List Char) :
    lexemes (sign ++ (gap ++ rest)) = lexemes (sign ++ rest) := by
  rcases h with rfl | rfl
  · change lexemes ('-' :: '>' :: (gap ++ rest)) = lexemes ('-' :: '>' :: rest)
    rw [RuleLine.lexemes_arrow, RuleLine.lexemes_arrow, RuleLine.lexemes_gap hgap]
  · change lexemes ('|' :: (gap ++ rest)) = lexemes ('|' :: rest)
    rw [RuleLine.lexemes_bar, RuleLine.lexemes_bar, RuleLine.lexemes_gap hgap]

theorem dropWhile_append_sign (left : List Char) :
    (left ++ sign).dropWhile Text.isBlank = left.dropWhile Text.isBlank ++ sign := by
  have hsign : sign.dropWhile Text.isBlank = sign := by rcases h with rfl | rfl <;> rfl
  rw [List.dropWhile_append]
  split
  · rename_i hempty
    rw [List.isEmpty_iff.mp hempty, hsign, List.nil_append]
  · rfl

theorem rdropWhile_sign_append (right : List Char) :
    (sign ++ right).rdropWhile Text.isBlank = sign ++ right.rdropWhile Text.isBlank := by
  have hsign : sign.rdropWhile Text.isBlank = sign := by rcases h with rfl | rfl <;> rfl
  rw [Text.rdropWhile_append]
  split
  · rename_i hempty
    rw [List.isEmpty_iff.mp hempty, hsign, List.append_nil]
  · rfl

end Sign

theorem lexemes_exchange {rest rest' : List Char} (h : RuleLine.Breaks rest) (h' : RuleLine.Breaks rest')
    (heq : lexemes rest = lexemes rest') (cs : List Char) : lexemes (cs ++ rest) = lexemes (cs ++ rest') := by
  rw [RuleLine.lexemes_append h, RuleLine.lexemes_append h', heq]

theorem Respaced.ofChars {line line' : List Char} (h : Respaced line line') :
    DescriptionLine.ofChars line' = DescriptionLine.ofChars line := by
  cases h with
  | @margin _ left right hleft hright =>
      rw [DescriptionLine.ofChars, DescriptionLine.ofChars,
        Text.trim_append_of_blank_right fun c hc => (hright c hc).1,
        Text.trim_append_of_blank_left (List.dropWhile_eq_nil_iff.mpr fun c hc => (hleft c hc).1)]
  | @gap left gap gap' right hrule hgap hne hgap' hne' =>
      rw [List.append_assoc] at hrule ⊢
      rw [List.append_assoc]
      refine (ofChars_exchange hrule hgap hgap' (lexemes_exchange (RuleLine.breaks_gap hgap hne _)
        (RuleLine.breaks_gap hgap' hne' _) ?_ _)).symm
      rw [RuleLine.lexemes_gap hgap, RuleLine.lexemes_gap hgap']
  | @beforeSign left gap sign right hrule hsign hgap =>
      rw [List.append_assoc] at hrule
      have hrule' : IsRule (left ++ ([] ++ (sign ++ right))) := hrule
      rw [List.append_assoc, List.append_assoc, List.append_assoc]
      by_cases hnil : gap = []
      · rw [hnil]
        rfl
      · refine (ofChars_exchange hrule' (List.forall_mem_nil _) hgap ?_).symm
        rw [rdropWhile_sign_append hsign]
        refine lexemes_exchange (breaks_sign hsign _) (RuleLine.breaks_gap hgap hnil _) ?_ _
        rw [RuleLine.lexemes_gap hgap]
  | @afterSign left sign gap right hrule hsign hgap =>
      have hrule' : IsRule (left ++ sign ++ ([] ++ right)) := hrule
      rw [List.append_assoc (left ++ sign)]
      refine (ofChars_exchange hrule' (List.forall_mem_nil _) hgap ?_).symm
      rw [dropWhile_append_sign hsign, List.append_assoc, List.append_assoc]
      exact lexemes_exchange (breaks_sign hsign _) (breaks_sign hsign _) (lexemes_sign_gap hsign hgap _).symm _

theorem not_mem_of_isGap {gap : List Char} (h : IsGap gap) : '\n' ∉ gap := by
  intro hmem
  rcases h _ hmem with heq | heq <;> cases heq

/-- No line feed comes in. -/
theorem Respaced.not_mem {line line' : List Char} (h : Respaced line line') (hline : '\n' ∉ line) : '\n' ∉ line' := by
  cases h with
  | margin hleft hright =>
      simp only [List.mem_append, not_or]
      exact ⟨⟨fun hmem => (hleft _ hmem).2 rfl, hline⟩, fun hmem => (hright _ hmem).2 rfl⟩
  | gap _ _ _ hgap' _ =>
      simp only [List.mem_append, not_or] at hline ⊢
      exact ⟨⟨hline.1.1, not_mem_of_isGap hgap'⟩, hline.2⟩
  | beforeSign _ _ hgap =>
      simp only [List.mem_append, not_or] at hline ⊢
      exact ⟨⟨⟨hline.1.1, not_mem_of_isGap hgap⟩, hline.1.2⟩, hline.2⟩
  | afterSign _ _ hgap =>
      simp only [List.mem_append, not_or] at hline ⊢
      exact ⟨⟨hline.1, not_mem_of_isGap hgap⟩, hline.2⟩

/-! ### What a text says -/

/-- Only the place of a line matters, and what it says. -/
theorem readLines_change {r : Reader} {n : Nat} {line line' : List Char}
    (h : DescriptionLine.ofChars line' = DescriptionLine.ofChars line) (before after : List (List Char)) :
    r.readLines n (before ++ line' :: after) = r.readLines n (before ++ line :: after) :=
  Reader.readLines_congr (by rw [List.map_append, List.map_append, List.map_cons, List.map_cons, h])

theorem readLines_respace {before line line' after : List Char} (hbefore : Text.AtStart before) (hline : '\n' ∉ line)
    (hafter : Text.AtEnd after) (h : Respaced line line') :
    Reader.empty.readLines 1 (Text.lines (before ++ line' ++ after)) =
      Reader.empty.readLines 1 (Text.lines (before ++ line ++ after)) := by
  obtain ⟨texts, -, hstart⟩ := hbefore.exists_lines
  obtain ⟨texts', hend⟩ := hafter.exists_lines
  rw [List.append_assoc, List.append_assoc, hstart, hstart, hend _ hline, hend _ (h.not_mem hline)]
  exact readLines_change h.ofChars _ _

theorem Edit.readLines {text text' : List Char} {inserted : Nat → Nat} (h : Edit text text' inserted) :
    Reader.empty.readLines 1 (Text.lines text') =
      (Reader.empty.readLines 1 (Text.lines text)).mapError (·.renumber fun n => n + inserted n) := by
  cases h with
  | @insert before line after hbefore hline hsilent =>
      obtain ⟨texts, hlength, hstart⟩ := hbefore.exists_lines
      rw [List.append_assoc, hstart, hstart, Text.lines_append hline, ← hlength]
      exact Reader.readLines_insert (ofChars_of_isSilent hsilent)
  | @append _ line hline hsilent =>
      refine Eq.trans ?_ (DescriptionError.mapError_renumber_id _).symm
      rw [Text.lines_append_lineFeed, Text.lines_of_not_mem hline]
      exact Reader.readLines_concat (ofChars_of_isSilent hsilent) _
  | @extend _ line hstart hline hsilent =>
      -- The text ends in an empty line, which is as silent as the new one.
      refine Eq.trans ?_ (DescriptionError.mapError_renumber_id _).symm
      obtain ⟨texts, -, hstart⟩ := hstart.exists_lines
      have hempty := hstart []
      rw [List.append_nil] at hempty
      rw [hstart, hempty, Text.lines_of_not_mem hline]
      exact readLines_change (ofChars_of_isSilent hsilent) texts []
  | @carriageReturn before after =>
      refine Eq.trans ?_ (DescriptionError.mapError_renumber_id _).symm
      obtain ⟨before, line, rfl, hbefore, hline⟩ := Text.exists_lastLine before
      have hrespaced : Respaced line ([] ++ line ++ ['\r']) := .margin (by simp) (by simp [Text.isBlank])
      have hread := readLines_respace hbefore hline (.inr ⟨after, rfl⟩) hrespaced
      simpa using hread
  | respace hbefore hline hafter hrespaced =>
      exact (readLines_respace hbefore hline hafter hrespaced).trans (DescriptionError.mapError_renumber_id _).symm

theorem Relaid.readLines {text text' : List Char} {inserted : Nat → Nat} (h : Relaid text text' inserted) :
    Reader.empty.readLines 1 (Text.lines text') =
      (Reader.empty.readLines 1 (Text.lines text)).mapError (·.renumber fun n => n + inserted n) := by
  induction h with
  | refl => exact (DescriptionError.mapError_renumber_id _).symm
  | edit _ hedit ih =>
      rw [hedit.readLines, ih, DescriptionError.mapError_renumber]
      simp only [Nat.add_assoc]

end Layout

/-- A text with another layout describes the same grammar, or else it has the same error, and a line number in it is
larger by the number of lines that have been inserted before this line. An error comes from the first line that cannot
be followed, and if a number is in it, it is the one of this line. All texts that begin with the same lines up to this
one have the error. If there is no such line, then the error has no number. -/
theorem layout_means_nothing (source : String) :
    (∀ source' inserted, Layout.Relaid source.toList source'.toList inserted →
      AugmentedGrammar.ofDescription source' =
        (AugmentedGrammar.ofDescription source).mapError (·.renumber fun n => n + inserted n)) ∧
    (∀ e, AugmentedGrammar.ofDescription source = .error e →
      (∃ n, Reader.OffendsAt (Text.lines source.toList) n e) ∨
      (∀ n e', ¬ Reader.OffendsAt (Text.lines source.toList) n e') ∧ e.line? = none) ∧
    ∀ n e, Reader.OffendsAt (Text.lines source.toList) n e → (e.line? = some n ∨ e.line? = none) ∧
      ∀ source', (Text.lines source'.toList).take n = (Text.lines source.toList).take n →
        AugmentedGrammar.ofDescription source' = .error e := by
  refine ⟨fun source' inserted hrelaid => ?_, fun e he => ?_, fun n e hoffends => ⟨hoffends.line?, ?_⟩⟩
  · rw [AugmentedGrammar.ofDescription, AugmentedGrammar.ofDescription, hrelaid.readLines, mapError_bind]
    exact congrArg _ (funext (Reader.finish_renumber _))
  · rw [AugmentedGrammar.ofDescription] at he
    cases hread : Reader.empty.readLines 1 (Text.lines source.toList) with
    | error e' =>
        rw [hread] at he
        obtain rfl := Except.error.inj he
        exact .inl (Reader.readLines_eq_error_iff.mp hread)
    | ok r =>
        rw [hread] at he
        refine .inr ⟨fun n e' hoffends => ?_, Reader.line?_of_finish he⟩
        cases hread.symm.trans (Reader.readLines_eq_error_iff.mpr ⟨n, hoffends⟩)
  · intro source' htake
    rw [AugmentedGrammar.ofDescription, Reader.readLines_eq_error_iff.mpr ⟨n, hoffends.of_take htake⟩]
    rfl

/-- A comment is put first, so the directive that is not known comes to stand in the third line. -/
theorem layout_means_nothing_commented :
    AugmentedGrammar.ofDescription "s->a|b\n%x y" = .error (.unknownDirective 2 "%x") ∧
      ∃ inserted, Layout.Relaid "s->a|b\n%x y".toList "# rules\ns->a \t|b\r\n%x y".toList inserted ∧ inserted 2 = 1 ∧
        AugmentedGrammar.ofDescription "# rules\ns->a \t|b\r\n%x y" = .error (.unknownDirective 3 "%x") := by
  have hsource : AugmentedGrammar.ofDescription "s->a|b\n%x y" = .error (.unknownDirective 2 "%x") := by cbv
  have hinsert := @Layout.Edit.insert [] "# rules".toList "s->a|b\n%x y".toList (.inl rfl) (by decide)
    (.inr (by decide))
  have hrespaced := @Layout.Respaced.beforeSign "s->a".toList " \t".toList "|".toList "b".toList
    ⟨by decide, by decide, by decide⟩ (.inr rfl) (by simp [RuleLine.IsGap, RuleLine.IsGapChar])
  have hrespace := @Layout.Edit.respace "# rules\n".toList _ _ "\n%x y".toList (.inr ⟨"# rules".toList, rfl⟩)
    (by decide) (.inr ⟨"%x y".toList, rfl⟩) hrespaced
  have hreturn := @Layout.Edit.carriageReturn "# rules\ns->a \t|b".toList "%x y".toList
  have hrelaid : Layout.Relaid "s->a|b\n%x y".toList "# rules\ns->a \t|b\r\n%x y".toList _ :=
    ((Layout.Relaid.refl.edit hinsert).edit hrespace).edit hreturn
  have hread := (layout_means_nothing _).1 _ _ hrelaid
  rw [hsource] at hread
  exact ⟨hsource, _, hrelaid, rfl, hread⟩

end ShiftReduce
