import Mathlib.Data.List.TakeWhile
import ShiftReduce.Description.RuleLine

/-! Which lines are rule lines. A split of a line says where its left-hand side, its arrow, its bars and its
names stand, and which blanks there are between them. The reader knows nothing of splits. It takes lexeme by
lexeme off the line, each as long as it can be, and the blanks vanish on the way. So the lexemes of a split line
are those that the split names, and whenever the reader gets through, what it has taken off makes a split. There
is only one for each line: a gap ends where anything but a space or a tab comes, and a name ends where it cannot
go on. -/

namespace ShiftReduce

namespace RuleLine

/-! ### Splits -/

def IsGapChar (c : Char) : Prop := c = ' ' ∨ c = '\t'

instance : DecidablePred IsGapChar := fun c => inferInstanceAs (Decidable (c = ' ' ∨ c = '\t'))

def IsGap (gap : List Char) : Prop := ∀ c ∈ gap, IsGapChar c

/-- A name in a line, where `rest` is what comes after it there. It has no white space and no bar in it, and no
dash of it has a `>` right behind it in the line. -/
structure IsName (name rest : List Char) : Prop where
  ne_nil : name ≠ []
  chars : ∀ c ∈ name, ¬ Text.isBlank c ∧ c ≠ '|'
  dash : ∀ before after, name ++ rest = before ++ '-' :: '>' :: after → name.length ≤ before.length

/-- A name and the gap after it. -/
structure SpacedName where
  name : List Char
  gap : List Char
deriving DecidableEq, Repr

/-- An alternative, with the gap after the arrow or the bar that stands before it. -/
structure Alternative where
  gap : List Char
  names : List SpacedName
deriving DecidableEq, Repr

/-- The parts into which a rule line falls. -/
structure Split where
  margin : List Char
  lhs : List Char
  /-- What stands between the left-hand side and the arrow. -/
  gap : List Char
  first : Alternative
  /-- The alternatives that have a bar before them. -/
  others : List Alternative
deriving DecidableEq, Repr

def namesText (names : List SpacedName) : List Char := names.flatMap fun n => n.name ++ n.gap

/-- Names that stand before `rest` in a line: there is a gap between two of them. -/
def AreNames : List SpacedName → List Char → Prop
  | [], _ => True
  | n :: names, rest =>
    IsName n.name (n.gap ++ (namesText names ++ rest)) ∧ IsGap n.gap ∧ (names ≠ [] → n.gap ≠ []) ∧
      AreNames names rest

def Alternative.text (a : Alternative) : List Char := a.gap ++ namesText a.names

def othersText (others : List Alternative) : List Char := others.flatMap fun a => '|' :: a.text

def Alternative.Stands (a : Alternative) (rest : List Char) : Prop := IsGap a.gap ∧ AreNames a.names rest

def OthersStand : List Alternative → Prop
  | [] => True
  | a :: others => a.Stands (othersText others) ∧ OthersStand others

namespace Split

/-- What stands behind the arrow. -/
def right (s : Split) : List Char := s.first.text ++ othersText s.others

def text (s : Split) : List Char := s.margin ++ (s.lhs ++ (s.gap ++ '-' :: '>' :: s.right))

/-- The parts are what they should be, and together they are the line. -/
structure Divides (s : Split) (line : List Char) : Prop where
  text_eq : s.text = line
  margin : IsGap s.margin
  lhs : IsName s.lhs (s.gap ++ '-' :: '>' :: s.right)
  gap : IsGap s.gap
  first : s.first.Stands (othersText s.others)
  others : OthersStand s.others

end Split

def Alternative.words (a : Alternative) : List String := a.names.map fun n => String.ofList n.name

/-- The rules that a split stands for. -/
def Split.rules (s : Split) : RuleLine := ⟨String.ofList s.lhs, s.first.words :: s.others.map (·.words)⟩

/-! ### Gaps and names have ends -/

theorem takeWhile_gap {gap rest : List Char} (h : IsGap gap) :
    (gap ++ rest).takeWhile (IsGapChar ·) = gap ++ rest.takeWhile (IsGapChar ·) :=
  List.takeWhile_append_of_pos fun c hc => decide_eq_true (h c hc)

/-- Two ways in which a line begins with a gap are the same if no more blanks come behind either. -/
theorem gap_unique {gap gap' rest rest' : List Char} (h : IsGap gap) (h' : IsGap gap')
    (hrest : rest.takeWhile (IsGapChar ·) = []) (hrest' : rest'.takeWhile (IsGapChar ·) = [])
    (heq : gap ++ rest = gap' ++ rest') : gap = gap' ∧ rest = rest' := by
  have hgap : gap = gap' :=
    calc gap
      _ = (gap ++ rest).takeWhile (IsGapChar ·) := by rw [takeWhile_gap h, hrest, List.append_nil]
      _ = (gap' ++ rest').takeWhile (IsGapChar ·) := by rw [heq]
      _ = gap' := by rw [takeWhile_gap h', hrest', List.append_nil]
  subst hgap
  exact ⟨rfl, List.append_cancel_left heq⟩

theorem isNameChar_iff {c : Char} : isNameChar c ↔ ¬ Text.isBlank c ∧ c ≠ '|' := by
  simp [isNameChar]

theorem startsArrow_iff {cs : List Char} : startsArrow cs ↔ ∃ rest, cs = '-' :: '>' :: rest := by
  unfold startsArrow
  split
  · simp
  · rename_i hshort
    simp only [Bool.false_eq_true, false_iff]
    rintro ⟨rest, rfl⟩
    exact hshort _ _ _ rfl

theorem nameLength_cons_of_pos {c : Char} {cs : List Char} (harrow : ¬ startsArrow (c :: cs)) (hc : isNameChar c) :
    nameLength (c :: cs) = nameLength cs + 1 := by
  rw [nameLength, if_neg]
  simp [harrow, hc]

theorem nameLength_cons_of_neg {c : Char} {cs : List Char} (h : startsArrow (c :: cs) ∨ ¬ isNameChar c) :
    nameLength (c :: cs) = 0 := by
  rw [nameLength, if_pos]
  simpa using h

theorem not_startsArrow_append {name rest : List Char} (hne : name ≠ [])
    (hdash : ∀ before after, name ++ rest = before ++ '-' :: '>' :: after → name.length ≤ before.length) :
    ¬ startsArrow (name ++ rest) := by
  intro h
  obtain ⟨after, hafter⟩ := startsArrow_iff.mp h
  exact hne (List.length_eq_zero_iff.mp (Nat.le_zero.mp (hdash [] after hafter)))

/-- A name reaches exactly as far as the reader goes, if it cannot go on. -/
theorem nameLength_append {name rest : List Char} (hchars : ∀ c ∈ name, ¬ Text.isBlank c ∧ c ≠ '|')
    (hdash : ∀ before after, name ++ rest = before ++ '-' :: '>' :: after → name.length ≤ before.length)
    (hrest : nameLength rest = 0) : nameLength (name ++ rest) = name.length := by
  -- The conditions are not put together as `IsName`, since at the end of the induction nothing is left of the name.
  induction name with
  | nil => exact hrest
  | cons c name ih =>
      have harrow : ¬ startsArrow (c :: (name ++ rest)) := not_startsArrow_append (List.cons_ne_nil c name) hdash
      have hc := isNameChar_iff.mpr (hchars c List.mem_cons_self)
      rw [List.cons_append, nameLength_cons_of_pos harrow hc, List.length_cons, ih]
      · exact fun d hd => hchars d (List.mem_cons_of_mem c hd)
      · intro before after heq
        have hlength := hdash (c :: before) after (by rw [List.cons_append, heq, List.cons_append])
        simpa using hlength

theorem IsName.nameLength {name rest : List Char} (h : IsName name rest) (hrest : nameLength rest = 0) :
    nameLength (name ++ rest) = name.length :=
  nameLength_append h.chars h.dash hrest

theorem name_unique {name name' rest rest' : List Char} (h : IsName name rest) (h' : IsName name' rest')
    (hrest : nameLength rest = 0) (hrest' : nameLength rest' = 0) (heq : name ++ rest = name' ++ rest') :
    name = name' ∧ rest = rest' := by
  apply List.append_inj heq
  rw [← h.nameLength hrest, heq, h'.nameLength hrest']

theorem IsName.exists_cons {name rest : List Char} (h : IsName name rest) :
    ∃ c cs, name = c :: cs ∧ ¬ Text.isBlank c ∧ c ≠ '|' := by
  obtain ⟨c, cs, rfl⟩ := List.exists_cons_of_ne_nil h.ne_nil
  exact ⟨c, cs, rfl, h.chars c List.mem_cons_self⟩

/-! #### What the reader takes off as a name -/

theorem nameLength_drop (cs : List Char) : nameLength (cs.drop (nameLength cs)) = 0 := by
  induction cs with
  | nil => rfl
  | cons c cs ih =>
      by_cases h : startsArrow (c :: cs) ∨ ¬ isNameChar c
      · rw [nameLength_cons_of_neg h, List.drop_zero, nameLength_cons_of_neg h]
      · simp only [not_or, not_not] at h
        rw [nameLength_cons_of_pos h.1 h.2, List.drop_succ_cons, ih]

theorem chars_of_mem_take {cs : List Char} {c : Char} (h : c ∈ cs.take (nameLength cs)) :
    ¬ Text.isBlank c ∧ c ≠ '|' := by
  induction cs with
  | nil => cases h
  | cons d cs ih =>
      by_cases hd : startsArrow (d :: cs) ∨ ¬ isNameChar d
      · rw [nameLength_cons_of_neg hd] at h
        cases h
      · simp only [not_or, not_not] at hd
        rw [nameLength_cons_of_pos hd.1 hd.2, List.take_succ_cons] at h
        rcases List.mem_cons.mp h with rfl | h
        · exact isNameChar_iff.mp hd.2
        · exact ih h

theorem nameLength_le_of_arrow {before after : List Char} :
    nameLength (before ++ '-' :: '>' :: after) ≤ before.length := by
  induction before with
  | nil => exact Nat.le_of_eq (nameLength_cons_of_neg (Or.inl rfl))
  | cons c before ih =>
      rw [List.cons_append, List.length_cons]
      by_cases h : startsArrow (c :: (before ++ '-' :: '>' :: after)) ∨ ¬ isNameChar c
      · rw [nameLength_cons_of_neg h]
        exact Nat.zero_le _
      · simp only [not_or, not_not] at h
        rw [nameLength_cons_of_pos h.1 h.2]
        exact Nat.succ_le_succ ih

theorem nameLength_le (cs : List Char) : nameLength cs ≤ cs.length := by
  induction cs with
  | nil => exact Nat.le_refl 0
  | cons c cs ih =>
      rw [nameLength]
      split
      · exact Nat.zero_le _
      · exact Nat.succ_le_succ ih

theorem isName_take {cs : List Char} (h : 0 < nameLength cs) :
    IsName (cs.take (nameLength cs)) (cs.drop (nameLength cs)) where
  ne_nil := by
    intro hnil
    have hlength := congrArg List.length hnil
    rw [List.length_take_of_le (nameLength_le cs)] at hlength
    exact absurd hlength (Nat.ne_of_gt h)
  chars := fun c => chars_of_mem_take
  dash := by
    intro before after heq
    rw [List.take_append_drop] at heq
    rw [List.length_take_of_le (nameLength_le cs), heq]
    exact nameLength_le_of_arrow

theorem nameLength_of_gap {gap rest : List Char} (h : IsGap gap) (hne : gap ≠ []) : nameLength (gap ++ rest) = 0 := by
  obtain ⟨c, gap, rfl⟩ := List.exists_cons_of_ne_nil hne
  refine nameLength_cons_of_neg (Or.inr fun hc => (isNameChar_iff.mp hc).1 ?_)
  rcases h c List.mem_cons_self with rfl | rfl <;> rfl

theorem IsName.nameLength_pos {name rest : List Char} (h : IsName name rest) :
    0 < RuleLine.nameLength (name ++ rest) := by
  obtain ⟨c, cs, rfl, hc⟩ := h.exists_cons
  have harrow : ¬ startsArrow (c :: (cs ++ rest)) := not_startsArrow_append h.ne_nil h.dash
  rw [List.cons_append, nameLength_cons_of_pos harrow (isNameChar_iff.mpr hc)]
  exact Nat.succ_pos _

theorem IsName.takeWhile_gap {name rest : List Char} (h : IsName name rest) :
    (name ++ rest).takeWhile (IsGapChar ·) = [] := by
  obtain ⟨c, cs, rfl, hblank, -⟩ := h.exists_cons
  have hc : ¬ IsGapChar c := by
    rintro (rfl | rfl) <;> exact hblank rfl
  simp [hc]

/-! ### The lexemes of the parts -/

theorem not_startsArrow {c : Char} {cs : List Char} (h : c ≠ '-') : ¬ startsArrow (c :: cs) := by
  intro hstarts
  obtain ⟨rest, heq⟩ := startsArrow_iff.mp hstarts
  exact h (List.cons.inj heq).1

theorem lexemes_arrow (rest : List Char) : lexemes ('-' :: '>' :: rest) = (lexemes rest).map (.arrow :: ·) := by
  rw [lexemes, if_pos (startsArrow_iff.mpr ⟨rest, rfl⟩), List.tail_cons]

theorem lexemes_gapChar {c : Char} (hc : IsGapChar c) (rest : List Char) : lexemes (c :: rest) = lexemes rest := by
  have hgap : c = ' ' ∨ c = '\t' := hc
  have harrow : ¬ startsArrow (c :: rest) := not_startsArrow (by rcases hgap with rfl | rfl <;> decide)
  rw [lexemes, if_neg harrow, if_pos hgap]

theorem lexemes_gap {gap : List Char} (h : IsGap gap) (rest : List Char) : lexemes (gap ++ rest) = lexemes rest := by
  induction gap with
  | nil => rfl
  | cons c gap ih =>
      rw [List.cons_append, lexemes_gapChar (h c List.mem_cons_self)]
      exact ih fun d hd => h d (List.mem_cons_of_mem c hd)

theorem lexemes_bar (rest : List Char) : lexemes ('|' :: rest) = (lexemes rest).map (.bar :: ·) := by
  rw [lexemes, if_neg (not_startsArrow (by decide)), if_neg (by decide), if_pos rfl]

/-- What can begin a name is taken off as one. -/
theorem lexemes_of_nameLength_pos {cs : List Char} (h : 0 < nameLength cs) :
    lexemes cs =
      (lexemes (cs.drop (nameLength cs))).map (.name (String.ofList (cs.take (nameLength cs))) :: ·) := by
  obtain ⟨c, cs, rfl⟩ := List.exists_cons_of_ne_nil (l := cs) (by rintro rfl; exact absurd h (by decide))
  have harrow : ¬ startsArrow (c :: cs) := fun hstarts => absurd h (by simp [nameLength_cons_of_neg (.inl hstarts)])
  have hname : isNameChar c := by
    by_contra hc
    exact absurd h (by simp [nameLength_cons_of_neg (.inr hc)])
  obtain ⟨hblank, hbar⟩ := isNameChar_iff.mp hname
  have hgap : ¬ (c = ' ' ∨ c = '\t') := by
    rintro (rfl | rfl) <;> exact hblank rfl
  rw [nameLength_cons_of_pos harrow hname, lexemes, if_neg harrow, if_neg hgap, if_neg hbar, if_neg hblank,
    List.drop_succ_cons, List.take_succ_cons]

theorem lexemes_name {name rest : List Char} (h : IsName name rest) (hrest : nameLength rest = 0) :
    lexemes (name ++ rest) = (lexemes rest).map (.name (String.ofList name) :: ·) := by
  rw [lexemes_of_nameLength_pos h.nameLength_pos, h.nameLength hrest, List.take_left, List.drop_left]

/-! ### The lexemes of a split line -/

theorem nameLength_othersText (others : List Alternative) : nameLength (othersText others) = 0 := by
  cases others with
  | nil => rfl
  | cons a others => exact nameLength_cons_of_neg (Or.inr (by decide))

theorem takeWhile_othersText (others : List Alternative) : (othersText others).takeWhile (IsGapChar ·) = [] := by
  cases others with
  | nil => rfl
  | cons a others => rfl

/-- A name among others cannot go on, for the gap after it is empty only if it is the last one. -/
theorem AreNames.nameLength_after {n : SpacedName} {names : List SpacedName} {rest : List Char}
    (h : AreNames (n :: names) rest) (hrest : nameLength rest = 0) :
    nameLength (n.gap ++ (namesText names ++ rest)) = 0 := by
  obtain ⟨-, hgap, hsep, -⟩ := h
  by_cases hnil : n.gap = []
  · have hlast : names = [] := by
      by_contra hne
      exact hsep hne hnil
    rw [hnil, hlast]
    exact hrest
  · exact nameLength_of_gap hgap hnil

theorem namesText_cons_append (n : SpacedName) (names : List SpacedName) (rest : List Char) :
    namesText (n :: names) ++ rest = n.name ++ (n.gap ++ (namesText names ++ rest)) := by
  simp [namesText]

theorem lexemes_names {names : List SpacedName} {rest : List Char} (h : AreNames names rest)
    (hrest : nameLength rest = 0) :
    lexemes (namesText names ++ rest) =
      (lexemes rest).map ((names.map fun n => .name (String.ofList n.name)) ++ ·) := by
  induction names with
  | nil => simp [namesText]
  | cons n names ih =>
      have hafter := h.nameLength_after hrest
      obtain ⟨hname, hgap, -, hnames⟩ := h
      rw [namesText_cons_append, lexemes_name hname hafter, lexemes_gap hgap, ih hnames, Option.map_map]
      rfl

theorem lexemes_alternative {a : Alternative} {rest : List Char} (h : a.Stands rest) (hrest : nameLength rest = 0) :
    lexemes (a.text ++ rest) = (lexemes rest).map (a.words.map .name ++ ·) := by
  obtain ⟨hgap, hnames⟩ := h
  rw [Alternative.text, List.append_assoc, lexemes_gap hgap, lexemes_names hnames hrest, Alternative.words,
    List.map_map]
  rfl

theorem lexemes_others {others : List Alternative} (h : OthersStand others) :
    lexemes (othersText others) = some ((others.map (·.words)).flatMap fun words => .bar :: words.map .name) := by
  induction others with
  | nil => rw [othersText, List.flatMap_nil, lexemes, List.map_nil, List.flatMap_nil]
  | cons a others ih =>
      obtain ⟨ha, hothers⟩ := h
      have htext : othersText (a :: others) = '|' :: (a.text ++ othersText others) := rfl
      rw [htext, lexemes_bar, lexemes_alternative ha (nameLength_othersText others), ih hothers]
      rfl

theorem readAlternatives_names (words : List String) {l : List Lexeme} {a : List String} {rest : List (List String)}
    (h : readAlternatives l = some (a :: rest)) :
    readAlternatives (words.map .name ++ l) = some ((words ++ a) :: rest) := by
  induction words with
  | nil => exact h
  | cons w words ih => rw [List.map_cons, List.cons_append, readAlternatives, ih, List.cons_append]

theorem readAlternatives_others (others : List (List String)) :
    readAlternatives (others.flatMap fun words => .bar :: words.map .name) = some ([] :: others) := by
  induction others with
  | nil => rfl
  | cons words others ih =>
      rw [List.flatMap_cons, List.cons_append, readAlternatives, readAlternatives_names words ih, List.append_nil]
      rfl

/-- The reader gets back the alternatives that have been written with bars between them. -/
theorem readAlternatives_written (first : List String) (others : List (List String)) :
    readAlternatives (first.map .name ++ others.flatMap fun words => .bar :: words.map .name) =
      some (first :: others) := by
  rw [readAlternatives_names first (readAlternatives_others others), List.append_nil]

theorem Split.Divides.nameLength_after {s : Split} {line : List Char} (h : s.Divides line) :
    nameLength (s.gap ++ '-' :: '>' :: s.right) = 0 := by
  by_cases hnil : s.gap = []
  · rw [hnil]
    exact nameLength_cons_of_neg (Or.inl rfl)
  · exact nameLength_of_gap h.gap hnil

/-- The reader gets the rules that a split stands for. -/
theorem Split.Divides.ofChars? {s : Split} {line : List Char} (h : s.Divides line) :
    ofChars? line = some s.rules := by
  have hright : lexemes s.right =
      some (s.first.words.map .name ++ (s.others.map (·.words)).flatMap fun words => .bar :: words.map .name) := by
    rw [Split.right, lexemes_alternative h.first (nameLength_othersText s.others), lexemes_others h.others]
    rfl
  have hline : lexemes line = some (.name (String.ofList s.lhs) :: .arrow ::
      (s.first.words.map .name ++ (s.others.map (·.words)).flatMap fun words => .bar :: words.map .name)) := by
    rw [← h.text_eq, Split.text, lexemes_gap h.margin, lexemes_name h.lhs h.nameLength_after,
      lexemes_gap h.gap, lexemes_arrow, hright]
    rfl
  rw [RuleLine.ofChars?, hline]
  simp only [readAlternatives_written]
  rfl

/-! ### What the reader gets through makes a split -/

/-- How a line falls into lexemes. -/
inductive FallsInto : List Char → List Lexeme → Prop
  | nil : FallsInto [] []
  | gap {c : Char} {cs : List Char} {l : List Lexeme} : IsGapChar c → FallsInto cs l → FallsInto (c :: cs) l
  | arrow {cs : List Char} {l : List Lexeme} : FallsInto cs l → FallsInto ('-' :: '>' :: cs) (.arrow :: l)
  | bar {cs : List Char} {l : List Lexeme} : FallsInto cs l → FallsInto ('|' :: cs) (.bar :: l)
  | name {name rest : List Char} {l : List Lexeme} : IsName name rest → nameLength rest = 0 → FallsInto rest l →
      FallsInto (name ++ rest) (.name (String.ofList name) :: l)

theorem fallsInto_of_lexemes {cs : List Char} {l : List Lexeme} (h : lexemes cs = some l) : FallsInto cs l := by
  fun_induction lexemes cs generalizing l with
  | case1 =>
      obtain rfl := Option.some.inj h
      exact .nil
  | case2 c cs harrow ih =>
      obtain ⟨rest, heq⟩ := startsArrow_iff.mp harrow
      obtain ⟨rfl, rfl⟩ := List.cons.inj heq
      obtain ⟨l, hl, rfl⟩ := Option.map_eq_some_iff.mp h
      exact .arrow (ih hl)
  | case3 c cs _ hgap ih => exact .gap hgap (ih h)
  | case4 cs _ _ ih =>
      obtain ⟨l, hl, rfl⟩ := Option.map_eq_some_iff.mp h
      exact .bar (ih hl)
  | case5 => cases h
  | case6 c cs harrow _ hbar hblank =>
      rename_i ih
      obtain ⟨l, hl, rfl⟩ := Option.map_eq_some_iff.mp h
      have hlength : nameLength (c :: cs) = nameLength cs + 1 :=
        nameLength_cons_of_pos harrow (isNameChar_iff.mpr ⟨hblank, hbar⟩)
      have hpos : 0 < nameLength (c :: cs) := hlength ▸ Nat.succ_pos _
      have hname := isName_take hpos
      rw [hlength, List.take_succ_cons, List.drop_succ_cons] at hname
      have hread := FallsInto.name hname (nameLength_drop cs) (ih hl)
      rwa [List.cons_append, List.take_append_drop] at hread

/-- A line whose first lexeme is a name begins with a gap and that name. -/
theorem FallsInto.exists_name {cs : List Char} {name : String} {l : List Lexeme} (h : FallsInto cs (.name name :: l)) :
    ∃ margin text rest, cs = margin ++ (text ++ rest) ∧ IsGap margin ∧ IsName text rest ∧ name = String.ofList text ∧
      FallsInto rest l := by
  generalize hl : Lexeme.name name :: l = l' at h
  induction h with
  | nil => cases hl
  | arrow => cases hl
  | bar => cases hl
  | @gap c cs l' hc _ ih =>
      obtain ⟨margin, text, rest, rfl, hmargin, hrest⟩ := ih hl
      exact ⟨c :: margin, text, rest, rfl, List.forall_mem_cons.mpr ⟨hc, hmargin⟩, hrest⟩
  | @name text rest l' htext _ hread =>
      obtain ⟨hname, rfl⟩ := List.cons.inj hl
      exact ⟨[], text, rest, rfl, List.forall_mem_nil _, htext, Lexeme.name.inj hname, hread⟩

/-- A line whose first lexeme is an arrow begins with a gap and an arrow. -/
theorem FallsInto.exists_arrow {cs : List Char} {l : List Lexeme} (h : FallsInto cs (.arrow :: l)) :
    ∃ gap rest, cs = gap ++ '-' :: '>' :: rest ∧ IsGap gap ∧ FallsInto rest l := by
  generalize hl : Lexeme.arrow :: l = l' at h
  induction h with
  | nil => cases hl
  | bar => cases hl
  | name => cases hl
  | @gap c cs l' hc _ ih =>
      obtain ⟨gap, rest, rfl, hgap, hrest⟩ := ih hl
      exact ⟨c :: gap, rest, rfl, List.forall_mem_cons.mpr ⟨hc, hgap⟩, hrest⟩
  | @arrow cs l' hread =>
      obtain ⟨-, rfl⟩ := List.cons.inj hl
      exact ⟨[], cs, rfl, List.forall_mem_nil _, hread⟩

/-- What stands behind the arrow falls into alternatives. -/
theorem FallsInto.exists_alternatives {cs : List Char} {l : List Lexeme} (h : FallsInto cs l)
    {alternatives : List (List String)} (halternatives : readAlternatives l = some alternatives) :
    ∃ (first : Alternative) (others : List Alternative), first.text ++ othersText others = cs ∧
      first.Stands (othersText others) ∧ OthersStand others ∧
      alternatives = first.words :: others.map (·.words) := by
  induction h generalizing alternatives with
  | nil =>
      obtain rfl := Option.some.inj halternatives
      exact ⟨⟨[], []⟩, [], rfl, ⟨List.forall_mem_nil _, trivial⟩, trivial, rfl⟩
  | @gap c cs l hc _ ih =>
      obtain ⟨first, others, rfl, ⟨hgap, hnames⟩, hothers, rfl⟩ := ih halternatives
      exact ⟨⟨c :: first.gap, first.names⟩, others, rfl, ⟨List.forall_mem_cons.mpr ⟨hc, hgap⟩, hnames⟩, hothers, rfl⟩
  | arrow => cases halternatives
  | bar _ ih =>
      obtain ⟨rest, hrest, rfl⟩ := Option.map_eq_some_iff.mp halternatives
      obtain ⟨first, others, rfl, hfirst, hothers, rfl⟩ := ih hrest
      exact ⟨⟨[], []⟩, first :: others, rfl, ⟨List.forall_mem_nil _, trivial⟩, ⟨hfirst, hothers⟩, rfl⟩
  | @name name rest l hname hlength _ ih =>
      rw [readAlternatives] at halternatives
      split at halternatives
      · rename_i a alternatives hrest
        obtain rfl := Option.some.inj halternatives
        obtain ⟨first, others, rfl, ⟨hgap, hnames⟩, hothers, heq⟩ := ih hrest
        obtain ⟨rfl, rfl⟩ := List.cons.inj heq
        -- The name has been read as far as it goes, so another one cannot begin right behind it.
        have hsep : first.names ≠ [] → first.gap ≠ [] := by
          intro hne hnil
          obtain ⟨n, names, hfirst⟩ := List.exists_cons_of_ne_nil hne
          rw [hfirst] at hnames
          rw [Alternative.text, hnil, hfirst, List.nil_append, namesText_cons_append] at hlength
          exact absurd hlength (Nat.ne_of_gt hnames.1.nameLength_pos)
        refine ⟨⟨[], ⟨name, first.gap⟩ :: first.names⟩, others, ?_, ⟨List.forall_mem_nil _, ?_⟩, hothers, rfl⟩
        · simp [Alternative.text, namesText]
        · rw [Alternative.text, List.append_assoc] at hname
          exact ⟨hname, hgap, hsep, hnames⟩
      · cases halternatives

theorem exists_divides_of_ofChars? {line : List Char} {r : RuleLine} (h : ofChars? line = some r) :
    ∃ s : Split, s.Divides line := by
  rw [ofChars?] at h
  split at h
  · rename_i lhs l hlexemes
    obtain ⟨alternatives, halternatives, rfl⟩ := Option.map_eq_some_iff.mp h
    obtain ⟨margin, text, rest, rfl, hmargin, htext, -, hrest⟩ := (fallsInto_of_lexemes hlexemes).exists_name
    obtain ⟨gap, right, rfl, hgap, hright⟩ := hrest.exists_arrow
    obtain ⟨first, others, rfl, hfirst, hothers, -⟩ := hright.exists_alternatives halternatives
    exact ⟨⟨margin, text, gap, first, others⟩, rfl, hmargin, htext, hgap, hfirst, hothers⟩
  · cases h

/-! ### There is only one split -/

theorem takeWhile_names {names : List SpacedName} {rest : List Char} (h : AreNames names rest)
    (hrest : rest.takeWhile (IsGapChar ·) = []) : (namesText names ++ rest).takeWhile (IsGapChar ·) = [] := by
  cases names with
  | nil => exact hrest
  | cons n names =>
      rw [namesText_cons_append]
      exact h.1.takeWhile_gap

theorem names_unique {names names' : List SpacedName} {rest rest' : List Char} (h : AreNames names rest)
    (h' : AreNames names' rest') (hlength : nameLength rest = 0) (hlength' : nameLength rest' = 0)
    (hgap : rest.takeWhile (IsGapChar ·) = []) (hgap' : rest'.takeWhile (IsGapChar ·) = [])
    (heq : namesText names ++ rest = namesText names' ++ rest') : names = names' ∧ rest = rest' := by
  induction names generalizing names' with
  | nil =>
      cases names' with
      | nil => exact ⟨rfl, heq⟩
      | cons n names' =>
          rw [namesText_cons_append] at heq
          have hpos := h'.1.nameLength_pos
          rw [← heq] at hpos
          exact absurd hlength (Nat.ne_of_gt hpos)
  | cons n names ih =>
      cases names' with
      | nil =>
          rw [namesText_cons_append] at heq
          have hpos := h.1.nameLength_pos
          rw [heq] at hpos
          exact absurd hlength' (Nat.ne_of_gt hpos)
      | cons n' names' =>
          have hafter := h.nameLength_after hlength
          have hafter' := h'.nameLength_after hlength'
          obtain ⟨name, gap⟩ := n
          obtain ⟨name', gap'⟩ := n'
          obtain ⟨hname, hngap, -, hnames⟩ := h
          obtain ⟨hname', hngap', -, hnames'⟩ := h'
          rw [namesText_cons_append, namesText_cons_append] at heq
          obtain ⟨rfl, hgaps⟩ := name_unique hname hname' hafter hafter' heq
          obtain ⟨rfl, hafters⟩ := gap_unique hngap hngap' (takeWhile_names hnames hgap)
            (takeWhile_names hnames' hgap') hgaps
          obtain ⟨rfl, rfl⟩ := ih hnames hnames' hafters
          exact ⟨rfl, rfl⟩

theorem alternative_unique {a a' : Alternative} {others others' : List Alternative} (h : a.Stands (othersText others))
    (h' : a'.Stands (othersText others')) (heq : a.text ++ othersText others = a'.text ++ othersText others') :
    a = a' ∧ othersText others = othersText others' := by
  obtain ⟨gap, names⟩ := a
  obtain ⟨gap', names'⟩ := a'
  obtain ⟨hgap, hnames⟩ := h
  obtain ⟨hgap', hnames'⟩ := h'
  simp only [Alternative.text, List.append_assoc] at heq
  obtain ⟨rfl, hafter⟩ := gap_unique hgap hgap' (takeWhile_names hnames (takeWhile_othersText others))
    (takeWhile_names hnames' (takeWhile_othersText others')) heq
  obtain ⟨rfl, hothers⟩ := names_unique hnames hnames' (nameLength_othersText others) (nameLength_othersText others')
    (takeWhile_othersText others) (takeWhile_othersText others') hafter
  exact ⟨rfl, hothers⟩

theorem others_unique {others others' : List Alternative} (h : OthersStand others) (h' : OthersStand others')
    (heq : othersText others = othersText others') : others = others' := by
  induction others generalizing others' with
  | nil =>
      cases others' with
      | nil => rfl
      | cons => cases heq
  | cons a others ih =>
      cases others' with
      | nil => cases heq
      | cons a' others' =>
          obtain ⟨rfl, hothers⟩ := alternative_unique h.1 h'.1 (List.cons.inj heq).2
          rw [ih h.2 h'.2 hothers]

theorem Split.Divides.unique {s s' : Split} {line : List Char} (h : s.Divides line) (h' : s'.Divides line) :
    s = s' := by
  have hafter := h.nameLength_after
  have hafter' := h'.nameLength_after
  obtain ⟨margin, lhs, gap, first, others⟩ := s
  obtain ⟨margin', lhs', gap', first', others'⟩ := s'
  have heq := h.text_eq.trans h'.text_eq.symm
  obtain ⟨rfl, heq⟩ := gap_unique h.margin h'.margin h.lhs.takeWhile_gap h'.lhs.takeWhile_gap heq
  obtain ⟨rfl, heq⟩ := name_unique h.lhs h'.lhs hafter hafter' heq
  obtain ⟨rfl, heq⟩ := gap_unique h.gap h'.gap rfl rfl heq
  obtain ⟨rfl, heq⟩ := alternative_unique h.first h'.first (List.cons.inj (List.cons.inj heq).2).2
  obtain rfl := others_unique h.others h'.others heq
  rfl

/-- A line is a rule line exactly if there is a way to split it. Then there is only one, and the rules of the line
are those that the split stands for. -/
theorem ofChars?_iff_split (line : List Char) :
    ((∃ r, ofChars? line = some r) ↔ ∃ s : Split, s.Divides line) ∧
      ∀ s : Split, s.Divides line → ofChars? line = some s.rules ∧ ∀ s' : Split, s'.Divides line → s' = s := by
  refine ⟨⟨?_, ?_⟩, fun s hs => ⟨hs.ofChars?, fun s' hs' => hs'.unique hs⟩⟩
  · rintro ⟨r, hr⟩
    exact exists_divides_of_ofChars? hr
  · rintro ⟨s, hs⟩
    exact ⟨s.rules, hs.ofChars?⟩

example : ofChars? "a-->b c|".toList = some ⟨"a-", [["b", "c"], []]⟩ := by cbv

end RuleLine

end ShiftReduce
