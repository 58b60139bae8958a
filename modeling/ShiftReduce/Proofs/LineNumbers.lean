import ShiftReduce.Proofs.Registration

/-! Where a description goes wrong. Lines are read one after the other, and the first one that cannot be followed ends
the reading, so what comes after it is never seen. An error that is about a line has the number of this line, and for
the rest a line means the same under any number. An error that shows only when all lines have been read has none. -/

namespace ShiftReduce

theorem mapError_bind {ε ε' α β : Type} (x : Except ε α) (f : α → Except ε β) (rename : ε → ε') :
    (x.bind f).mapError rename = (x.mapError rename).bind fun a => (f a).mapError rename := by
  cases x <;> rfl

namespace DescriptionError

/-- The number in an error that has one. -/
def line? : DescriptionError → Option Nat
  | malformedRule n | unknownDirective n _ | directiveArguments n _ _ => some n
  | noRules | grammar _ => none

/-- The error, with another number in it. -/
def renumber (f : Nat → Nat) : DescriptionError → DescriptionError
  | malformedRule n => malformedRule (f n)
  | unknownDirective n name => unknownDirective (f n) name
  | directiveArguments n name expected => directiveArguments (f n) name expected
  | noRules => noRules
  | grammar e => grammar e

theorem line?_renumber (f : Nat → Nat) (e : DescriptionError) : (e.renumber f).line? = e.line?.map f := by
  cases e <;> rfl

theorem mapError_renumber_id {α : Type} (x : Except DescriptionError α) :
    x.mapError (·.renumber fun n => n) = x := by
  rcases x with (_ | _ | _ | _ | _) | _ <;> rfl

theorem mapError_renumber {α : Type} (f f' : Nat → Nat) (x : Except DescriptionError α) :
    (x.mapError (·.renumber f)).mapError (·.renumber f') = x.mapError (·.renumber fun n => f' (f n)) := by
  rcases x with (_ | _ | _ | _ | _) | _ <;> rfl

end DescriptionError

namespace Reader

variable {r : Reader} {n : Nat}

/-- The number of a line goes into its error, if anywhere. -/
theorem readLine_renumber {f : Nat → Nat} (r : Reader) (n : Nat) (line : DescriptionLine) :
    r.readLine (f n) line = (r.readLine n line).mapError (·.renumber f) := by
  cases line with
  | silent => rfl
  | malformed => rfl
  | rules line =>
      rw [readLine, readLine]
      cases r.addRules line <;> rfl
  | directive name arguments =>
      change r.direct (f n) name arguments = (r.direct n name arguments).mapError (·.renumber f)
      unfold direct
      split
      · split <;> rfl
      · split
        · rcases arguments with _ | ⟨label, _ | ⟨label', arguments⟩⟩ <;> rfl
        · rfl

theorem line?_of_readLine {line : DescriptionLine} {e : DescriptionError} (h : r.readLine n line = .error e) :
    e.line? = some n ∨ e.line? = none := by
  -- Under a number that is moved to the given one, the error comes out with the given one.
  have hmoved := readLine_renumber (f := fun _ => n) r n line
  rw [h] at hmoved
  have heq : e = e.renumber fun _ => n := Except.error.inj hmoved
  rw [heq, DescriptionError.line?_renumber]
  cases e.line? with
  | none => exact .inr rfl
  | some m => exact .inl rfl

theorem line?_of_finish {e : DescriptionError} (h : r.finish = .error e) : e.line? = none := by
  unfold finish at h
  split at h
  · obtain rfl := Except.error.inj h
    rfl
  · rename_i label _
    dsimp only at h
    cases hbuild : ((r.builder.addToken label).2.setStart (r.builder.addToken label).1).bind Builder.build with
    | ok g =>
        rw [hbuild] at h
        cases h
    | error e' =>
        rw [hbuild] at h
        obtain rfl := Except.error.inj h
        rfl

theorem finish_renumber (f : Nat → Nat) (r : Reader) : r.finish = r.finish.mapError (·.renumber f) := by
  cases hfinish : r.finish with
  | ok g => rfl
  | error e =>
      have hnone := line?_of_finish hfinish
      cases e <;> first | rfl | cases hnone

/-! ### Many lines -/

theorem readLines_append (r : Reader) (n : Nat) (before after : List (List Char)) :
    r.readLines n (before ++ after) = (r.readLines n before).bind fun r => r.readLines (n + before.length) after := by
  induction before generalizing r n with
  | nil => rfl
  | cons text before ih =>
      rw [List.cons_append, readLines, readLines]
      split
      · rfl
      · rw [ih, List.length_cons, Nat.add_assoc, Nat.add_comm 1]

/-- Lines that say the same are read alike. -/
theorem readLines_congr {texts texts' : List (List Char)}
    (h : texts.map DescriptionLine.ofChars = texts'.map DescriptionLine.ofChars) :
    r.readLines n texts = r.readLines n texts' := by
  induction texts generalizing r n texts' with
  | nil => rw [List.map_eq_nil_iff.mp h.symm]
  | cons text texts ih =>
      cases texts' with
      | nil => cases h
      | cons text' texts' =>
          obtain ⟨hline, hlines⟩ := List.cons.inj h
          rw [readLines, readLines, hline]
          split
          · rfl
          · exact ih hlines

/-- Under other numbers, the same lines have the same errors with other numbers. -/
theorem readLines_renumber {f : Nat → Nat} {m : Nat} {texts : List (List Char)}
    (h : ∀ i < texts.length, f (n + i) = m + i) :
    r.readLines m texts = (r.readLines n texts).mapError (·.renumber f) := by
  induction texts generalizing r n m with
  | nil => rfl
  | cons text texts ih =>
      have hfirst : f n = m := h 0 (Nat.succ_pos _)
      have hrest : ∀ i < texts.length, f (n + 1 + i) = m + 1 + i := by
        intro i hi
        have hnext := h (i + 1) (Nat.succ_lt_succ hi)
        rwa [← Nat.add_assoc, ← Nat.add_assoc, Nat.add_right_comm, Nat.add_right_comm m] at hnext
      rw [readLines, readLines, ← hfirst, readLine_renumber]
      cases r.readLine n (.ofChars text) with
      | error e => rfl
      | ok r' =>
          change r'.readLines (f n + 1) texts = _
          rw [hfirst]
          exact ih hrest

theorem readLines_silent {text : List Char} (h : DescriptionLine.ofChars text = .silent) (texts : List (List Char)) :
    r.readLines n (text :: texts) = r.readLines (n + 1) texts := by
  rw [readLines, h]
  rfl

theorem readLines_concat {text : List Char} (h : DescriptionLine.ofChars text = .silent) (texts : List (List Char)) :
    r.readLines n (texts ++ [text]) = r.readLines n texts := by
  rw [readLines_append]
  cases r.readLines n texts with
  | error e => rfl
  | ok r' => exact readLines_silent h []

/-- A line that says nothing moves those behind it down by one. -/
theorem readLines_insert {before after : List (List Char)} {text : List Char}
    (h : DescriptionLine.ofChars text = .silent) :
    empty.readLines 1 (before ++ text :: after) = (empty.readLines 1 (before ++ after)).mapError
      (·.renumber fun n => n + if before.length < n then 1 else 0) := by
  have hbefore : empty.readLines 1 before = (empty.readLines 1 before).mapError
      (·.renumber fun n => n + if before.length < n then 1 else 0) :=
    readLines_renumber fun i hi => by rw [if_neg (by omega), Nat.add_zero]
  have hafter : ∀ r : Reader, r.readLines (1 + before.length) (text :: after) =
      (r.readLines (1 + before.length) after).mapError
        (·.renumber fun n => n + if before.length < n then 1 else 0) := by
    intro r
    rw [readLines_silent h]
    refine readLines_renumber fun i _ => ?_
    rw [if_pos (by omega), Nat.add_right_comm]
  rw [readLines_append, readLines_append, mapError_bind, ← hbefore]
  exact congrArg _ (funext hafter)

/-! ### The line that is to blame -/

/-- The lines before it can be followed, and then line `n` cannot. -/
def OffendsAt (texts : List (List Char)) (n : Nat) (e : DescriptionError) : Prop :=
  ∃ before text after r, texts = before ++ text :: after ∧ n = before.length + 1 ∧ empty.readLines 1 before = .ok r ∧
    r.readLine n (.ofChars text) = .error e

theorem OffendsAt.line? {texts : List (List Char)} {e : DescriptionError} (h : OffendsAt texts n e) :
    e.line? = some n ∨ e.line? = none := by
  obtain ⟨before, text, after, r, -, -, -, herror⟩ := h
  exact line?_of_readLine herror

/-- The lines after it make no difference. -/
theorem OffendsAt.of_take {texts texts' : List (List Char)} {e : DescriptionError} (h : OffendsAt texts n e)
    (htake : texts'.take n = texts.take n) : OffendsAt texts' n e := by
  obtain ⟨before, text, after, r, rfl, rfl, hbefore, herror⟩ := h
  have hfirst : (before ++ text :: after).take (before.length + 1) = before ++ [text] := by
    rw [List.take_length_add_append]
    rfl
  refine ⟨before, text, texts'.drop (before.length + 1), r, ?_, rfl, hbefore, herror⟩
  calc texts'
    _ = texts'.take (before.length + 1) ++ texts'.drop (before.length + 1) := (List.take_append_drop _ _).symm
    _ = before ++ text :: texts'.drop (before.length + 1) := by rw [htake, hfirst, List.append_assoc]; rfl

theorem exists_readLine_of_readLines {texts : List (List Char)} {e : DescriptionError}
    (h : r.readLines n texts = .error e) : ∃ before text after r', texts = before ++ text :: after ∧
      r.readLines n before = .ok r' ∧ r'.readLine (n + before.length) (.ofChars text) = .error e := by
  induction texts generalizing r n with
  | nil => cases h
  | cons text texts ih =>
      rw [readLines] at h
      split at h
      · rename_i herror
        rw [Except.error.inj h] at herror
        exact ⟨[], text, texts, r, rfl, rfl, herror⟩
      · rename_i r₁ hline
        obtain ⟨before, text', after, r', rfl, hbefore, herror⟩ := ih h
        refine ⟨text :: before, text', after, r', rfl, ?_, ?_⟩
        · rw [readLines, hline]
          exact hbefore
        · rwa [Nat.add_right_comm] at herror

/-- Reading fails exactly if some line is to blame, and with the error of this line. -/
theorem readLines_eq_error_iff {texts : List (List Char)} {e : DescriptionError} :
    empty.readLines 1 texts = .error e ↔ ∃ n, OffendsAt texts n e := by
  constructor
  · intro h
    obtain ⟨before, text, after, r, rfl, hbefore, herror⟩ := exists_readLine_of_readLines h
    rw [Nat.add_comm] at herror
    exact ⟨_, before, text, after, r, rfl, rfl, hbefore, herror⟩
  · rintro ⟨n, before, text, after, r, rfl, rfl, hbefore, herror⟩
    rw [readLines_append, hbefore]
    change r.readLines (1 + before.length) (text :: after) = .error e
    rw [readLines, Nat.add_comm, herror]

end Reader

end ShiftReduce
